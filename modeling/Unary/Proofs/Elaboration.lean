import Unary.Proofs.Tables

/-!
Elaboration: what lenient evaluation leaves to look-ups, written out in the program. A name that is not
in scope and a call of a function that is not there become zero, and a call has as many arguments as its
function has parameters, the missing ones being zero.
-/

namespace Unary

/-- The first `k` arguments, and zeros up to `k` if there are fewer. -/
def fitArgs (k : Nat) (args : List Term) : List Term :=
  args.take k ++ List.replicate (k - args.length) .zero

mutual

/-- Write out in a term what is missing, with the names of `scope` in scope. -/
def Term.elaborate (functions : Functions) (scope : List String) : Term → Term
  | .zero => .zero
  | .succ arg => .succ (arg.elaborate functions scope)
  | .var name => if name ∈ scope then .var name else .zero
  | .call callee args =>
    match functions.get? callee with
    | none => .zero
    | some f => .call callee (fitArgs f.arity (Term.elaborateAll functions scope args))
  | .cond left right yes no =>
    .cond (left.elaborate functions scope) (right.elaborate functions scope)
      (yes.elaborate functions scope) (no.elaborate functions scope)
  | .equation left right => .equation left right
  | .text content => .text content

def Term.elaborateAll (functions : Functions) (scope : List String) : List Term → List Term
  | [] => []
  | t :: ts => t.elaborate functions scope :: Term.elaborateAll functions scope ts

end

/-- A function with its body elaborated, in which its parameters are in scope. -/
def Lambda.elaborate (functions : Functions) (f : Lambda) : Lambda :=
  ⟨f.params, f.body.elaborate functions f.params⟩

def Functions.elaborate (functions : Functions) : Functions :=
  functions.mapValues (Lambda.elaborate functions)

theorem length_fitArgs (k : Nat) (args : List Term) : (fitArgs k args).length = k := by
  simp only [fitArgs, List.length_append, List.length_take, List.length_replicate]
  omega

theorem take_fitArgs (k : Nat) (args : List Term) : (fitArgs k args).take k = fitArgs k args :=
  List.take_of_length_le (Nat.le_of_eq (length_fitArgs k args))

namespace Term

variable (functions : Functions) (scope : List String)

theorem elaborateAll_eq_map (ts : List Term) :
    elaborateAll functions scope ts = ts.map (elaborate functions scope) := by
  induction ts with
  | nil => rfl
  | cons t ts ih => rw [elaborateAll, ih, List.map_cons]

theorem length_elaborateAll (ts : List Term) :
    (elaborateAll functions scope ts).length = ts.length := by
  rw [elaborateAll_eq_map, List.length_map]

theorem elaborateAll_fitArgs (k : Nat) (ts : List Term) :
    elaborateAll functions scope (fitArgs k ts) = fitArgs k (elaborateAll functions scope ts) := by
  simp only [elaborateAll_eq_map, fitArgs, List.map_append, List.map_take, List.map_replicate,
    List.length_map, elaborate]

theorem allWellFormed_iff (ts : List Term) :
    allWellFormed ts = true ↔ ∀ t ∈ ts, t.wellFormed = true := by
  induction ts with
  | nil => simp [allWellFormed]
  | cons t ts ih => simp [allWellFormed, ih]

theorem allWellFormed_take {ts : List Term} (h : allWellFormed ts = true) (k : Nat) :
    allWellFormed (ts.take k) = true := by
  rw [allWellFormed_iff] at h ⊢
  intro t ht
  exact h t (List.mem_of_mem_take ht)

theorem allWellFormed_fitArgs {ts : List Term} (h : allWellFormed ts = true) (k : Nat) :
    allWellFormed (fitArgs k ts) = true := by
  rw [allWellFormed_iff] at h ⊢
  intro t ht
  rcases List.mem_append.mp ht with ht | ht
  · exact h t (List.mem_of_mem_take ht)
  · rw [List.eq_of_mem_replicate ht]
    rfl

mutual

theorem wellFormed_elaborate : ∀ t : Term, t.wellFormed = true →
    (t.elaborate functions scope).wellFormed = true
  | zero, _ => rfl
  | succ arg, ht => wellFormed_elaborate arg ht
  | var name, _ => by
    rw [elaborate]
    split <;> rfl
  | call callee args, ht => by
    rw [elaborate]
    cases functions.get? callee with
    | none => rfl
    | some f => exact allWellFormed_fitArgs (allWellFormed_elaborateAll args ht) f.arity
  | cond left right yes no, ht => by
    obtain ⟨hl, hr, hy, hn⟩ := wellFormed_cond_iff.mp ht
    rw [elaborate, wellFormed_cond_iff]
    exact ⟨wellFormed_elaborate left hl, wellFormed_elaborate right hr,
      wellFormed_elaborate yes hy, wellFormed_elaborate no hn⟩

theorem allWellFormed_elaborateAll : ∀ ts : List Term, allWellFormed ts = true →
    allWellFormed (elaborateAll functions scope ts) = true
  | [], _ => rfl
  | t :: ts, ht => by
    obtain ⟨ht, hts⟩ := allWellFormed_cons_iff.mp ht
    rw [elaborateAll, allWellFormed_cons_iff]
    exact ⟨wellFormed_elaborate t ht, allWellFormed_elaborateAll ts hts⟩

end

end Term

theorem Functions.wellFormed_body {functions : Functions} (h : functions.wellFormed = true)
    {name : String} {f : Lambda} (hf : functions.get? name = some f) : f.body.wellFormed = true :=
  List.all_eq_true.mp h _ (Table.mem_entries_of_get? hf)

theorem Functions.get?_elaborate (functions : Functions) (name : String) :
    functions.elaborate.get? name = (functions.get? name).map (Lambda.elaborate functions) :=
  Table.get?_mapValues (Lambda.elaborate functions) functions name

theorem Functions.of_get?_elaborate {functions : Functions} {name : String} {f g : Lambda}
    (hf : functions.get? name = some f) (hg : functions.elaborate.get? name = some g) :
    g.params = f.params ∧ g.body = f.body.elaborate functions f.params := by
  rw [Functions.get?_elaborate, hf] at hg
  cases hg
  exact ⟨rfl, rfl⟩

section Origins

variable {functions : Functions} {scope : List String} {t : Term}

/-! What a term was before it was elaborated. -/

theorem Term.of_elaborate_succ {arg : Term} (h : .succ arg = t.elaborate functions scope) :
    ∃ a, t = .succ a ∧ arg = a.elaborate functions scope := by
  cases t with
  | succ a => exact ⟨a, rfl, by simpa [elaborate] using h⟩
  | var name => by_cases hn : name ∈ scope <;> simp [elaborate, hn] at h
  | call callee args => cases hg : functions.get? callee <;> simp [elaborate, hg] at h
  | _ => simp [elaborate] at h

theorem Term.of_elaborate_var {name : String} (h : .var name = t.elaborate functions scope) :
    t = .var name ∧ name ∈ scope := by
  cases t with
  | var x =>
    by_cases hn : x ∈ scope
    · have hx : name = x := by simpa [elaborate, hn] using h
      exact ⟨by rw [hx], hx ▸ hn⟩
    · simp [elaborate, hn] at h
  | call callee args => cases hg : functions.get? callee <;> simp [elaborate, hg] at h
  | _ => simp [elaborate] at h

theorem Term.of_elaborate_cond {left right yes no : Term}
    (h : .cond left right yes no = t.elaborate functions scope) :
    ∃ a b c d, t = .cond a b c d ∧ left = a.elaborate functions scope ∧
      right = b.elaborate functions scope ∧ yes = c.elaborate functions scope ∧
      no = d.elaborate functions scope := by
  cases t with
  | cond a b c d => exact ⟨a, b, c, d, rfl, by simpa [elaborate] using h⟩
  | var name => by_cases hn : name ∈ scope <;> simp [elaborate, hn] at h
  | call callee args => cases hg : functions.get? callee <;> simp [elaborate, hg] at h
  | _ => simp [elaborate] at h

/-- A call was a call of the same function, and the arguments it has are those it had, fitted. -/
theorem Term.of_elaborate_call {callee : String} {args : List Term}
    (h : .call callee args = t.elaborate functions scope) :
    ∃ as f, t = .call callee as ∧ functions.get? callee = some f ∧
      args.length = f.params.length ∧
      args.take f.params.length = elaborateAll functions scope (fitArgs f.params.length as) := by
  cases t with
  | call g as =>
    cases hg : functions.get? g with
    | none => simp [elaborate, hg] at h
    | some f =>
      have he : callee = g ∧ args = fitArgs f.arity (elaborateAll functions scope as) := by
        simpa [elaborate, hg] using h
      obtain ⟨rfl, rfl⟩ := he
      refine ⟨as, f, rfl, hg, length_fitArgs _ _, ?_⟩
      rw [elaborateAll_fitArgs]
      exact take_fitArgs _ _
  | var name => by_cases hn : name ∈ scope <;> simp [elaborate, hn] at h
  | _ => simp [elaborate] at h

end Origins

end Unary
