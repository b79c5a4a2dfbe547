import Mathlib.Data.List.Forall2
import Unary.Proofs.Machine
import Unary.Proofs.TailCalls

/-!
What a run can see of its surroundings: the variables that stand in its term, and the functions that its
calls reach through the bodies of functions.

Two runs of one term are compared move by move. Their frames hold the same terms, with values that agree on
the variables of those terms, and call functions that are the same in both tables. A call replaces the
values of its caller by the parameters, so from there on both runs see the same values.
-/

namespace Unary

namespace Term

mutual

/-- The variables that occur in a term. A node that is no term has none. -/
def vars : Term → List String
  | zero => []
  | succ arg => vars arg
  | var name => [name]
  | call _ args => varsAll args
  | cond left right yes no => vars left ++ vars right ++ vars yes ++ vars no
  | equation _ _ => []
  | text _ => []

def varsAll : List Term → List String
  | [] => []
  | t :: ts => vars t ++ varsAll ts

end

theorem mem_callsAll {callee : String} {t : Term} {ts : List Term} (ht : t ∈ ts)
    (h : callee ∈ t.calls) : callee ∈ callsAll ts := by
  induction ts with
  | nil => cases ht
  | cons first rest ih =>
    rw [callsAll, List.mem_append]
    rcases List.mem_cons.mp ht with rfl | hrest
    · exact .inl h
    · exact .inr (ih hrest)

theorem mem_varsAll {name : String} {t : Term} {ts : List Term} (ht : t ∈ ts)
    (h : name ∈ t.vars) : name ∈ varsAll ts := by
  induction ts with
  | nil => cases ht
  | cons first rest ih =>
    rw [varsAll, List.mem_append]
    rcases List.mem_cons.mp ht with rfl | hrest
    · exact .inl h
    · exact .inr (ih hrest)

end Term

/-- The functions that a term can come to call: those it calls, and those that the body of such a function
calls. -/
inductive Functions.ReachableFrom (functions : Functions) (t : Term) : String → Prop
  | direct {callee : String} : callee ∈ t.calls → functions.ReachableFrom t callee
  | through {name callee : String} {f : Lambda} : functions.ReachableFrom t name →
      functions.get? name = some f → callee ∈ f.body.calls → functions.ReachableFrom t callee

/-- Both tables have the same functions for the known names, and their bodies call known names only. -/
structure Functions.Shared (known : String → Prop) (functions functions' : Functions) : Prop where
  get?_eq : ∀ name, known name → functions.get? name = functions'.get? name
  closed : ∀ name f, known name → functions.get? name = some f → ∀ callee ∈ f.body.calls, known callee

theorem Functions.shared_reachableFrom {functions functions' : Functions} {t : Term}
    (h : ∀ name, functions.ReachableFrom t name → functions.get? name = functions'.get? name) :
    Shared (functions.ReachableFrom t) functions functions' :=
  ⟨h, fun _ _ hname hf _ hcallee => .through hname hf hcallee⟩

/-- Whether two tables give a name the same value. In lenient mode a name without a value counts as zero. -/
def Values.Agree (mode : Mode) (env env' : Values) (name : String) : Prop :=
  match mode with
  | .lenient => (env.get? name).getD 0 = (env'.get? name).getD 0
  | .strict => env.get? name = env'.get? name

theorem Values.Agree.refl (mode : Mode) (env : Values) (name : String) : env.Agree mode env name := by
  cases mode <;> rfl

theorem Values.Agree.lookup_eq {mode : Mode} {env env' : Values} {name : String}
    (h : Agree mode env env' name) : env.lookup mode name = env'.lookup mode name := by
  cases mode with
  | strict =>
    have hget : env.get? name = env'.get? name := h
    simp only [Values.lookup, hget]
  | lenient =>
    have hlenient (values : Values) : values.lookup .lenient name = .ok ((values.get? name).getD 0) := by
      cases hx : values.get? name <;> simp [Values.lookup, hx]
    have hget : (env.get? name).getD 0 = (env'.get? name).getD 0 := h
    rw [hlenient, hlenient, hget]

theorem Functions.lookup_congr {functions functions' : Functions} {name : String}
    (h : functions.get? name = functions'.get? name) (mode : Mode) :
    functions.lookup mode name = functions'.lookup mode name := by
  simp only [Functions.lookup, h]

theorem Functions.get?_of_lookup {functions : Functions} {mode : Mode} {name : String} {f : Lambda}
    (h : functions.lookup mode name = .ok (some f)) : functions.get? name = some f := by
  cases hf : functions.get? name with
  | none => cases mode <;> simp [Functions.lookup, hf] at h
  | some g => simpa [Functions.lookup, hf] using h

namespace Machine

/-- Two tables of values show a term the same, and the term calls known functions only. -/
structure Sees (mode : Mode) (known : String → Prop) (env env' : Values) (t : Term) : Prop where
  agree : ∀ name ∈ t.vars, env.Agree mode env' name
  known : ∀ callee ∈ t.calls, known callee

/-- Two frames with the same terms, whose values differ at most where the terms do not look. -/
inductive Frame.Alike (mode : Mode) (known : String → Prop) : Frame → Frame → Prop
  | eval {t : Term} {env env' : Values} (h : Sees mode known env env' t) :
      Alike mode known (.eval t env) (.eval t env')
  | succ : Alike mode known .succ .succ
  | branch {yes no : Term} {env env' : Values} (hyes : Sees mode known env env' yes)
      (hno : Sees mode known env env' no) :
      Alike mode known (.branch yes no env) (.branch yes no env')
  | apply {f : Lambda} {count : Nat} (h : ∀ callee ∈ f.body.calls, known callee) :
      Alike mode known (.apply f count) (.apply f count)

/-- The same values on the stack, and work that is alike frame by frame. -/
structure Config.Alike (mode : Mode) (known : String → Prop) (c c' : Config) : Prop where
  work : List.Forall₂ (Frame.Alike mode known) c.work c'.work
  values : c.values = c'.values

/-- Moves with the same outcome, up to configurations that are alike. -/
inductive Step.Alike (mode : Mode) (known : String → Prop) : Step → Step → Prop
  | next {c c' : Config} (h : c.Alike mode known c') : Alike mode known (.next c) (.next c')
  | halt (n : Nat) : Alike mode known (.halt n) (.halt n)
  | fault (fault : Fault) : Alike mode known (.fault fault) (.fault fault)
  | stuck : Alike mode known .stuck .stuck

variable {mode : Mode} {known : String → Prop} {functions functions' : Functions} {env env' : Values}

theorem Sees.of_cond {left right yes no : Term} (h : Sees mode known env env' (.cond left right yes no)) :
    Sees mode known env env' left ∧ Sees mode known env env' right ∧
      Sees mode known env env' yes ∧ Sees mode known env env' no := by
  obtain ⟨hagree, hknown⟩ := h
  simp only [Term.vars, List.forall_mem_append] at hagree
  simp only [Term.calls, List.forall_mem_append] at hknown
  obtain ⟨⟨⟨hleft, hright⟩, hyes⟩, hno⟩ := hagree
  obtain ⟨⟨⟨kleft, kright⟩, kyes⟩, kno⟩ := hknown
  exact ⟨⟨hleft, kleft⟩, ⟨hright, kright⟩, ⟨hyes, kyes⟩, hno, kno⟩

theorem Sees.of_call {callee : String} {args : List Term}
    (h : Sees mode known env env' (.call callee args)) {arg : Term} (harg : arg ∈ args) :
    Sees mode known env env' arg :=
  ⟨fun name hname => h.agree name (Term.mem_varsAll harg hname),
    fun name hname => h.known name (List.mem_cons_of_mem _ (Term.mem_callsAll harg hname))⟩

/-- What a call does depends on the function that its name has in the table. -/
theorem alike_eval_call (hshared : Functions.Shared known functions functions')
    {callee : String} {args : List Term} (h : Sees mode known env env' (.call callee args))
    {work work' : List Frame} (hwork : List.Forall₂ (Frame.Alike mode known) work work')
    (values : List Nat) :
    Step.Alike mode known (eval mode functions env work values (.call callee args))
      (eval mode functions' env' work' values (.call callee args)) := by
  have hcallee : known callee := h.known callee List.mem_cons_self
  have hlookup := Functions.lookup_congr (hshared.get?_eq callee hcallee) mode
  simp only [eval, ← hlookup]
  cases hfound : functions.lookup mode callee with
  | error fault => exact .fault fault
  | ok found =>
    cases found with
    | none => exact .next ⟨hwork, rfl⟩
    | some f =>
      have hbody : ∀ name ∈ f.body.calls, known name :=
        hshared.closed callee f hcallee (Functions.get?_of_lookup hfound)
      dsimp only
      split
      · exact .fault _
      · -- The arguments are evaluated in the caller's values, the body in its own.
        have hargs : List.Forall₂ (Frame.Alike mode known) ((args.take f.arity).map (.eval · env))
            ((args.take f.arity).map (.eval · env')) := by
          rw [List.forall₂_map_left_iff, List.forall₂_map_right_iff, List.forall₂_same]
          exact fun arg harg => .eval (h.of_call (List.mem_of_mem_take harg))
        exact .next ⟨List.rel_append hargs (.cons (.apply hbody) hwork), rfl⟩

/-- To begin a term is alike where its variables have the same values and its calls the same functions. -/
theorem alike_eval (hshared : Functions.Shared known functions functions')
    {t : Term} (h : Sees mode known env env' t) {work work' : List Frame}
    (hwork : List.Forall₂ (Frame.Alike mode known) work work') (values : List Nat) :
    Step.Alike mode known (eval mode functions env work values t)
      (eval mode functions' env' work' values t) := by
  cases t with
  | zero => exact .next ⟨hwork, rfl⟩
  | succ arg =>
    have harg : Sees mode known env env' arg := ⟨h.agree, h.known⟩
    exact .next ⟨.cons (.eval harg) (.cons .succ hwork), rfl⟩
  | var name =>
    have hname : env.lookup mode name = env'.lookup mode name :=
      (h.agree name (List.mem_singleton_self name)).lookup_eq
    simp only [eval, ← hname]
    cases env.lookup mode name with
    | ok n => exact .next ⟨hwork, rfl⟩
    | error fault => exact .fault fault
  | cond left right yes no =>
    obtain ⟨hleft, hright, hyes, hno⟩ := h.of_cond
    exact .next ⟨.cons (.eval hleft) (.cons (.eval hright) (.cons (.branch hyes hno) hwork)), rfl⟩
  | call callee args => exact alike_eval_call hshared h hwork values
  | equation left right => exact .fault _
  | text content => exact .fault _

/-- One move: from configurations that are alike the outcomes are alike. -/
theorem alike_step (hshared : Functions.Shared known functions functions')
    {c c' : Config} (h : c.Alike mode known c') :
    Step.Alike mode known (step mode functions c) (step mode functions' c') := by
  obtain ⟨work, values⟩ := c
  obtain ⟨work', values'⟩ := c'
  obtain ⟨hwork, hvalues⟩ := h
  obtain rfl : values = values' := hvalues
  cases hwork with
  | nil =>
    cases values with
    | nil => exact .stuck
    | cons n values => exact .halt n
  | cons hframe hrest =>
    cases hframe with
    | eval ht => exact alike_eval hshared ht hrest values
    | succ =>
      cases values with
      | nil => exact .stuck
      | cons n values => exact .next ⟨hrest, rfl⟩
    | branch hyes hno =>
      obtain - | ⟨right, - | ⟨left, values⟩⟩ := values
      · exact .stuck
      · exact .stuck
      · refine .next ⟨.cons (.eval ?_) hrest, rfl⟩
        split
        · exact hyes
        · exact hno
    | @apply f count hbody =>
      simp only [step]
      split
      · -- Both bodies see the parameters alone, with the numbers from the stack.
        have hparams : Sees mode known (f.bind (values.take count).reverse)
            (f.bind (values.take count).reverse) f.body :=
          ⟨fun name _ => Values.Agree.refl mode _ name, hbody⟩
        exact .next ⟨.cons (.eval hparams) hrest, rfl⟩
      · exact .stuck

/-- Whole runs from configurations that are alike have the same outcome. -/
theorem run_congr (hshared : Functions.Shared known functions functions')
    (fuel : Nat) {c c' : Config} (h : c.Alike mode known c') :
    run mode functions fuel c = run mode functions' fuel c' := by
  induction fuel generalizing c c' with
  | zero => rfl
  | succ fuel ih =>
    have hstep := alike_step hshared h
    rw [run, run]
    cases hs : step mode functions c <;> cases hs' : step mode functions' c' <;>
      rw [hs, hs'] at hstep <;> cases hstep
    · exact ih ‹_›
    all_goals rfl

end Machine

open Machine

/-- Tables that agree on every look-up are as good as each other. -/
theorem evaluate_congr {functions functions' : Functions}
    (h : ∀ name, functions.get? name = functions'.get? name) (fuel : Nat) (mode : Mode) (t : Term)
    (env : Values) : evaluate fuel mode t env functions = evaluate fuel mode t env functions' := by
  have hsees : Sees mode (fun _ => True) env env t :=
    ⟨fun name _ => Values.Agree.refl mode env name, fun _ _ => trivial⟩
  exact run_congr ⟨fun name _ => h name, fun _ _ _ _ _ _ => trivial⟩ fuel ⟨.cons (.eval hsees) .nil, rfl⟩

/-- The outcome of a term depends on nothing but the values of the variables that occur in it and the
functions that its calls reach: with tables that agree there, both evaluations have the same value or the
same fault, or both go on forever. A function sees its parameters alone: once its arguments have their
values, a call goes on as the body with those values, whatever the values of its caller are. -/
theorem evaluate_depends_on_visible (mode : Mode) (functions functions' : Functions) :
    (∀ (t : Term) (env env' : Values),
      (∀ name, functions.ReachableFrom t name → functions.get? name = functions'.get? name) →
      (∀ name ∈ t.vars, env.Agree mode env' name) →
      ∀ fuel, evaluate fuel mode t env functions = evaluate fuel mode t env' functions') ∧
    ∀ (callee : String) (f : Lambda) (args : List Term) (ns : List Nat) (env : Values),
      functions.get? callee = some f → (mode = .strict → args.length = f.params.length) →
      EvaluatesAll mode functions env (args.take f.params.length) (.ok ns) →
      ∃ moves, ∀ fuel, evaluate (moves + fuel) mode (.call callee args) env functions =
        evaluate fuel mode f.body (f.bind ns) functions := by
  constructor
  · intro t env env' hfunctions hvalues fuel
    have hsees : Sees mode (functions.ReachableFrom t) env env' t :=
      ⟨hvalues, fun callee hcallee => .direct hcallee⟩
    exact run_congr (Functions.shared_reachableFrom hfunctions) fuel ⟨.cons (.eval hsees) .nil, rfl⟩
  · intro callee f args ns env hf hm hargs
    exact exists_evaluate_body hf hm hargs

/-- A caller has a value for a name that both bodies use and do not bind, and the tables differ in the order
of the functions and in one that nothing reaches. -/
theorem evaluate_depends_on_visible_free_name :
    let f : Lambda := ⟨["x"], .call "g" [.var "x", .var "w"]⟩
    let g : Lambda := ⟨["x", "y"], .cond (.var "w") (.var "y") (.succ (.var "x")) .zero⟩
    let functions : Functions := ⟨[("f", f), ("g", g), ("h", ⟨[], .zero⟩)]⟩
    let functions' : Functions := ⟨[("h", ⟨["x"], .call "h" [.var "x"]⟩), ("g", g), ("f", f)]⟩
    let t : Term := .succ (.call "f" [.var "x"])
    let env : Values := ⟨[("w", 7)]⟩
    let env' : Values := ⟨[("x", 0), ("y", 3)]⟩
    (∀ name, functions.ReachableFrom t name → functions.get? name = functions'.get? name) ∧
      functions.get? "h" ≠ functions'.get? "h" ∧
      (∀ fuel, evaluate fuel .lenient t env functions = evaluate fuel .lenient t env' functions') ∧
      evaluate 20 .lenient t env functions = .value 2 ∧
      ∃ moves, ∀ fuel, evaluate (moves + fuel) .lenient (.call "f" [.var "w"]) env functions =
        evaluate fuel .lenient f.body ⟨[("x", 7)]⟩ functions := by
  intro f g functions functions' t env env'
  have hreached : ∀ name, functions.ReachableFrom t name → name = "f" ∨ name = "g" := by
    intro name h
    induction h with
    | direct hcallee => exact .inl (List.mem_singleton.mp hcallee)
    | through _ hf hcallee ih =>
      rcases ih with rfl | rfl
      · cases hf
        exact .inr (List.mem_singleton.mp hcallee)
      · cases hf
        exact absurd hcallee List.not_mem_nil
  have hfunctions : ∀ name, functions.ReachableFrom t name →
      functions.get? name = functions'.get? name := by
    intro name h
    rcases hreached name h with rfl | rfl
    · rfl
    · rfl
  have hvalues : ∀ name ∈ t.vars, env.Agree .lenient env' name := by
    intro name hname
    obtain rfl := List.mem_singleton.mp hname
    rfl
  have hargs : EvaluatesAll .lenient functions env [.var "w"] (.ok [7]) := .cons (.bound rfl) .nil
  obtain ⟨hsame, hbody⟩ := evaluate_depends_on_visible .lenient functions functions'
  exact ⟨hfunctions, by decide, hsame t env env' hfunctions hvalues, by decide +kernel,
    hbody "f" f [.var "w"] [7] env rfl (by simp) hargs⟩

end Unary
