import Mathlib.Order.RelClasses
import Unary.Proofs.Placement

/-!
Programs without recursion come to an end.

If the functions have ranks under which every call in a body goes to a function of a lower rank, then the
rules give every term a result. Two things get smaller on the way: inside a term the calls are in smaller
terms, and from a call to the body of the function the rank falls. The machine ends where the rules give a
result, and so does the making of a program, which evaluates one value after the other.
-/

namespace Unary

/-- Whether the rules give a term a result, whatever values it sees. -/
def Settles (mode : Mode) (functions : Functions) (t : Term) : Prop :=
  ∀ env, ∃ result, Evaluates mode functions env t result

namespace Settles

variable {mode : Mode} {functions : Functions}

theorem succ {arg : Term} (h : Settles mode functions arg) : Settles mode functions (.succ arg) := by
  intro env
  obtain ⟨fault | n, hn⟩ := h env
  · exact ⟨.error fault, .succFault hn⟩
  · exact ⟨.ok (n + 1), .succ hn⟩

theorem var (name : String) : Settles mode functions (.var name) := by
  intro env
  cases hx : env.get? name with
  | some n => exact ⟨.ok n, .bound hx⟩
  | none =>
    cases mode with
    | lenient => exact ⟨.ok 0, .unboundZero rfl hx⟩
    | strict => exact ⟨.error (.unbound name), .unbound rfl hx⟩

theorem cond {left right yes no : Term} (hleft : Settles mode functions left)
    (hright : Settles mode functions right) (hyes : Settles mode functions yes)
    (hno : Settles mode functions no) : Settles mode functions (.cond left right yes no) := by
  intro env
  obtain ⟨fault | m, hm⟩ := hleft env
  · exact ⟨.error fault, .leftFault hm⟩
  obtain ⟨fault | n, hn⟩ := hright env
  · exact ⟨.error fault, .rightFault hm hn⟩
  by_cases hmn : m = n
  · subst hmn
    obtain ⟨result, hresult⟩ := hyes env
    exact ⟨result, .equal hm hn hresult⟩
  · obtain ⟨result, hresult⟩ := hno env
    exact ⟨result, .unequal hm hn hmn hresult⟩

/-- Arguments that each have a result have one together: their values, or the first fault. -/
theorem exists_evaluatesAll {args : List Term} (h : ∀ arg ∈ args, Settles mode functions arg)
    (env : Values) : ∃ result, EvaluatesAll mode functions env args result := by
  induction args with
  | nil => exact ⟨.ok [], .nil⟩
  | cons arg args ih =>
    obtain ⟨harg, hargs⟩ := List.forall_mem_cons.mp h
    obtain ⟨fault | n, hn⟩ := harg env
    · exact ⟨.error fault, .headFault hn⟩
    obtain ⟨fault | ns, hns⟩ := ih hargs
    · exact ⟨.error fault, .tailFault hn hns⟩
    · exact ⟨.ok (n :: ns), .cons hn hns⟩

/-- A call has a result if its arguments have one and the body of its function, if there is one, too. -/
theorem call {callee : String} {args : List Term} (hargs : ∀ arg ∈ args, Settles mode functions arg)
    (hbody : ∀ f, functions.get? callee = some f → Settles mode functions f.body) :
    Settles mode functions (.call callee args) := by
  intro env
  cases hf : functions.get? callee with
  | none =>
    cases mode with
    | lenient => exact ⟨.ok 0, .unknownZero rfl hf⟩
    | strict => exact ⟨.error (.unknownFunction callee), .unknown rfl hf⟩
  | some f =>
    by_cases hm : mode = .strict → args.length = f.params.length
    · have hsupplied : ∀ arg ∈ args.take f.params.length, Settles mode functions arg :=
        fun arg harg => hargs arg (List.mem_of_mem_take harg)
      obtain ⟨fault | ns, hns⟩ := exists_evaluatesAll hsupplied env
      · exact ⟨.error fault, .argFault hf hm hns⟩
      obtain ⟨result, hresult⟩ := hbody f hf (bindParams .empty f.params ns)
      exact ⟨result, .call hf hm hns hresult⟩
    · obtain ⟨rfl, hne⟩ := Classical.not_imp.mp hm
      exact ⟨.error (.arity (some callee) f.params.length args.length), .arity rfl hf hne⟩

mutual

/-- A term has a result if the body of every function that it calls has one. -/
theorem of_calls : ∀ t : Term, (∀ callee ∈ t.calls, ∀ f, functions.get? callee = some f →
    Settles mode functions f.body) → Settles mode functions t
  | .zero, _ => fun _ => ⟨.ok 0, .zero⟩
  | .succ arg, h => (of_calls arg h).succ
  | .var name, _ => var name
  | .call callee args, h => by
    obtain ⟨hcallee, hargs⟩ := List.forall_mem_cons.mp h
    exact call (of_callsAll args hargs) hcallee
  | .cond left right yes no, h => by
    simp only [Term.calls, List.forall_mem_append] at h
    obtain ⟨⟨⟨hleft, hright⟩, hyes⟩, hno⟩ := h
    exact cond (of_calls left hleft) (of_calls right hright) (of_calls yes hyes) (of_calls no hno)
  | .equation left right, _ => fun _ => ⟨.error (.notTerm (.equation left right)), .equation⟩
  | .text content, _ => fun _ => ⟨.error (.notTerm (.text content)), .text⟩

theorem of_callsAll : ∀ ts : List Term, (∀ callee ∈ Term.callsAll ts, ∀ f,
    functions.get? callee = some f → Settles mode functions f.body) →
    ∀ t ∈ ts, Settles mode functions t
  | [], _ => by simp
  | t :: ts, h => by
    obtain ⟨hfirst, hrest⟩ := List.forall_mem_append.mp h
    exact List.forall_mem_cons.mpr ⟨of_calls t hfirst, of_callsAll ts hrest⟩

end

end Settles

namespace Functions

variable {α : Type} [LT α] {functions : Functions} {rank : String → α}

/-- Ranks of names under which every call in the body of a function goes to a function of a lower rank,
wherever in the body it stands. Calls of functions that are not there do not count. -/
def Descends (functions : Functions) (rank : String → α) : Prop :=
  ∀ name f, functions.get? name = some f →
    ∀ callee ∈ f.body.calls, functions.contains callee = true → rank callee < rank name

/-- By induction on the rank, every function comes to an end. -/
theorem Descends.settles_body [WellFoundedLT α] (h : functions.Descends rank) (mode : Mode)
    (name : String) : ∀ f, functions.get? name = some f → Settles mode functions f.body := by
  have hwf : WellFounded fun callee name => rank callee < rank name := InvImage.wf rank wellFounded_lt
  induction name using hwf.induction with
  | _ name ih =>
    intro f hf
    refine .of_calls f.body fun callee hcallee g hg => ih callee ?_ g hg
    exact h name f hf callee hcallee (Option.isSome_iff_exists.mpr ⟨g, hg⟩)

theorem Descends.settles [WellFoundedLT α] (h : functions.Descends rank) (mode : Mode) (t : Term) :
    Settles mode functions t :=
  .of_calls t fun callee _ => h.settles_body mode callee

/-- Ranks may be checked entry by entry. -/
theorem descends_of_entries (h : ∀ entry ∈ functions.entries, ∀ callee ∈ entry.2.body.calls,
    functions.contains callee = true → rank callee < rank entry.1) : functions.Descends rank :=
  fun name f hf => h (name, f) (Table.mem_entries_of_get? hf)

end Functions

section Ending

variable {α β : Type} {mode : Mode}

theorem Ends.bind_ok {run : Nat → Except Failure α} {next : Nat → α → Except Failure β} {a : α}
    {result : Except Failure β} (h : Ends run (.ok a)) (hnext : Ends (fun fuel => next fuel a) result) :
    Ends (fun fuel => run fuel >>= next fuel) result := by
  obtain ⟨-, least, hl⟩ := h
  obtain ⟨hne, least', hl'⟩ := hnext
  refine ⟨hne, max least least', fun fuel hle => ?_⟩
  have hrun : run fuel = .ok a := hl fuel (by omega)
  have hrest : next fuel a = result := hl' fuel (by omega)
  simp only [hrun, bind, Except.bind, hrest]

theorem Ends.bind_error {run : Nat → Except Failure α} {next : Nat → α → Except Failure β}
    {failure : Failure} (h : Ends run (.error failure)) :
    Ends (fun fuel => run fuel >>= next fuel) (.error failure) := by
  obtain ⟨hne, least, hl⟩ := h
  refine ⟨fun hu => hne (by cases hu; rfl), least, fun fuel hle => ?_⟩
  simp only [hl fuel hle, bind, Except.bind]

/-- The machine ends where the rules give a result. -/
theorem Evaluates.ends {functions : Functions} {env : Values} {t : Term} {result : Except Fault Nat}
    (h : Evaluates mode functions env t result) (limit : Option Nat) :
    Ends (fun fuel => (evaluate fuel mode t env functions).toExcept limit)
      (result.mapError (.ofFault (remaining limit 1))) := by
  obtain ⟨least, hl⟩ := exists_evaluate_of_evaluates h
  have hne : evaluate least mode t env functions ≠ .unfinished := by
    rw [hl]
    exact Machine.Outcome.ofResult_ne_unfinished result
  have hresult : (evaluate least mode t env functions).toExcept limit =
      result.mapError (.ofFault (remaining limit 1)) := by
    rw [hl]
    cases result <;> rfl
  refine ⟨fun hu => hne ?_, least, fun fuel hle => ?_⟩
  · rwa [← hresult, Machine.Outcome.toExcept_eq_unfinished_iff] at hu
  · simp only [evaluate_mono hle hne, hresult]

/-- The faults of strict mode show no term, so that no limit bears on them. -/
theorem Failure.ofFault_of_isRejection {fault : Fault} (h : fault.isRejection = true) (limit : Option Nat) :
    ofFault limit fault = .eval fault := by
  cases fault with
  | notTerm node => cases h
  | _ => rfl

/-- A computation comes to an end, with a value or, in strict mode alone, with the fault that something is
missing or too much. -/
def Concludes (mode : Mode) (run : Nat → Except Failure α) : Prop :=
  (∃ a, Ends run (.ok a)) ∨
    mode = .strict ∧ ∃ fault, Ends run (.error (.eval fault)) ∧ fault.isRejection = true

theorem Concludes.ok (a : α) : Concludes mode fun _ => (.ok a : Except Failure α) :=
  .inl ⟨a, by simp, 0, fun _ _ => rfl⟩

theorem Concludes.bind {run : Nat → Except Failure α} {next : Nat → α → Except Failure β}
    (h : Concludes mode run) (hnext : ∀ a, Concludes mode fun fuel => next fuel a) :
    Concludes mode fun fuel => run fuel >>= next fuel := by
  rcases h with ⟨a, ha⟩ | ⟨hm, fault, hfault, hr⟩
  · rcases hnext a with ⟨b, hb⟩ | ⟨hm, fault, hfault, hr⟩
    · exact .inl ⟨b, ha.bind_ok hb⟩
    · exact .inr ⟨hm, fault, ha.bind_ok hfault, hr⟩
  · exact .inr ⟨hm, fault, hfault.bind_error, hr⟩

/-- In a term that is one all through, only strict mode finds a fault. -/
theorem Evaluates.isRejection {functions : Functions} {env : Values} {t : Term} {fault : Fault}
    (h : Evaluates mode functions env t (.error fault)) (hf : functions.wellFormed = true)
    (ht : t.wellFormed = true) : mode = .strict ∧ fault.isRejection = true := by
  obtain ⟨fuel, hfault⟩ := exists_evaluate_of_evaluates h
  rcases evaluate_of_wellFormed hf ht env fuel with ⟨n, hn⟩ | hu | ⟨found, hfound, hm, hr⟩
  · cases hfault.symm.trans hn
  · cases hfault.symm.trans hu
  · cases hfault.symm.trans hfound
    exact ⟨hm, hr⟩

theorem Settles.concludes {functions : Functions} {t : Term} (h : Settles mode functions t)
    (hf : functions.wellFormed = true) (ht : t.wellFormed = true) (env : Values) (limit : Option Nat) :
    Concludes mode fun fuel => (evaluate fuel mode t env functions).toExcept limit := by
  obtain ⟨fault | n, hresult⟩ := h env
  · obtain ⟨hm, hr⟩ := hresult.isRejection hf ht
    have hends := hresult.ends limit
    rw [Except.mapError, Failure.ofFault_of_isRejection hr] at hends
    exact .inr ⟨hm, fault, hends, hr⟩
  · exact .inl ⟨n, hresult.ends limit⟩

end Ending

namespace Program

variable {mode : Mode} {functions : Functions} (limit : Option Nat)

/-- If every term has a result, the values of definitions are found one after the other. -/
theorem concludes_lowerValues (h : ∀ t, Settles mode functions t) (hf : functions.wellFormed = true)
    {defs : List Definition} (hds : ∀ d ∈ defs, d.body.toTerm.wellFormed = true) (values : Values) :
    Concludes mode fun fuel => lowerValues ⟨limit, fuel⟩ mode functions values defs := by
  induction defs generalizing values with
  | nil => exact .ok values
  | cons d defs ih =>
    obtain ⟨hd, hrest⟩ := List.forall_mem_cons.mp hds
    cases d with
    | function name params body => exact ih hrest values
    | value name body =>
      have hbody : body.toTerm.wellFormed = true := hd
      have hvalue := (h body.toTerm).concludes hf hbody values limit
      simp only [lowerValues, lowerExpr_toTerm limit hbody]
      exact hvalue.bind fun n => ih hrest (values.insert name n)

theorem concludes_ofScript {s : Script} (h : ∀ t, Settles mode s.functions t)
    (hds : ∀ d ∈ s.definitions, d.body.toTerm.wellFormed = true)
    (hr : ∀ e ∈ s.result, e.toTerm.wellFormed = true) :
    Concludes mode fun fuel => ofScript ⟨limit, fuel⟩ mode s := by
  have hresult : lowerResult (remaining limit 1) s.result = .ok (s.result.map Expr.toTerm) := by
    cases he : s.result with
    | none => rfl
    | some e =>
      rw [lowerResult, lowerExpr_toTerm _ (hr e he)]
      rfl
  have hvalues := concludes_lowerValues (remaining limit 1) h (wellFormed_functions_of_bodies hds) hds .empty
  simp only [ofScript_eq hds, Bounds.inside, hresult]
  exact hvalues.bind fun values => .ok _

end Program

/-- Programs without recursion always end. If the functions have ranks under which every call in a body goes
to a function of a lower rank, every evaluation ends, and if all is made of terms, then with a value or in
strict mode with the fault that something is missing or too much. So does the making of a program from a
script whose functions, the last of each name, have such ranks. -/
theorem evaluate_ends_of_descends {α : Type} [LT α] [WellFoundedLT α] (rank : String → α) :
    (∀ functions : Functions, functions.Descends rank →
      ∀ (mode : Mode) (env : Values) (t : Term) (limit : Option Nat),
        (∃ result, Ends (fun fuel => (evaluate fuel mode t env functions).toExcept limit) result) ∧
        (functions.wellFormed = true → t.wellFormed = true →
          Concludes mode fun fuel => (evaluate fuel mode t env functions).toExcept limit)) ∧
    ∀ s : Script, s.functions.Descends rank →
      (∀ d ∈ s.definitions, d.body.toTerm.wellFormed = true) →
      (∀ e ∈ s.result, e.toTerm.wellFormed = true) → ∀ (mode : Mode) (limit : Option Nat),
        Concludes mode fun fuel => Program.ofScript ⟨limit, fuel⟩ mode s := by
  constructor
  · intro functions h mode env t limit
    have hsettles := h.settles mode t
    refine ⟨?_, fun hf ht => hsettles.concludes hf ht env limit⟩
    obtain ⟨result, hresult⟩ := hsettles env
    exact ⟨_, hresult.ends limit⟩
  · intro s h hds hr mode limit
    exact Program.concludes_ofScript limit (h.settles mode) hds hr

/-- A function that calls another one in the argument of a call of it, and a value before both are defined. The
term has a name without a value, which strict mode refuses. -/
theorem evaluate_ends_of_descends_nested :
    let two : Definition := .function "two" ["x"] (.succ (.succ (.var "x")))
    let four : Definition := .function "four" ["x"] (.call "two" [.call "two" [.var "x"]])
    let s : Script := ⟨[.value "a" (.call "four" [.zero]), four, two], some (.call "four" [.var "a"])⟩
    let rank (name : String) : Nat := if name = "four" then 1 else 0
    let t : Term := .call "four" [.var "b"]
    s.functions.Descends rank ∧
      Concludes .strict (fun fuel => Program.ofScript ⟨some 100, fuel⟩ .strict s) ∧
      Concludes .strict fun fuel => (evaluate fuel .strict t .empty s.functions).toExcept (some 100) := by
  intro two four s rank t
  have h : s.functions.Descends rank := Functions.descends_of_entries (by decide +kernel)
  have hds : ∀ d ∈ s.definitions, d.body.toTerm.wellFormed = true := by decide +kernel
  have hr : ∀ e ∈ s.result, e.toTerm.wellFormed = true := by simp [s, Expr.toTerm, Expr.toTerms,
    Term.wellFormed, Term.allWellFormed]
  have hf : s.functions.wellFormed = true := by decide +kernel
  obtain ⟨hevaluate, hscript⟩ := evaluate_ends_of_descends rank
  exact ⟨h, hscript s h hds hr .strict (some 100),
    (hevaluate s.functions h .strict .empty t (some 100)).2 hf (by decide +kernel)⟩

end Unary
