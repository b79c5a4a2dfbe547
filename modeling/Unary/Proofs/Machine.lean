import Mathlib.Logic.Relation
import Mathlib.Tactic.Common
import Unary.Machine
import Unary.Proofs.Evaluation

/-!
Runs of the machine, and what they find: the machine halts with a value or a fault exactly when the rules
of evaluation derive it, whatever work and values lie below the term.

From the rules to the machine the proof is by the derivation. From the machine to the rules it is by the
fuel: a run that ends from a term passes the configuration in which the term has its value, and has less
fuel left there.
-/

namespace Unary

namespace Machine

/-- Some moves lead from one configuration to the other. -/
def Reaches (mode : Mode) (functions : Functions) : Config → Config → Prop :=
  Relation.ReflTransGen fun c c' => step mode functions c = .next c'

variable {mode : Mode} {functions : Functions}

theorem Reaches.refl (c : Config) : Reaches mode functions c c :=
  Relation.ReflTransGen.refl

theorem Reaches.trans {a b c : Config} (h : Reaches mode functions a b)
    (k : Reaches mode functions b c) : Reaches mode functions a c :=
  Relation.ReflTransGen.trans h k

theorem Reaches.head {a b c : Config} (h : step mode functions a = .next b)
    (k : Reaches mode functions b c) : Reaches mode functions a c :=
  Relation.ReflTransGen.head h k

theorem run_succ_of_next {c c' : Config} (h : step mode functions c = .next c') (fuel : Nat) :
    run mode functions (fuel + 1) c = run mode functions fuel c' := by
  simp [run, h]

/-- More fuel does not change how a run ends. -/
theorem run_add {fuel : Nat} {c : Config} (h : run mode functions fuel c ≠ .unfinished)
    (extra : Nat) : run mode functions (fuel + extra) c = run mode functions fuel c := by
  induction fuel generalizing c with
  | zero => exact absurd rfl h
  | succ fuel ih =>
    rw [Nat.add_right_comm]
    cases hs : step mode functions c with
    | next c' =>
      rw [run_succ_of_next hs, run_succ_of_next hs]
      rw [run_succ_of_next hs] at h
      exact ih h
    | halt n => simp [run, hs]
    | fault fault => simp [run, hs]
    | stuck => simp [run, hs]

/-- A configuration has at most one ending. -/
theorem run_unique {fuel fuel' : Nat} {c : Config} (h : run mode functions fuel c ≠ .unfinished)
    (h' : run mode functions fuel' c ≠ .unfinished) :
    run mode functions fuel c = run mode functions fuel' c := by
  rw [← run_add h fuel', ← run_add h' fuel, Nat.add_comm]

/-- From a configuration on the way, a run goes on as from its start. -/
theorem Reaches.run_eq {c c' : Config} (h : Reaches mode functions c c') :
    ∃ moves, ∀ fuel, run mode functions (moves + fuel) c = run mode functions fuel c' := by
  induction h using Relation.ReflTransGen.head_induction_on with
  | refl => exact ⟨0, fun fuel => by rw [Nat.zero_add]⟩
  | head hs _ ih =>
    obtain ⟨moves, hm⟩ := ih
    refine ⟨moves + 1, fun fuel => ?_⟩
    rw [Nat.add_right_comm, run_succ_of_next hs, hm]

/-- Some moves lead to a configuration, or to a fault. -/
def Leads (mode : Mode) (functions : Functions) (c : Config) : Except Fault Config → Prop
  | .ok c' => Reaches mode functions c c'
  | .error fault => ∃ c', Reaches mode functions c c' ∧ step mode functions c' = .fault fault

theorem Leads.after {c c' : Config} {result : Except Fault Config}
    (h : Reaches mode functions c c') (k : Leads mode functions c' result) :
    Leads mode functions c result := by
  cases result with
  | ok _ => exact h.trans k
  | error fault =>
    obtain ⟨last, hl, hf⟩ := k
    exact ⟨last, h.trans hl, hf⟩

theorem Leads.head {c c' : Config} {result : Except Fault Config}
    (h : step mode functions c = .next c') (k : Leads mode functions c' result) :
    Leads mode functions c result :=
  k.after (.head h (.refl c'))

theorem leads_fault {c : Config} {fault : Fault} (h : step mode functions c = .fault fault) :
    Leads mode functions c (.error fault) :=
  ⟨c, .refl c, h⟩

/-- Begin a term: what is looked up decides the move. -/
theorem step_var_of_some {env : Values} {name : String} {n : Nat} (h : env.get? name = some n)
    (work : List Frame) (values : List Nat) :
    step mode functions ⟨.eval (.var name) env :: work, values⟩ = .next ⟨work, n :: values⟩ := by
  simp [step, eval, Values.lookup, h]

theorem step_call_of_some {callee : String} {f : Lambda} (h : functions.get? callee = some f)
    {args : List Term} (hm : mode = .strict → args.length = f.params.length) (env : Values)
    (work : List Frame) (values : List Nat) :
    step mode functions ⟨.eval (.call callee args) env :: work, values⟩ =
      .next ⟨(args.take f.params.length).map (.eval · env) ++
        .apply f (args.take f.params.length).length :: work, values⟩ := by
  have hr : f.refuses mode args.length = false := by
    cases mode with
    | lenient => rfl
    | strict => simp [Lambda.refuses, Lambda.arity, hm rfl]
  simp [step, eval, Functions.lookup, h, hr, Lambda.arity]

/-- The frame of a call finds its arguments in reverse order. -/
theorem step_apply (f : Lambda) (ns : List Nat) (work : List Frame) (values : List Nat) :
    step mode functions ⟨.apply f ns.length :: work, ns.reverse ++ values⟩ =
      .next ⟨.eval f.body (bindParams .empty f.params ns) :: work, values⟩ := by
  have ht : (ns.reverse ++ values).take ns.length = ns.reverse := by
    rw [← List.length_reverse, List.take_left]
  have hd : (ns.reverse ++ values).drop ns.length = values := by
    rw [← List.length_reverse, List.drop_left]
  simp [step, ht, hd, Lambda.bind_eq]

mutual

/-- A term that has a result leads the machine to it, with the work and the values below it unchanged. -/
theorem leads_of_evaluates {env : Values} {t : Term} {result : Except Fault Nat}
    (h : Evaluates mode functions env t result) (work : List Frame) (values : List Nat) :
    Leads mode functions ⟨.eval t env :: work, values⟩
      (result.map fun n => ⟨work, n :: values⟩) := by
  match h with
  | .zero => exact .head rfl (Reaches.refl _)
  | .succ ha =>
    have ra := leads_of_evaluates ha (.succ :: work) values
    exact .head rfl (Leads.after ra (.head rfl (Reaches.refl _)))
  | .succFault ha => exact .head rfl (leads_of_evaluates ha (.succ :: work) values)
  | .bound hx => exact .head (step_var_of_some hx work values) (Reaches.refl _)
  | .unboundZero hm hx =>
    exact .head (by simp [step, eval, Values.lookup, hm, hx]) (Reaches.refl _)
  | .unbound hm hx => exact leads_fault (by simp [step, eval, Values.lookup, hm, hx])
  | .leftFault ha => exact .head rfl (leads_of_evaluates ha _ values)
  | .rightFault ha hb =>
    refine .head rfl (.after (leads_of_evaluates ha _ values) ?_)
    exact leads_of_evaluates hb _ _
  | .equal ha hb hc =>
    refine .head rfl (.after (leads_of_evaluates ha _ values) ?_)
    refine .after (leads_of_evaluates hb _ _) (.head ?_ (leads_of_evaluates hc work values))
    simp [step]
  | .unequal ha hb hne hd =>
    refine .head rfl (.after (leads_of_evaluates ha _ values) ?_)
    refine .after (leads_of_evaluates hb _ _) (.head ?_ (leads_of_evaluates hd work values))
    simp [step, hne]
  | .unknownZero hm hf =>
    exact .head (by simp [step, eval, Functions.lookup, hm, hf]) (Reaches.refl _)
  | .unknown hm hf => exact leads_fault (by simp [step, eval, Functions.lookup, hm, hf])
  | .arity hm hf hne =>
    exact leads_fault (by
      simp [step, eval, Functions.lookup, hm, hf, Lambda.refuses, Lambda.arity, hne])
  | .argFault hf hm ha =>
    exact .head (step_call_of_some hf hm env work values) (leads_of_evaluatesAll ha _ values)
  | .call hf hm ha hb =>
    refine .head (step_call_of_some hf hm env work values) ?_
    refine .after (leads_of_evaluatesAll ha _ values) ?_
    rw [ha.length_eq]
    exact .head (step_apply _ _ work values) (leads_of_evaluates hb work values)
  | .equation => exact leads_fault rfl
  | .text => exact leads_fault rfl

/-- Arguments leave their values in reverse order. -/
theorem leads_of_evaluatesAll {env : Values} {args : List Term} {result : Except Fault (List Nat)}
    (h : EvaluatesAll mode functions env args result) (work : List Frame) (values : List Nat) :
    Leads mode functions ⟨args.map (.eval · env) ++ work, values⟩
      (result.map fun ns => ⟨work, ns.reverse ++ values⟩) := by
  match h with
  | .nil => exact Reaches.refl _
  | .headFault ha => exact leads_of_evaluates ha _ values
  | .tailFault ha hs =>
    refine .after (leads_of_evaluates ha _ values) ?_
    exact leads_of_evaluatesAll hs work _
  | .cons ha hs =>
    refine .after (leads_of_evaluates ha _ values) ?_
    simp only [Except.map, List.reverse_cons, List.append_assoc, List.singleton_append]
    exact leads_of_evaluatesAll hs work _

end

/-- How a run that ends goes on: from a configuration, with less fuel, or not at all after a fault. -/
def Resumes (mode : Mode) (functions : Functions) (fuel : Nat) (outcome : Outcome) :
    Except Fault Config → Prop
  | .ok c => ∃ left < fuel, run mode functions left c = outcome
  | .error fault => outcome = .fault fault

/-- What is to be shown of the runs with an amount of fuel: one that ends from a term has the result of
the term on its way. -/
def Follows (mode : Mode) (functions : Functions) (fuel : Nat) : Prop :=
  ∀ (env : Values) (t : Term) (work : List Frame) (values : List Nat) (outcome : Outcome),
    outcome ≠ .unfinished → run mode functions fuel ⟨.eval t env :: work, values⟩ = outcome →
    ∃ result, Evaluates mode functions env t result ∧
      Resumes mode functions fuel outcome (result.map fun n => ⟨work, n :: values⟩)

theorem run_of_next {fuel : Nat} {c c' : Config} {outcome : Outcome} (ho : outcome ≠ .unfinished)
    (h : run mode functions fuel c = outcome) (hs : step mode functions c = .next c') :
    ∃ left < fuel, run mode functions left c' = outcome := by
  cases fuel with
  | zero => exact absurd h.symm ho
  | succ fuel =>
    rw [run_succ_of_next hs] at h
    exact ⟨fuel, Nat.lt_succ_self fuel, h⟩

theorem run_of_fault {fuel : Nat} {c : Config} {outcome : Outcome} {fault : Fault}
    (ho : outcome ≠ .unfinished) (h : run mode functions fuel c = outcome)
    (hs : step mode functions c = .fault fault) : outcome = .fault fault := by
  cases fuel with
  | zero => exact absurd h.symm ho
  | succ fuel => simpa [run, hs] using h.symm

theorem Resumes.weaken {fuel fuel' : Nat} {outcome : Outcome} {result : Except Fault Config}
    (h : Resumes mode functions fuel outcome result) (hl : fuel ≤ fuel') :
    Resumes mode functions fuel' outcome result := by
  cases result with
  | ok c =>
    obtain ⟨left, hlt, hr⟩ := h
    exact ⟨left, Nat.lt_of_lt_of_le hlt hl, hr⟩
  | error fault => exact h

theorem follows_args {bound : Nat} (ih : ∀ k < bound, Follows mode functions k)
    (env : Values) (args : List Term) (work : List Frame) (values : List Nat) {outcome : Outcome}
    (ho : outcome ≠ .unfinished) {fuel : Nat} (hl : fuel < bound)
    (h : run mode functions fuel ⟨args.map (.eval · env) ++ work, values⟩ = outcome) :
    ∃ result, EvaluatesAll mode functions env args result ∧
      Resumes mode functions bound outcome (result.map fun ns => ⟨work, ns.reverse ++ values⟩) := by
  induction args generalizing fuel values with
  | nil => exact ⟨.ok [], .nil, fuel, hl, h⟩
  | cons arg args iha =>
    obtain ⟨first, he, hr⟩ := ih fuel hl env arg _ values outcome ho h
    cases first with
    | error fault => exact ⟨.error fault, .headFault he, hr⟩
    | ok n =>
      obtain ⟨left, hlt, hn⟩ := hr
      obtain ⟨rest, hes, hrs⟩ := iha (n :: values) (Nat.lt_trans hlt hl) hn
      cases rest with
      | error fault => exact ⟨.error fault, .tailFault he hes, hrs⟩
      | ok ns =>
        refine ⟨.ok (n :: ns), .cons he hes, ?_⟩
        simpa only [Except.map, List.reverse_cons, List.append_assoc, List.singleton_append]
          using hrs

theorem follows_var (fuel : Nat) (env : Values) (name : String) (work : List Frame)
    (values : List Nat) {outcome : Outcome} (ho : outcome ≠ .unfinished)
    (h : run mode functions fuel ⟨.eval (.var name) env :: work, values⟩ = outcome) :
    ∃ result, Evaluates mode functions env (.var name) result ∧
      Resumes mode functions fuel outcome (result.map fun n => ⟨work, n :: values⟩) := by
  cases hx : env.get? name with
  | some n => exact ⟨.ok n, .bound hx, run_of_next ho h (step_var_of_some hx work values)⟩
  | none =>
    cases mode with
    | lenient =>
      exact ⟨.ok 0, .unboundZero rfl hx,
        run_of_next ho h (by simp [step, eval, Values.lookup, hx])⟩
    | strict =>
      exact ⟨.error (.unbound name), .unbound rfl hx,
        run_of_fault ho h (by simp [step, eval, Values.lookup, hx])⟩

theorem follows_cond {fuel : Nat} (ih : ∀ k < fuel, Follows mode functions k) (env : Values)
    (left right yes no : Term) (work : List Frame) (values : List Nat) {outcome : Outcome}
    (ho : outcome ≠ .unfinished)
    (h : run mode functions fuel ⟨.eval (.cond left right yes no) env :: work, values⟩ = outcome) :
    ∃ result, Evaluates mode functions env (.cond left right yes no) result ∧
      Resumes mode functions fuel outcome (result.map fun n => ⟨work, n :: values⟩) := by
  obtain ⟨a, ha, h⟩ := run_of_next ho h rfl
  obtain ⟨m | m, hm, hr⟩ := ih a ha env left _ values outcome ho h
  · exact ⟨.error m, .leftFault hm, hr⟩
  obtain ⟨b, hb, h⟩ := hr
  have hbf : b < fuel := Nat.lt_trans hb ha
  obtain ⟨n | n, hn, hr⟩ := ih b hbf env right _ (m :: values) outcome ho h
  · exact ⟨.error n, .rightFault hm hn, hr⟩
  obtain ⟨c, hc, h⟩ := hr
  obtain ⟨d, hd, h⟩ := run_of_next ho h rfl
  have hdf : d < fuel := by omega
  obtain ⟨result, he, hr⟩ := ih d hdf env _ work values outcome ho h
  have hw : Resumes mode functions fuel outcome (result.map fun n => ⟨work, n :: values⟩) :=
    hr.weaken (Nat.le_of_lt hdf)
  by_cases hmn : m = n
  · subst hmn
    rw [if_pos rfl] at he
    exact ⟨result, .equal hm hn he, hw⟩
  · rw [if_neg hmn] at he
    exact ⟨result, .unequal hm hn hmn he, hw⟩

theorem follows_call {fuel : Nat} (ih : ∀ k < fuel, Follows mode functions k) (env : Values)
    (callee : String) (args : List Term) (work : List Frame) (values : List Nat) {outcome : Outcome}
    (ho : outcome ≠ .unfinished)
    (h : run mode functions fuel ⟨.eval (.call callee args) env :: work, values⟩ = outcome) :
    ∃ result, Evaluates mode functions env (.call callee args) result ∧
      Resumes mode functions fuel outcome (result.map fun n => ⟨work, n :: values⟩) := by
  cases hf : functions.get? callee with
  | none =>
    cases mode with
    | lenient =>
      exact ⟨.ok 0, .unknownZero rfl hf,
        run_of_next ho h (by simp [step, eval, Functions.lookup, hf])⟩
    | strict =>
      exact ⟨.error (.unknownFunction callee), .unknown rfl hf,
        run_of_fault ho h (by simp [step, eval, Functions.lookup, hf])⟩
  | some f =>
    by_cases hm : mode = .strict → args.length = f.params.length
    · obtain ⟨a, ha, h⟩ := run_of_next ho h (step_call_of_some hf hm env work values)
      obtain ⟨fault | ns, hs, hr⟩ := follows_args ih env _ _ values ho ha h
      · exact ⟨.error fault, .argFault hf hm hs, hr⟩
      obtain ⟨b, hb, h⟩ := hr
      rw [hs.length_eq] at h
      obtain ⟨c, hc, h⟩ := run_of_next ho h (step_apply f ns work values)
      obtain ⟨result, he, hr⟩ := ih c (Nat.lt_trans hc hb) _ f.body work values outcome ho h
      exact ⟨result, .call hf hm hs he, hr.weaken (by omega)⟩
    · obtain ⟨rfl, hne⟩ := Classical.not_imp.mp hm
      exact ⟨.error (.arity (some callee) f.params.length args.length), .arity rfl hf hne,
        run_of_fault ho h (by
          simp [step, eval, Functions.lookup, hf, Lambda.refuses, Lambda.arity, hne])⟩

/-- A run that ends from a term passes the result of the term. -/
theorem follows (mode : Mode) (functions : Functions) (fuel : Nat) :
    Follows mode functions fuel := by
  induction fuel using Nat.strongRecOn with
  | ind fuel ih =>
    intro env t work values outcome ho h
    cases t with
    | zero => exact ⟨.ok 0, .zero, run_of_next ho h rfl⟩
    | succ arg =>
      obtain ⟨a, ha, h⟩ := run_of_next ho h rfl
      obtain ⟨fault | n, hn, hr⟩ := ih a ha env arg _ values outcome ho h
      · exact ⟨.error fault, .succFault hn, hr⟩
      obtain ⟨b, hb, h⟩ := hr
      obtain ⟨c, hc, h⟩ := run_of_next ho h rfl
      exact ⟨.ok (n + 1), .succ hn, c, by omega, h⟩
    | var name => exact follows_var fuel env name work values ho h
    | call callee args => exact follows_call ih env callee args work values ho h
    | cond left right yes no => exact follows_cond ih env left right yes no work values ho h
    | equation left right =>
      exact ⟨.error (.notTerm (.equation left right)), .equation, run_of_fault ho h rfl⟩
    | text content => exact ⟨.error (.notTerm (.text content)), .text, run_of_fault ho h rfl⟩

/-- The outcome of a run that has found a result. -/
def Outcome.ofResult : Except Fault Nat → Outcome
  | .ok n => .value n
  | .error f => .fault f

theorem Outcome.ofResult_ne_unfinished (result : Except Fault Nat) :
    ofResult result ≠ .unfinished := by
  cases result <;> simp [ofResult]

theorem Outcome.ofResult_injective {r r' : Except Fault Nat} (h : ofResult r = ofResult r') :
    r = r' := by
  cases r <;> cases r' <;> simp_all [ofResult]

end Machine

open Machine

variable {mode : Mode} {functions : Functions} {env : Values} {t : Term}

/-- A run that starts with a term alone ends with its result and in no other way. -/
theorem evaluates_of_evaluate {fuel : Nat}
    (h : evaluate fuel mode t env functions ≠ .unfinished) :
    ∃ result, Evaluates mode functions env t result ∧
      evaluate fuel mode t env functions = .ofResult result := by
  obtain ⟨fault | n, he, hr⟩ := follows mode functions fuel env t [] [] _ h rfl
  · exact ⟨.error fault, he, hr⟩
  · obtain ⟨left, _, hl⟩ := hr
    cases left with
    | zero => exact absurd hl.symm h
    | succ left => exact ⟨.ok n, he, hl.symm⟩

theorem exists_evaluate_of_evaluates {result : Except Fault Nat}
    (h : Evaluates mode functions env t result) :
    ∃ fuel, evaluate fuel mode t env functions = .ofResult result := by
  have hl := leads_of_evaluates h [] []
  cases result with
  | ok n =>
    obtain ⟨moves, hm⟩ := Reaches.run_eq hl
    exact ⟨moves + 1, hm 1⟩
  | error fault =>
    obtain ⟨c, hc, hs⟩ := hl
    obtain ⟨moves, hm⟩ := hc.run_eq
    refine ⟨moves + 1, (hm 1).trans ?_⟩
    simp [run, hs, Outcome.ofResult]

/-- A term has at most one result. -/
theorem Evaluates.unique {r r' : Except Fault Nat} (h : Evaluates mode functions env t r)
    (h' : Evaluates mode functions env t r') : r = r' := by
  obtain ⟨fuel, hf⟩ := exists_evaluate_of_evaluates h
  obtain ⟨fuel', hf'⟩ := exists_evaluate_of_evaluates h'
  have ho := Outcome.ofResult_ne_unfinished r
  have ho' := Outcome.ofResult_ne_unfinished r'
  rw [← hf] at ho
  rw [← hf'] at ho'
  apply Outcome.ofResult_injective
  rw [← hf, ← hf']
  exact run_unique ho ho'

theorem exists_evaluate_iff (result : Except Fault Nat) :
    (∃ fuel, evaluate fuel mode t env functions = .ofResult result) ↔
      Evaluates mode functions env t result := by
  constructor
  · rintro ⟨fuel, hf⟩
    obtain ⟨found, he, hr⟩ :=
      evaluates_of_evaluate (hf ▸ Outcome.ofResult_ne_unfinished result)
    rw [Outcome.ofResult_injective (hf.symm.trans hr)]
    exact he
  · exact exists_evaluate_of_evaluates

/-- A run goes on forever exactly when the rules give the term no result. -/
theorem evaluate_unfinished_iff :
    (∀ fuel, evaluate fuel mode t env functions = .unfinished) ↔
      ∀ result, ¬Evaluates mode functions env t result := by
  constructor
  · intro h result he
    obtain ⟨fuel, hf⟩ := exists_evaluate_of_evaluates he
    exact Outcome.ofResult_ne_unfinished result (hf.symm.trans (h fuel))
  · intro h fuel
    by_contra hf
    obtain ⟨result, he, -⟩ := evaluates_of_evaluate hf
    exact h result he

/-- If no rule gives a fault, a run has found a value whenever it has ended. -/
theorem evaluate_value_or_unfinished
    (h : ∀ result, Evaluates mode functions env t result → ∃ n, result = .ok n) (fuel : Nat) :
    (∃ n, evaluate fuel mode t env functions = .value n) ∨
      evaluate fuel mode t env functions = .unfinished := by
  by_cases hf : evaluate fuel mode t env functions = .unfinished
  · exact .inr hf
  · obtain ⟨result, he, hr⟩ := evaluates_of_evaluate hf
    obtain ⟨n, rfl⟩ := h result he
    exact .inl ⟨n, hr⟩

/-- A run never finds too few numbers. -/
theorem evaluate_ne_stuck (fuel : Nat) : evaluate fuel mode t env functions ≠ .stuck := by
  intro hs
  have hf : evaluate fuel mode t env functions ≠ .unfinished := by simp [hs]
  obtain ⟨result, -, hr⟩ := evaluates_of_evaluate hf
  rw [hs] at hr
  cases result <;> cases hr

/-- A call whose arguments have values goes on as the body by itself, with those values for its parameters. -/
theorem exists_evaluate_body {callee : String} {f : Lambda} {args : List Term} {ns : List Nat}
    (hf : functions.get? callee = some f) (hm : mode = .strict → args.length = f.params.length)
    (hargs : EvaluatesAll mode functions env (args.take f.params.length) (.ok ns)) :
    ∃ moves, ∀ fuel, evaluate (moves + fuel) mode (.call callee args) env functions =
      evaluate fuel mode f.body (f.bind ns) functions := by
  have hcall := step_call_of_some hf hm env [] []
  have hleads := leads_of_evaluatesAll hargs
    [.apply f (args.take f.params.length).length] []
  rw [hargs.length_eq] at hcall hleads
  have hreach := Reaches.head hcall (hleads.trans (.head (step_apply f ns [] []) (.refl _)))
  rw [← Lambda.bind_eq] at hreach
  exact hreach.run_eq

/-- The machine computes what the rules say: it halts with a value or with a fault exactly when they
derive it, and it never halts exactly when they derive nothing. They derive at most one result, and the
machine ends in no other way. -/
theorem evaluate_exact (mode : Mode) (functions : Functions) (env : Values) (t : Term) :
    (∀ n, (∃ fuel, evaluate fuel mode t env functions = .value n) ↔
      Evaluates mode functions env t (.ok n)) ∧
    (∀ fault, (∃ fuel, evaluate fuel mode t env functions = .fault fault) ↔
      Evaluates mode functions env t (.error fault)) ∧
    ((∀ fuel, evaluate fuel mode t env functions = .unfinished) ↔
      ∀ result, ¬Evaluates mode functions env t result) ∧
    (∀ fuel, evaluate fuel mode t env functions ≠ .stuck) ∧
    (∀ result result', Evaluates mode functions env t result →
      Evaluates mode functions env t result' → result = result') := by
  refine ⟨?_, ?_, evaluate_unfinished_iff, evaluate_ne_stuck, ?_⟩
  · intro n
    exact exists_evaluate_iff (.ok n)
  · intro fault
    exact exists_evaluate_iff (.error fault)
  · intro result result' h h'
    exact h.unique h'

/-- A call without parameters, a parameter that is repeated, a surplus argument and calls inside calls. In
strict mode the first of them already has a fault. -/
theorem evaluate_exact_nested_calls :
    let functions : Functions := ⟨[("f", ⟨["x", "x"], .succ (.var "x")⟩), ("k", ⟨[], .zero⟩)]⟩
    let env : Values := ⟨[("y", 3)]⟩
    let t : Term := .cond (.call "k" [.var "y"]) .zero
      (.call "f" [.call "g" [], .call "f" [.zero, .var "y"], .var "y"]) .zero
    Evaluates .lenient functions env t (.ok 5) ∧
      Evaluates .strict functions env t (.error (.arity (some "k") 0 1)) := by
  intro functions env t
  constructor
  · exact ((evaluate_exact .lenient functions env t).1 5).mp ⟨30, by decide +kernel⟩
  · exact ((evaluate_exact .strict functions env t).2.1 _).mp ⟨30, by decide +kernel⟩

end Unary
