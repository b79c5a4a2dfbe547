import Unary.Proofs.Arithmetic

/-!
The search of the standard prelude, and where it never ends.

A run that comes back to an invariant again and again, with a move in between, never ends. The search of
`predIt` from `p` for the number before `x` goes upwards from `p`. If `x` is not above `p` every turn of it
leads to the next one, and otherwise it stops just below `x`.
-/

namespace Unary

namespace Machine

/-- One move, or more, lead from one configuration to the other. -/
def Advances (mode : Mode) (functions : Functions) : Config → Config → Prop :=
  Relation.TransGen fun c c' => step mode functions c = .next c'

variable {mode : Mode} {functions : Functions} {c c' : Config}

theorem Reaches.advances {first : Config} (h : Reaches mode functions first c')
    (hs : step mode functions c = .next first) : Advances mode functions c c' :=
  Relation.TransGen.head' hs h

/-- A run that ends passes every configuration on its way, and has less fuel left there. -/
theorem Advances.exists_run (h : Advances mode functions c c') {fuel : Nat} {outcome : Outcome}
    (ho : outcome ≠ .unfinished) (hr : run mode functions fuel c = outcome) :
    ∃ left < fuel, run mode functions left c' = outcome := by
  induction h using Relation.TransGen.head_induction_on generalizing fuel with
  | single hs => exact run_of_next ho hr hs
  | head hs _ ih =>
    obtain ⟨rest, hlt, hrest⟩ := run_of_next ho hr hs
    obtain ⟨left, hleft, hrun⟩ := ih hrest
    exact ⟨left, Nat.lt_trans hleft hlt, hrun⟩

/-- If an invariant is met again and again on the way, no amount of fuel is enough. -/
theorem run_unfinished_of_invariant {P : Config → Prop}
    (hturn : ∀ c, P c → ∃ c', Advances mode functions c c' ∧ P c') (hc : P c) (fuel : Nat) :
    run mode functions fuel c = .unfinished := by
  induction fuel using Nat.strongRecOn generalizing c with
  | ind fuel ih =>
    by_contra ho
    obtain ⟨c', hadvances, hc'⟩ := hturn c hc
    obtain ⟨left, hlt, hrun⟩ := hadvances.exists_run ho rfl
    exact ho (hrun.symm.trans (ih left hlt hc'))

/-- A run that never ends has work left and a move to make, wherever it has come to. -/
theorem work_ne_nil_of_unfinished (h : ∀ fuel, run mode functions fuel c = .unfinished)
    (hr : Reaches mode functions c c') :
    c'.work ≠ [] ∧ ∃ next, step mode functions c' = .next next := by
  obtain ⟨moves, hm⟩ := hr.run_eq
  have hlast : run mode functions 1 c' = .unfinished := (hm 1).symm.trans (h _)
  cases hs : step mode functions c' with
  | next next =>
    refine ⟨fun hwork => ?_, next, rfl⟩
    obtain ⟨work, values⟩ := c'
    cases hwork
    cases values <;> cases hs
  | _ => simp [run, hs] at hlast

end Machine

namespace Prelude

open Machine

/-- How an evaluation ends that searches from `p` for the number before `x`: with that number if it is not
below `p`, and otherwise not at all. Then there is work left all the time. -/
structure Searches (mode : Mode) (functions : Functions) (env : Values) (t : Term) (p x : Nat) : Prop where
  ends_iff : (∃ fuel, evaluate fuel mode t env functions ≠ .unfinished) ↔ p < x
  finds : p < x → ∃ least, ∀ fuel ≥ least, evaluate fuel mode t env functions = .value (x - 1)
  forever : x ≤ p → ∀ c, Reaches mode functions ⟨[.eval t env], []⟩ c →
    c.work ≠ [] ∧ ∃ next, step mode functions c = .next next

/-- It is enough that the rules give the number, or that no fuel is enough. -/
theorem Searches.of_outcomes {mode : Mode} {functions : Functions} {env : Values} {t : Term} {p x : Nat}
    (hfinds : p < x → Evaluates mode functions env t (.ok (x - 1)))
    (hforever : x ≤ p → ∀ fuel, evaluate fuel mode t env functions = .unfinished) :
    Searches mode functions env t p x := by
  refine ⟨⟨?_, ?_⟩, fun hlt => (hfinds hlt).exists_least, fun hle c => ?_⟩
  · rintro ⟨fuel, hne⟩
    by_contra hlt
    exact hne (hforever (Nat.le_of_not_lt hlt) fuel)
  · intro hlt
    obtain ⟨least, hl⟩ := (hfinds hlt).exists_least
    exact ⟨least, by simp [hl least (Nat.le_refl least)]⟩
  · exact work_ne_nil_of_unfinished (hforever hle)

/-- What the search sees on its way. -/
def searchValues (p x : Nat) : Values :=
  bindParams .empty predItFunction.params [p, x]

section Turns

variable {mode : Mode} {functions : Functions} (hf : functions.get? "predIt" = some predItFunction)
include hf

/-- One turn of the search: if `x` is not just above `p`, it goes on from `p + 1`. -/
theorem advances_search {p x : Nat} (hne : p + 1 ≠ x) (work : List Frame) (values : List Nat) :
    Advances mode functions ⟨.eval predItFunction.body (searchValues p x) :: work, values⟩
      ⟨.eval predItFunction.body (searchValues (p + 1) x) :: work, values⟩ := by
  obtain ⟨hp, hx⟩ := evaluates_params mode functions (by decide : "p" ≠ "x") p x
  have hargs : EvaluatesAll mode functions (searchValues p x) [.succ (.var "p"), .var "x"]
      (.ok [p + 1, x]) := .cons (.succ hp) (.cons hx .nil)
  have hbranch : step mode functions ⟨.branch (.var "p") (.call "predIt" [.succ (.var "p"), .var "x"])
      (searchValues p x) :: work, x :: (p + 1) :: values⟩ =
      .next ⟨.eval (.call "predIt" [.succ (.var "p"), .var "x"]) (searchValues p x) :: work, values⟩ := by
    simp [step, hne]
  -- The operands come first, then the branch is chosen, and then the arguments of the call.
  refine Reaches.advances ?_ rfl
  refine (leads_of_evaluates (.succ hp) _ values).trans ?_
  refine (leads_of_evaluates hx _ _).trans (.head hbranch ?_)
  refine .head (step_call_of_some hf (fun _ => rfl) (searchValues p x) work values) ?_
  refine (leads_of_evaluatesAll hargs _ values).trans ?_
  exact .head (step_apply predItFunction [p + 1, x] work values) (.refl _)

/-- From `x` upwards the search never meets the number before `x`. -/
theorem search_unfinished {p x : Nat} (hle : x ≤ p) (fuel : Nat) :
    evaluate fuel mode predItFunction.body (searchValues p x) functions = .unfinished := by
  let Beyond (c : Config) : Prop := ∃ p, x ≤ p ∧ c = ⟨[.eval predItFunction.body (searchValues p x)], []⟩
  have hturn : ∀ c, Beyond c → ∃ c', Advances mode functions c c' ∧ Beyond c' := by
    rintro c ⟨p, hle, rfl⟩
    exact ⟨_, advances_search hf (by omega) [] [], p + 1, by omega, rfl⟩
  exact run_unfinished_of_invariant hturn ⟨p, hle, rfl⟩ fuel

theorem searches_body (p x : Nat) :
    Searches mode functions (searchValues p x) predItFunction.body p x := by
  refine .of_outcomes (fun hlt => ?_) (search_unfinished hf)
  obtain ⟨d, rfl⟩ := Nat.exists_eq_add_of_lt hlt
  exact returns_predIt hf d p

theorem searches_call {env : Values} {terms : List Term} {p x : Nat}
    (hargs : EvaluatesAll mode functions env terms (.ok [p, x])) :
    Searches mode functions env (.call "predIt" terms) p x := by
  have hlength : terms.length = predItFunction.params.length := hargs.length_eq
  have htake : terms.take predItFunction.params.length = terms :=
    List.take_of_length_le (Nat.le_of_eq hlength)
  refine .of_outcomes (fun hlt => ?_) fun hle fuel => ?_
  · obtain ⟨d, rfl⟩ := Nat.exists_eq_add_of_lt hlt
    exact (returns_predIt hf d p).call hf rfl hargs
  · obtain ⟨moves, hm⟩ := exists_evaluate_body hf (fun _ => hlength) (htake.symm ▸ hargs)
    by_contra hne
    have hlate := hm fuel
    rw [evaluate_mono (Nat.le_add_left fuel moves) hne, Lambda.bind_eq] at hlate
    exact hne (hlate.trans (search_unfinished hf hle fuel))

end Turns

/-- Where the search of the standard prelude ends. In every table in which `predIt` has the function that the
text of the prelude is lowered to, and in either mode, a call of it with the numbers `p` and `x` ends exactly
if `p` is below `x`, and then with the number before `x`. If it is not, the machine makes moves forever and
always has work left. The same holds of a call from outside. -/
theorem predIt_searches :
    ∃ script program f, Script.parse none standard = .ok script ∧
      (∀ fuel mode, Program.ofScript fuel mode script = .ok program) ∧
      program.functions.get? "predIt" = some f ∧
      ∀ functions : Functions, functions.get? "predIt" = some f → ∀ (mode : Mode) (p x : Nat),
        (∀ env terms, EvaluatesAll mode functions env terms (.ok [p, x]) →
          Searches mode functions env (.call "predIt" terms) p x) ∧
        (∀ fuel, f.apply fuel mode [p, x] functions =
          evaluate fuel mode f.body (f.bind [p, x]) functions) ∧
        Searches mode functions (f.bind [p, x]) f.body p x := by
  refine ⟨standardScript, _, predItFunction, parse_standard, ofScript_standardScript, rfl, ?_⟩
  intro functions hf mode p x
  refine ⟨fun env terms hargs => searches_call hf hargs, fun fuel => ?_, ?_⟩
  · have hr : predItFunction.refuses mode [p, x].length = false := by cases mode <;> rfl
    rw [Lambda.apply, hr]
    rfl
  · rw [Lambda.bind_eq]
    exact searches_body hf p x

/-- A table with no other function of the prelude in it. The search for the number before three ends if it
starts at one, and never if it starts at three. -/
theorem predIt_searches_three :
    let functions : Functions := ⟨[("pred", ⟨["x"], .call "pred" [.var "x"]⟩), ("predIt", predItFunction)]⟩
    let env : Values := ⟨[("x", 3)]⟩
    (∃ fuel, evaluate fuel .strict (.call "predIt" [.succ .zero, .var "x"]) env functions = .value 2) ∧
      ∀ c, Reaches .strict functions ⟨[.eval (.call "predIt" [.var "x", .var "x"]) env], []⟩ c →
        c.work ≠ [] := by
  intro functions env
  obtain ⟨script, program, f, hs, hp, hget, h⟩ := predIt_searches
  rw [parse_standard] at hs
  cases hs
  have hprogram := (ofScript_standardScript ⟨none, 0⟩ .strict).symm.trans (hp ⟨none, 0⟩ .strict)
  cases hprogram
  cases hget
  have hx : Evaluates .strict functions env (.var "x") (.ok 3) := .bound rfl
  have hone : Evaluates .strict functions env (.succ .zero) (.ok 1) := .succ .zero
  constructor
  · have hsearch := (h functions rfl .strict 1 3).1 env _ (.cons hone (.cons hx .nil))
    obtain ⟨least, hl⟩ := hsearch.finds (by decide)
    exact ⟨least, hl least (Nat.le_refl least)⟩
  · intro c hr
    exact (((h functions rfl .strict 3 3).1 env _ (.cons hx (.cons hx .nil))).forever (by decide) c hr).1

end Prelude

end Unary
