import Unary.Proofs.Balance
import Unary.Proofs.Limits
import Unary.Proofs.ProgramText

/-!
What a program can fail with that was read from a text.

All of it can be lowered, and its evaluation ends with a value or a fault of strict mode, or is not over. None of
these failures shows a term, so a limit on nesting makes no difference after reading.
-/

namespace Unary

/-- What an evaluation can fail with: a fault of strict mode, or that it is not over. -/
def Failure.isEvaluation : Failure → Bool
  | .eval fault => fault.isRejection
  | .unfinished => true
  | _ => false

/-- Whether a computation can only fail as an evaluation does. -/
def FailsAsEvaluation {α : Type} (x : Except Failure α) : Prop :=
  ∀ failure, x = .error failure → failure.isEvaluation = true

namespace FailsAsEvaluation

variable {α β : Type} {x : Except Failure α}

theorem ok (a : α) : FailsAsEvaluation (.ok a) := by
  intro failure h
  cases h

theorem bind (hx : FailsAsEvaluation x) {f : α → Except Failure β}
    (hf : ∀ a, FailsAsEvaluation (f a)) : FailsAsEvaluation (x >>= f) := by
  intro failure h
  rcases bind_eq_error_iff.mp h with h | ⟨a, -, h⟩
  · exact hx failure h
  · exact hf a failure h

theorem map (hx : FailsAsEvaluation x) (f : α → β) : FailsAsEvaluation (f <$> x) := by
  intro failure h
  exact hx failure (map_eq_error_iff.mp h)

/-- What fails so under a limit does the same under a wider one. -/
theorem eq_of_widened (hx : FailsAsEvaluation x) {y : Except Failure α} (h : Widened .tooDeep x y) :
    y = x := by
  refine h.eq fun hdeep => ?_
  have hfails := hx _ hdeep
  cases hfails

end FailsAsEvaluation

theorem wider_none (limit : Option Nat) : Wider limit none := by
  intro depth h
  cases h

section Evaluations

variable (bounds : Bounds) (mode : Mode) {functions : Functions}

theorem failsAsEvaluation_evaluate (limit : Option Nat) (fuel : Nat) (hf : functions.wellFormed = true)
    {t : Term} (ht : t.wellFormed = true) (env : Values) :
    FailsAsEvaluation ((evaluate fuel mode t env functions).toExcept limit) := by
  intro failure h
  rcases evaluate_of_wellFormed hf ht env fuel with ⟨n, hn⟩ | hu | ⟨fault, hfault, -, hr⟩
  · rw [hn] at h
    cases h
  · rw [hu] at h
    cases h
    rfl
  · rw [hfault] at h
    cases h
    cases fault with
    | notTerm node => cases hr
    | _ => rfl

/-- A term that was read is evaluated with the same outcome under every limit. -/
theorem evaluate_limit (limit limit' : Option Nat) (fuel : Nat) (hf : functions.wellFormed = true)
    {t : Term} (ht : t.wellFormed = true) (env : Values) :
    (evaluate fuel mode t env functions).toExcept limit =
      (evaluate fuel mode t env functions).toExcept limit' := by
  have hnone (limit : Option Nat) : (evaluate fuel mode t env functions).toExcept none =
      (evaluate fuel mode t env functions).toExcept limit :=
    (failsAsEvaluation_evaluate mode limit fuel hf ht env).eq_of_widened
      (Program.widened_toExcept (wider_none limit) _)
  rw [← hnone limit, ← hnone limit']

namespace Program

theorem wellFormed_functions {defs : List Definition} (hds : defs.all Definition.wellFormed = true) :
    Functions.wellFormed (.ofList (defs.filterMap Definition.function?)) = true :=
  wellFormed_functions_of_bodies fun d hd =>
    d.body.wellFormed_toTerm (d.wellFormed_body (List.all_eq_true.mp hds d hd))

theorem failsAsEvaluation_lowerValues (hf : functions.wellFormed = true) {defs : List Definition}
    (hds : defs.all Definition.wellFormed = true) (values : Values) :
    FailsAsEvaluation (lowerValues bounds mode functions values defs) := by
  induction defs generalizing values with
  | nil => exact .ok values
  | cons d defs ih =>
    rw [List.all_cons, Bool.and_eq_true] at hds
    cases d with
    | function name params body => exact ih hds.2 values
    | value name body =>
      have hbody := (Definition.wellFormed_value_iff.mp hds.1).2
      have heval := failsAsEvaluation_evaluate mode bounds.depth bounds.fuel hf
        (body.wellFormed_toTerm hbody) values
      rw [lowerValues, lowerExpr_eq _ hbody]
      exact heval.bind fun n => ih hds.2 _

/-- What was read fails to become a program only in the values of its definitions. -/
theorem failsAsEvaluation_ofScript {script : Script} (hs : script.wellFormed = true) :
    FailsAsEvaluation (ofScript bounds mode script) := by
  obtain ⟨hds, hr⟩ := Script.wellFormed_iff.mp hs
  rw [ofScript, lowerFunctions_eq _ hds, lowerResult_eq _ hr]
  exact (failsAsEvaluation_lowerValues _ mode (wellFormed_functions hds) hds .empty).bind fun values =>
    .ok _

theorem Faithful.failsAsEvaluation_run {program : Program} (h : program.Faithful) :
    FailsAsEvaluation (program.run bounds mode) := by
  have hterms := (Term.allWellFormed_iff _).mp h.allWellFormed_terms
  have hf : program.functions.wellFormed = true := List.all_eq_true.mpr fun entry he =>
    hterms entry.2.body (List.mem_append_left _ (List.mem_map_of_mem he))
  rw [run]
  split
  next => exact .ok none
  next t hresult =>
    have ht : t.wellFormed = true :=
      hterms t (List.mem_append_right _ (Option.mem_toList.mpr hresult))
    exact (failsAsEvaluation_evaluate mode bounds.depth bounds.fuel hf ht program.values).map some

/-- A program that was made from a script runs the same under every limit. -/
theorem Faithful.run_limit {program : Program} (h : program.Faithful) (limit : Option Nat) (fuel : Nat) :
    program.run ⟨limit, fuel⟩ mode = program.run ⟨none, fuel⟩ mode :=
  ((h.failsAsEvaluation_run _ mode).eq_of_widened
    (widened_run (wider_none limit) fuel mode program)).symm

end Program

end Evaluations

end Unary
