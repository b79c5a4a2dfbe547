import Unary.Proofs.Lowering
import Unary.Proofs.Machine
import Unary.Proofs.Tables

/-!
Programs made from scripts.

The functions of a script are the table of its definitions, whatever the bounds. Its values take fuel, and
once there is enough of it more makes no difference. A limit on nesting decides only what a failure is called:
what succeeds under one limit succeeds under every other. What a script comes to depends on its final
expression in the final term alone.
-/

namespace Unary

section Results

variable {ε ε' α β : Type}

theorem bind_eq_ok_iff {x : Except ε α} {f : α → Except ε β} {b : β} :
    (x >>= f) = .ok b ↔ ∃ a, x = .ok a ∧ f a = .ok b := by
  cases x <;> simp [bind, Except.bind]

theorem map_eq_ok_iff {x : Except ε α} {f : α → β} {b : β} :
    f <$> x = .ok b ↔ ∃ a, x = .ok a ∧ f a = b := by
  cases x <;> simp [Functor.map, Except.map]

theorem mapError_eq_ok_iff {x : Except ε α} {f : ε → ε'} {a : α} :
    x.mapError f = .ok a ↔ x = .ok a := by
  cases x <;> simp [Except.mapError]

theorem bind_eq_error_iff {x : Except ε α} {f : α → Except ε β} {e : ε} :
    (x >>= f) = .error e ↔ x = .error e ∨ ∃ a, x = .ok a ∧ f a = .error e := by
  cases x <;> simp [bind, Except.bind]

theorem map_eq_error_iff {x : Except ε α} {f : α → β} {e : ε} :
    f <$> x = .error e ↔ x = .error e := by
  cases x <;> simp [Functor.map, Except.map]

theorem mapError_eq_error_iff {x : Except ε α} {f : ε → ε'} {e : ε'} :
    x.mapError f = .error e ↔ ∃ cause, x = .error cause ∧ f cause = e := by
  cases x <;> simp [Except.mapError]

end Results

theorem evaluate_mono {fuel fuel' : Nat} {mode : Mode} {t : Term} {env : Values}
    {functions : Functions} (hle : fuel ≤ fuel')
    (h : evaluate fuel mode t env functions ≠ .unfinished) :
    evaluate fuel' mode t env functions = evaluate fuel mode t env functions := by
  obtain ⟨extra, rfl⟩ := Nat.exists_eq_add_of_le hle
  exact Machine.run_add h extra

/-- A term that the rules give a value has it with every amount of fuel from some amount on. -/
theorem Evaluates.exists_least {mode : Mode} {functions : Functions} {env : Values} {t : Term}
    {n : Nat} (h : Evaluates mode functions env t (.ok n)) :
    ∃ least, ∀ fuel ≥ least, evaluate fuel mode t env functions = .value n := by
  obtain ⟨least, hl⟩ := exists_evaluate_of_evaluates h
  have hne : evaluate least mode t env functions ≠ .unfinished := by simp [hl, Machine.Outcome.ofResult]
  refine ⟨least, fun fuel hle => ?_⟩
  rw [evaluate_mono hle hne, hl]
  rfl

/-- The entry that a definition makes in the table of functions. -/
def Definition.function? : Definition → Option (String × Lambda)
  | .value _ _ => none
  | .function name params body => some (name, ⟨params, body.toTerm⟩)

namespace Machine.Outcome

theorem toExcept_eq_ok_iff {limit : Option Nat} {outcome : Outcome} {n : Nat} :
    outcome.toExcept limit = .ok n ↔ outcome = .value n := by
  cases outcome <;> simp [toExcept]

theorem toExcept_eq_unfinished_iff {limit : Option Nat} {outcome : Outcome} :
    outcome.toExcept limit = .error .unfinished ↔ outcome = .unfinished := by
  cases outcome with
  | fault cause =>
    cases cause with
    | notTerm node =>
      simp only [toExcept, Failure.ofFault, Except.error.injEq, reduceCtorEq, iff_false]
      split <;> simp
    | _ => simp [toExcept, Failure.ofFault]
  | _ => simp [toExcept]

end Machine.Outcome

/-- A limit decides nothing for what can be lowered. -/
theorem Lowering.run_of_run {limit : Option Nat} {work : List Task} {done : List Term} {t : Term}
    (h : run limit work done = .ok t) (limit' : Option Nat) : run limit' work done = .ok t := by
  fun_induction run limit work done with
  | case12 f count work done args hlen ih =>
    rw [run, if_pos hlen]
    exact ih h
  | _ => simp_all [run]

namespace Program

variable (limit : Option Nat)

theorem lowerExpr_toTerm {e : Expr} (he : e.toTerm.wellFormed = true) :
    lowerExpr limit e = .ok e.toTerm := by
  rw [lowerExpr, e.lower_eq limit he]
  rfl

theorem lowerExpr_eq {e : Expr} (he : e.wellFormed = true) : lowerExpr limit e = .ok e.toTerm :=
  lowerExpr_toTerm limit (e.wellFormed_toTerm he)

theorem lowerExpr_of_lowerExpr {limit' : Option Nat} {e : Expr} {t : Term}
    (h : lowerExpr limit' e = .ok t) : lowerExpr limit e = .ok t :=
  mapError_eq_ok_iff.mpr (Lowering.run_of_run (mapError_eq_ok_iff.mp h) _)

theorem lowerFunctions_of_lowerFunctions {limit' : Option Nat} {functions functions' : Functions}
    {defs : List Definition} (h : lowerFunctions limit' functions defs = .ok functions') :
    lowerFunctions limit functions defs = .ok functions' := by
  induction defs generalizing functions with
  | nil => exact h
  | cons d defs ih =>
    cases d with
    | value name body => exact ih h
    | function name params body =>
      obtain ⟨t, ht, h⟩ := bind_eq_ok_iff.mp h
      exact bind_eq_ok_iff.mpr ⟨t, lowerExpr_of_lowerExpr limit ht, ih h⟩

theorem lowerResult_of_lowerResult {limit' : Option Nat} {result : Option Expr} {t : Option Term}
    (h : lowerResult limit' result = .ok t) : lowerResult limit result = .ok t := by
  cases result with
  | none => exact h
  | some e =>
    obtain ⟨t, ht, h⟩ := map_eq_ok_iff.mp h
    exact map_eq_ok_iff.mpr ⟨t, lowerExpr_of_lowerExpr limit ht, h⟩

theorem lowerFunctions_eq_foldl (functions : Functions) {defs : List Definition}
    (hds : ∀ d ∈ defs, d.body.toTerm.wellFormed = true) :
    lowerFunctions limit functions defs = .ok ((defs.filterMap Definition.function?).foldl
      (fun t entry => t.insert entry.1 entry.2) functions) := by
  induction defs generalizing functions with
  | nil => rfl
  | cons d defs ih =>
    obtain ⟨hd, hrest⟩ := List.forall_mem_cons.mp hds
    cases d with
    | value name body => exact ih functions hrest
    | function name params body =>
      have hbody : body.toTerm.wellFormed = true := hd
      rw [lowerFunctions, lowerExpr_toTerm limit hbody]
      exact ih _ hrest

/-- The functions of a script are those that its definitions make, a later one in the place of an
earlier one. -/
theorem lowerFunctions_eq {defs : List Definition} (hds : defs.all Definition.wellFormed = true) :
    lowerFunctions limit .empty defs = .ok (.ofList (defs.filterMap Definition.function?)) :=
  lowerFunctions_eq_foldl limit .empty fun d hd =>
    d.body.wellFormed_toTerm (d.wellFormed_body (List.all_eq_true.mp hds d hd))

theorem wellFormed_functions_of_bodies {defs : List Definition}
    (hds : ∀ d ∈ defs, d.body.toTerm.wellFormed = true) :
    Functions.wellFormed (.ofList (defs.filterMap Definition.function?)) = true := by
  rw [Functions.wellFormed, List.all_eq_true]
  intro entry hentry
  obtain ⟨d, hd, hfunction⟩ := List.mem_filterMap.mp (Table.mem_of_mem_ofList hentry)
  cases d with
  | value name body => cases hfunction
  | function name params body =>
    cases hfunction
    exact hds _ hd

theorem lowerResult_eq {result : Option Expr} (hr : result.all Expr.wellFormed = true) :
    lowerResult limit result = .ok (result.map Expr.toTerm) := by
  cases result with
  | none => rfl
  | some e =>
    rw [lowerResult, lowerExpr_eq limit hr]
    rfl

theorem lowerValues_mono {fuel fuel' : Nat} (hle : fuel ≤ fuel') (mode : Mode)
    (functions : Functions) (values : Values) (defs : List Definition)
    (h : lowerValues ⟨limit, fuel⟩ mode functions values defs ≠ .error .unfinished) :
    lowerValues ⟨limit, fuel'⟩ mode functions values defs =
      lowerValues ⟨limit, fuel⟩ mode functions values defs := by
  induction defs generalizing values with
  | nil => rfl
  | cons d defs ih =>
    cases d with
    | function name params body => exact ih values h
    | value name body =>
      rw [lowerValues] at h
      rw [lowerValues, lowerValues]
      cases hb : lowerExpr limit body with
      | error failure => rfl
      | ok t =>
        simp only [hb, bind, Except.bind] at h ⊢
        -- An evaluation that has not finished would be the outcome of the whole.
        have hf : evaluate fuel mode t values functions ≠ .unfinished := by
          intro hu
          rw [hu] at h
          exact h rfl
        rw [evaluate_mono hle hf]
        cases he : (evaluate fuel mode t values functions).toExcept limit with
        | error failure => rfl
        | ok n =>
          rw [he] at h
          exact ih _ h

theorem lowerValues_of_lowerValues {bounds bounds' : Bounds} {mode : Mode} {functions : Functions}
    {values values' : Values} {defs : List Definition}
    (h : lowerValues bounds mode functions values defs = .ok values') (hle : bounds.fuel ≤ bounds'.fuel) :
    lowerValues bounds' mode functions values defs = .ok values' := by
  induction defs generalizing values with
  | nil => exact h
  | cons d defs ih =>
    cases d with
    | function name params body => exact ih h
    | value name body =>
      obtain ⟨t, ht, h⟩ := bind_eq_ok_iff.mp h
      obtain ⟨n, hn, h⟩ := bind_eq_ok_iff.mp h
      have hvalue := Machine.Outcome.toExcept_eq_ok_iff.mp hn
      have hne : evaluate bounds.fuel mode t values functions ≠ .unfinished := by simp [hvalue]
      refine bind_eq_ok_iff.mpr ⟨t, lowerExpr_of_lowerExpr _ ht, bind_eq_ok_iff.mpr ⟨n, ?_, ih h⟩⟩
      rw [evaluate_mono hle hne, hvalue]
      rfl

theorem ofScript_eq_ok_iff {bounds : Bounds} {mode : Mode} {script : Script} {program : Program} :
    ofScript bounds mode script = .ok program ↔
      lowerFunctions none .empty script.definitions = .ok program.functions ∧
      lowerValues ⟨none, bounds.fuel⟩ mode program.functions .empty script.definitions = .ok program.values ∧
      lowerResult none script.result = .ok program.result := by
  constructor
  · intro h
    obtain ⟨functions, hf, h⟩ := bind_eq_ok_iff.mp h
    obtain ⟨values, hv, h⟩ := bind_eq_ok_iff.mp h
    obtain ⟨result, hr, h⟩ := bind_eq_ok_iff.mp h
    cases h
    exact ⟨lowerFunctions_of_lowerFunctions none hf, lowerValues_of_lowerValues hv (Nat.le_refl _),
      lowerResult_of_lowerResult none hr⟩
  · rintro ⟨hf, hv, hr⟩
    have hv' : lowerValues (bounds.inside 1) mode program.functions .empty script.definitions =
        .ok program.values := lowerValues_of_lowerValues hv (Nat.le_refl _)
    rw [ofScript, lowerFunctions_of_lowerFunctions _ hf]
    simp only [bind, Except.bind, hv', lowerResult_of_lowerResult _ hr]
    rfl

/-- The functions and the final term of a program are those of its script. -/
theorem of_ofScript {bounds : Bounds} {mode : Mode} {script : Script} {program : Program}
    (hs : script.wellFormed = true) (h : ofScript bounds mode script = .ok program) :
    program.functions = .ofList (script.definitions.filterMap Definition.function?) ∧
      program.result = script.result.map Expr.toTerm := by
  obtain ⟨hds, hr⟩ := Script.wellFormed_iff.mp hs
  obtain ⟨hf, -, hres⟩ := ofScript_eq_ok_iff.mp h
  rw [lowerFunctions_eq none hds] at hf
  rw [lowerResult_eq none hr] at hres
  exact ⟨(Except.ok.inj hf).symm, (Except.ok.inj hres).symm⟩

/-- What a script comes to, it comes to under every limit and with more fuel. -/
theorem ofScript_mono {bounds bounds' : Bounds} (hle : bounds.fuel ≤ bounds'.fuel) {mode : Mode}
    {script : Script} {program : Program} (h : ofScript bounds mode script = .ok program) :
    ofScript bounds' mode script = .ok program := by
  obtain ⟨hf, hv, hr⟩ := ofScript_eq_ok_iff.mp h
  exact ofScript_eq_ok_iff.mpr ⟨hf, lowerValues_of_lowerValues hv hle, hr⟩

/-- A script comes to at most one program in a mode. -/
theorem ofScript_unique {bounds bounds' : Bounds} {mode : Mode} {script : Script}
    {program program' : Program} (h : ofScript bounds mode script = .ok program)
    (h' : ofScript bounds' mode script = .ok program') : program = program' := by
  have hm : ofScript ⟨none, max bounds.fuel bounds'.fuel⟩ mode script = .ok program :=
    ofScript_mono (Nat.le_max_left _ _) h
  have hm' : ofScript ⟨none, max bounds.fuel bounds'.fuel⟩ mode script = .ok program' :=
    ofScript_mono (Nat.le_max_right _ _) h'
  rw [hm] at hm'
  exact Except.ok.inj hm'

theorem run_mono {bounds bounds' : Bounds} (hle : bounds.fuel ≤ bounds'.fuel) {mode : Mode}
    {program : Program} {value : Option Nat} (h : program.run bounds mode = .ok value) :
    program.run bounds' mode = .ok value := by
  obtain ⟨functions, values, result⟩ := program
  cases result with
  | none => exact h
  | some t =>
    obtain ⟨n, hn, h⟩ := map_eq_ok_iff.mp h
    have hvalue := Machine.Outcome.toExcept_eq_ok_iff.mp hn
    have hne : evaluate bounds.fuel mode t values functions ≠ .unfinished := by simp [hvalue]
    refine map_eq_ok_iff.mpr ⟨n, ?_, h⟩
    rw [evaluate_mono hle hne, hvalue]
    rfl

end Program

end Unary
