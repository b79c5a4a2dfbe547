import Unary.Proofs.Sessions

/-!
Computations with fuel, and how they end.

A computation is `Stable` when more fuel does not change how it ends. It then `Ends` in one way or is
`Endless`, and another stable one that `Trails` it ends when it does. The operations of a session are
stable.
-/

namespace Unary

section Fuel

variable {α β : Type}

/-- A computation ends in this way with every amount of fuel from some amount on. -/
def Ends (run : Nat → Except Failure α) (result : Except Failure α) : Prop :=
  result ≠ .error .unfinished ∧ ∃ least, ∀ fuel ≥ least, run fuel = result

/-- No amount of fuel is enough. -/
def Endless (run : Nat → Except Failure α) : Prop :=
  ∀ fuel, run fuel = .error .unfinished

/-- More fuel does not change how a computation ends. -/
def Stable (run : Nat → Except Failure α) : Prop :=
  ∀ ⦃fuel fuel' : Nat⦄, fuel ≤ fuel' → run fuel ≠ .error .unfinished → run fuel' = run fuel

theorem Stable.const (result : Except Failure α) : Stable fun _ => result :=
  fun _ _ _ _ => rfl

theorem Stable.bind {run : Nat → Except Failure α} {next : Nat → α → Except Failure β}
    (h : Stable run) (hnext : ∀ a, Stable fun fuel => next fuel a) :
    Stable fun fuel => run fuel >>= next fuel := by
  intro fuel fuel' hle hf
  cases hr : run fuel with
  | error failure =>
    simp only [hr, Bind.bind, Except.bind] at hf ⊢
    have hne : run fuel ≠ .error .unfinished := by simpa [hr] using hf
    rw [h hle hne, hr]
  | ok a =>
    simp only [hr, Bind.bind, Except.bind] at hf ⊢
    have hne : run fuel ≠ .error .unfinished := by simp [hr]
    rw [h hle hne, hr]
    exact hnext a hle hf

theorem Stable.map {run : Nat → Except Failure α} (h : Stable run) (f : α → β) :
    Stable fun fuel => f <$> run fuel := by
  intro fuel fuel' hle hf
  have hne : run fuel ≠ .error .unfinished := by
    intro hu
    simp only [hu] at hf
    exact hf rfl
  simp only [h hle hne]

variable {run : Nat → Except Failure α} {run' : Nat → Except Failure β}

theorem Stable.ends_or_endless (h : Stable run) : (∃ result, Ends run result) ∨ Endless run := by
  by_cases hn : Endless run
  · exact .inr hn
  · obtain ⟨fuel, hf⟩ := not_forall.mp hn
    exact .inl ⟨run fuel, hf, fuel, fun _ hle => h hle hf⟩

theorem Ends.unique {r r' : Except Failure α} (h : Ends run r) (h' : Ends run r') : r = r' := by
  obtain ⟨-, least, hl⟩ := h
  obtain ⟨-, least', hl'⟩ := h'
  rw [← hl (max least least') (Nat.le_max_left _ _), hl' (max least least') (Nat.le_max_right _ _)]

theorem Ends.not_endless {r : Except Failure α} (h : Ends run r) : ¬Endless run := by
  intro hn
  obtain ⟨hne, least, hl⟩ := h
  exact hne ((hl least (Nat.le_refl least)).symm.trans (hn least))

/-- From some amount of fuel on, a second computation does what the first one does, seen through `f`,
after some moves of its own. -/
structure Trails (f : Except Failure α → Except Failure β) (run : Nat → Except Failure α)
    (run' : Nat → Except Failure β) : Prop where
  keeps : ∀ result, f result = .error .unfinished ↔ result = .error .unfinished
  follows : ∃ least moves, ∀ fuel ≥ least, run' (moves + fuel) = f (run fuel)

namespace Trails

variable {f : Except Failure α → Except Failure β}

theorem ends (h : Trails f run run') {result : Except Failure α} (he : Ends run result) :
    Ends run' (f result) := by
  obtain ⟨least, moves, ht⟩ := h.follows
  obtain ⟨hne, least', hl⟩ := he
  refine ⟨fun hu => hne ((h.keeps result).mp hu), moves + max least least', fun fuel hle => ?_⟩
  obtain ⟨extra, rfl⟩ := Nat.exists_eq_add_of_le hle
  rw [Nat.add_assoc, ht _ (by omega), hl _ (by omega)]

theorem endless (h : Trails f run run') (hs : Stable run') (hn : Endless run) : Endless run' := by
  obtain ⟨least, moves, ht⟩ := h.follows
  intro fuel
  by_contra hne
  -- The second computation would end in the same way later, when it is to follow the first.
  have hlate := hs (show fuel ≤ moves + max least fuel by omega) hne
  rw [ht _ (Nat.le_max_left _ _), hn] at hlate
  exact hne (hlate.symm.trans ((h.keeps _).mpr rfl))

theorem ends_iff (h : Trails f run run') (hs : Stable run) (hs' : Stable run')
    (result' : Except Failure β) :
    Ends run' result' ↔ ∃ result, Ends run result ∧ f result = result' := by
  constructor
  · intro he'
    rcases hs.ends_or_endless with ⟨result, he⟩ | hn
    · exact ⟨result, he, (h.ends he).unique he'⟩
    · exact absurd (h.endless hs' hn) he'.not_endless
  · rintro ⟨result, he, rfl⟩
    exact h.ends he

theorem endless_iff (h : Trails f run run') (hs : Stable run) (hs' : Stable run') :
    Endless run ↔ Endless run' := by
  refine ⟨h.endless hs', fun hn => ?_⟩
  rcases hs.ends_or_endless with ⟨result, he⟩ | hn'
  · exact absurd hn (h.ends he).not_endless
  · exact hn'

end Trails

end Fuel

theorem stable_evaluate (limit : Option Nat) (mode : Mode) (t : Term) (env : Values)
    (functions : Functions) : Stable fun fuel => (evaluate fuel mode t env functions).toExcept limit := by
  intro fuel fuel' hle hf
  have hne : evaluate fuel mode t env functions ≠ .unfinished := fun hu =>
    hf (Machine.Outcome.toExcept_eq_unfinished_iff.mpr hu)
  simp only [evaluate_mono hle hne]

namespace Program

theorem stable_ofScript (limit : Option Nat) (mode : Mode) (script : Script) :
    Stable fun fuel => ofScript ⟨limit, fuel⟩ mode script := by
  have hvalues (functions : Functions) : Stable fun fuel =>
      lowerValues ⟨remaining limit 1, fuel⟩ mode functions .empty script.definitions :=
    fun _ _ hle hf => lowerValues_mono _ hle mode functions .empty script.definitions hf
  refine (Stable.const (lowerFunctions (remaining limit 3) .empty script.definitions)).bind fun functions => ?_
  refine (hvalues functions).bind fun values => ?_
  exact (Stable.const (lowerResult (remaining limit 1) script.result)).bind fun result => .const _

theorem stable_run (limit : Option Nat) (mode : Mode) (program : Program) :
    Stable fun fuel => program.run ⟨limit, fuel⟩ mode := by
  obtain ⟨functions, values, result⟩ := program
  cases result with
  | none => exact .const _
  | some t => exact (stable_evaluate limit mode t values functions).map some

end Program

namespace Session

theorem stable_eval (s : Session) (limit : Option Nat) (source : String) :
    Stable fun fuel => (s.eval ⟨limit, fuel⟩ source).1 := by
  simp only [eval_fst]
  refine Stable.map ?_ Prod.fst
  refine (Stable.const (s.extend ⟨remaining limit 1, 0⟩ source)).bind fun script => ?_
  refine (Program.stable_ofScript (remaining limit 1) s.mode script).bind fun program => ?_
  exact (Program.stable_run (remaining limit 1) s.mode program).bind fun _ => .const _

theorem stable_call (s : Session) (limit : Option Nat) (name : String) (args : List Argument) :
    Stable fun fuel => s.call ⟨limit, fuel⟩ name args := by
  refine (Stable.const _).bind fun found => ?_
  cases found with
  | none => exact .const _
  | some f =>
    refine (Stable.const _).bind fun ns => ?_
    by_cases hr : f.refuses s.mode ns.length = true
    · simp only [Lambda.apply, hr, if_true]
      exact .const (.error (.ofFault (remaining (remaining limit 2) 1) (.arity none f.arity ns.length)))
    · simp only [Lambda.apply, hr, Bool.false_eq_true, if_false]
      exact stable_evaluate (remaining limit 2) s.mode f.body _ s.program.functions

end Session

end Unary
