import Unary.Proofs.Balance
import Unary.Proofs.Sessions

/-!
Strict mode only rejects.

The two modes make the same moves until strict mode finds something missing. So whatever strict mode does
not reject has the same result in lenient mode: a move, a run, a program, and a session through all that
is asked of it.
-/

namespace Unary

/-- Whether a failure is one for which lenient mode has a value. -/
def Failure.isRejection : Failure → Bool
  | .eval fault => fault.isRejection
  | _ => false

theorem Failure.isRejection_ofFault (limit : Option Nat) (fault : Fault) :
    (ofFault limit fault).isRejection = fault.isRejection := by
  cases fault with
  | notTerm node =>
    rw [ofFault]
    split <;> rfl
  | _ => rfl

/-- The result in lenient mode beside the one in strict mode: the same up to `f`, unless strict mode
rejects. -/
inductive Tolerates {α β : Type} (f : α → β) : Except Failure α → Except Failure β → Prop
  | ok (a : α) : Tolerates f (.ok a) (.ok (f a))
  | error (failure : Failure) : Tolerates f (.error failure) (.error failure)
  | rejected {failure : Failure} (h : failure.isRejection = true) (y : Except Failure β) :
      Tolerates f (.error failure) y

namespace Tolerates

variable {α β γ δ : Type} {f : α → β}

theorem refl (x : Except Failure α) : Tolerates id x x := by
  cases x with
  | ok a => exact .ok a
  | error failure => exact .error failure

theorem bind {x : Except Failure α} {y : Except Failure β} (h : Tolerates f x y) {g : γ → δ}
    {k : α → Except Failure γ} {k' : β → Except Failure δ} (hk : ∀ a, Tolerates g (k a) (k' (f a))) :
    Tolerates g (x >>= k) (y >>= k') := by
  cases h with
  | ok a => exact hk a
  | error failure => exact .error failure
  | rejected h y => exact .rejected h _

theorem map {x : Except Failure α} {y : Except Failure β} (h : Tolerates f x y) {g : γ → δ}
    {k : α → γ} {k' : β → δ} (hk : ∀ a, k' (f a) = g (k a)) :
    Tolerates g (k <$> x) (k' <$> y) := by
  cases h with
  | ok a =>
    change Tolerates g (.ok (k a)) (.ok (k' (f a)))
    rw [hk a]
    exact .ok (k a)
  | error failure => exact .error failure
  | rejected h y => exact .rejected h _

theorem eq_of_ok {a : α} {y : Except Failure β} (h : Tolerates f (.ok a) y) : y = .ok (f a) := by
  cases h
  rfl

theorem eq_of_error {failure : Failure} {y : Except Failure β}
    (h : Tolerates f (.error failure) y) (hr : failure.isRejection = false) :
    y = .error failure := by
  cases h with
  | error => rfl
  | rejected h y =>
    rw [hr] at h
    cases h

end Tolerates

namespace Machine

variable (functions : Functions)

/-- Strict mode makes the move of lenient mode, or finds something missing. -/
theorem step_lenient (c : Config) :
    step .lenient functions c = step .strict functions c ∨
      ∃ fault, step .strict functions c = .fault fault ∧ fault.isRejection = true := by
  obtain ⟨work, values⟩ := c
  obtain - | ⟨⟨term, env⟩ | - | - | -, work⟩ := work
  · exact .inl rfl
  · cases term with
    | var name =>
      cases hx : env.get? name with
      | some n => exact .inl (by simp [step, eval, Values.lookup, hx])
      | none => exact .inr ⟨.unbound name, by simp [step, eval, Values.lookup, hx], rfl⟩
    | call callee args =>
      cases hf : functions.get? callee with
      | none =>
        exact .inr ⟨.unknownFunction callee, by simp [step, eval, Functions.lookup, hf], rfl⟩
      | some f =>
        by_cases hn : args.length = f.arity
        · exact .inl (by simp [step, eval, Functions.lookup, hf, Lambda.refuses, hn])
        · refine .inr ⟨.arity (some callee) f.arity args.length, ?_, rfl⟩
          simp [step, eval, Functions.lookup, hf, Lambda.refuses, hn]
    | _ => exact .inl rfl
  · exact .inl rfl
  · exact .inl rfl
  · exact .inl rfl

theorem run_lenient (fuel : Nat) (c : Config) :
    run .lenient functions fuel c = run .strict functions fuel c ∨
      ∃ fault, run .strict functions fuel c = .fault fault ∧ fault.isRejection = true := by
  induction fuel generalizing c with
  | zero => exact .inl rfl
  | succ fuel ih =>
    rcases step_lenient functions c with hs | ⟨fault, hs, hr⟩
    · rw [run, run, hs]
      cases step .strict functions c with
      | next c' => exact ih c'
      | _ => exact .inl rfl
    · exact .inr ⟨fault, by rw [run, hs], hr⟩

theorem Outcome.tolerates (limit : Option Nat) {strict lenient : Outcome}
    (h : lenient = strict ∨ ∃ fault, strict = .fault fault ∧ fault.isRejection = true) :
    Tolerates id (strict.toExcept limit) (lenient.toExcept limit) := by
  rcases h with rfl | ⟨fault, rfl, hr⟩
  · exact .refl _
  · exact .rejected ((Failure.isRejection_ofFault _ fault).trans hr) _

end Machine

section Programs

variable (limit : Option Nat) (fuel : Nat) (functions : Functions)

theorem tolerates_evaluate (t : Term) (env : Values) :
    Tolerates id ((evaluate fuel .strict t env functions).toExcept limit)
      ((evaluate fuel .lenient t env functions).toExcept limit) :=
  Machine.Outcome.tolerates limit (Machine.run_lenient functions fuel ⟨[.eval t env], []⟩)

theorem Lambda.tolerates_apply (f : Lambda) (args : List Nat) :
    Tolerates id ((f.apply fuel .strict args functions).toExcept limit)
      ((f.apply fuel .lenient args functions).toExcept limit) := by
  have hl : f.refuses .lenient args.length = false := rfl
  rw [apply, apply, hl]
  cases f.refuses .strict args.length with
  | true => exact .rejected rfl _
  | false => exact tolerates_evaluate limit fuel functions f.body (f.bind (args.take f.arity))

theorem Functions.tolerates_lookup (name : String) :
    Tolerates id ((functions.lookup .strict name).mapError Failure.eval)
      ((functions.lookup .lenient name).mapError Failure.eval) := by
  cases hf : functions.get? name with
  | some f =>
    simp only [lookup, hf]
    exact .refl _
  | none =>
    simp only [lookup, hf]
    exact .rejected rfl _

namespace Program

variable (bounds : Bounds)

theorem tolerates_lowerValues (values : Values) (defs : List Definition) :
    Tolerates id (lowerValues bounds .strict functions values defs)
      (lowerValues bounds .lenient functions values defs) := by
  induction defs generalizing values with
  | nil => exact .ok values
  | cons d defs ih =>
    cases d with
    | function name params body => exact ih values
    | value name body =>
      rw [lowerValues, lowerValues]
      refine (Tolerates.refl (lowerExpr bounds.depth body)).bind fun t => ?_
      refine (tolerates_evaluate bounds.depth bounds.fuel functions t values).bind fun n => ?_
      exact ih (values.insert name n)

theorem tolerates_ofScript (script : Script) :
    Tolerates id (ofScript bounds .strict script) (ofScript bounds .lenient script) := by
  rw [ofScript, ofScript]
  refine (Tolerates.refl (lowerFunctions _ .empty script.definitions)).bind fun functions => ?_
  refine (tolerates_lowerValues functions _ .empty script.definitions).bind fun values => ?_
  exact (Tolerates.refl (lowerResult _ script.result)).bind fun result => .refl _

theorem tolerates_run (program : Program) :
    Tolerates id (program.run bounds .strict) (program.run bounds .lenient) := by
  rw [run, run]
  cases program.result with
  | none => exact .ok none
  | some t =>
    exact (tolerates_evaluate bounds.depth bounds.fuel program.functions t program.values).map fun _ => rfl

end Program

end Programs

namespace Session

/-- The same session in lenient mode. -/
def relaxed (s : Session) : Session :=
  ⟨.lenient, s.definitions, s.program⟩

/-- What a session answers to operations, each within its own bounds. -/
def answers (s : Session) : List (Bounds × Operation) → List (Except Failure Answer)
  | [] => []
  | (bounds, op) :: history =>
    (s.perform bounds op).2 :: (s.perform bounds op).1.answers history

/-- Whether an operation was rejected for something that is missing. -/
def rejected : Except Failure Answer → Bool
  | .ok _ => false
  | .error failure => failure.isRejection

variable (bounds : Bounds) (s : Session)

theorem tolerates_ofDefinitions (defs : List Definition) :
    Tolerates relaxed (ofDefinitions bounds .strict defs) (ofDefinitions bounds .lenient defs) := by
  cases defs with
  | nil => exact .ok (⟨.strict, [], .empty⟩ : Session)
  | cons d defs =>
    rw [ofDefinitions, ofDefinitions]
    · refine (Program.tolerates_ofScript bounds ⟨d :: defs, none⟩).bind fun program => ?_
      exact .ok (⟨.strict, d :: defs, program⟩ : Session)
    · simp
    · simp

theorem tolerates_start (choice : PreludeChoice) (env : Environment) (disk : Disk) :
    Tolerates relaxed (start bounds .strict choice env disk)
      (start bounds .lenient choice env disk) :=
  (Tolerates.refl (preludeDefinitions (bounds.inside 2) env disk choice)).bind fun defs =>
    tolerates_ofDefinitions (bounds.inside 2) defs

variable {s}

theorem tolerates_outcome (hs : s.mode = .strict) (source : String) :
    Tolerates (Prod.map id relaxed) (s.outcome bounds source) (s.relaxed.outcome bounds source) := by
  rw [outcome, outcome, hs]
  refine (Tolerates.refl (s.extend (bounds.inside 1) source)).bind fun script => ?_
  refine (Program.tolerates_ofScript (bounds.inside 1) script).bind fun program => ?_
  refine (Program.tolerates_run (bounds.inside 1) program).bind fun value => ?_
  exact .ok (value, (⟨.strict, script.definitions, program⟩ : Session))

theorem tolerates_compile (hs : s.mode = .strict) (source : String) :
    Tolerates id (s.compile bounds source) (s.relaxed.compile bounds source) := by
  rw [compile, compile, hs]
  exact (Tolerates.refl (s.extend (bounds.inside 1) source)).bind fun script =>
    Program.tolerates_ofScript (bounds.inside 1) script

theorem tolerates_call (hs : s.mode = .strict) (name : String) (args : List Argument) :
    Tolerates id (s.call bounds name args) (s.relaxed.call bounds name args) := by
  rw [call, call, hs]
  refine (Functions.tolerates_lookup s.program.functions name).bind fun found => ?_
  cases found with
  | none => exact .ok 0
  | some f =>
    refine (Tolerates.refl (Argument.toNats args)).bind fun ns => ?_
    exact f.tolerates_apply (bounds.inside 2).depth bounds.fuel s.program.functions ns

/-- A session and an answer in lenient mode beside those in strict mode. -/
def Agrees (strict lenient : Session × Except Failure Answer) : Prop :=
  lenient = (strict.1.relaxed, strict.2) ∨ rejected strict.2 = true

theorem agrees_eval (hs : s.mode = .strict) (source : String) :
    Agrees ((s.eval bounds source).2, .value <$> (s.eval bounds source).1)
      ((s.relaxed.eval bounds source).2, .value <$> (s.relaxed.eval bounds source).1) := by
  have h := tolerates_outcome bounds hs source
  rw [eval_eq, eval_eq]
  revert h
  generalize s.outcome bounds source = x, s.relaxed.outcome bounds source = y
  rintro (⟨value, s'⟩ | failure | hr)
  · exact .inl rfl
  · exact .inl rfl
  · exact .inr hr

theorem agrees_runFile (hs : s.mode = .strict) (disk : Disk) (path : String) :
    Agrees ((s.runFile bounds disk path).2, .value <$> (s.runFile bounds disk path).1)
      ((s.relaxed.runFile bounds disk path).2, .value <$> (s.relaxed.runFile bounds disk path).1) := by
  rw [runFile_eq, runFile_eq]
  cases disk.readText (Path.ofString path).text with
  | error error => exact .inl rfl
  | ok source => exact agrees_eval (bounds.inside 1) hs source

theorem agrees_query {α : Type} {x y : Except Failure α} (h : Tolerates id x y) (f : α → Answer) :
    Agrees (s, f <$> x) (s.relaxed, f <$> y) := by
  cases h with
  | ok a => exact .inl rfl
  | error failure => exact .inl rfl
  | rejected h y => exact .inr h

/-- One operation in both modes: strict mode rejects it, or there is no difference. -/
theorem agrees_perform (hs : s.mode = .strict) (op : Operation) :
    Agrees (s.perform bounds op) (s.relaxed.perform bounds op) := by
  cases op with
  | eval source => exact agrees_eval bounds hs source
  | runFile disk path => exact agrees_runFile bounds hs disk path
  | compile source => exact agrees_query (tolerates_compile bounds hs source) .program
  | call name args =>
    exact agrees_query (tolerates_call bounds hs name args) fun n => .value (some n)

theorem relaxed_after (hs : s.mode = .strict) {history : List (Bounds × Operation)}
    (h : ∀ answer ∈ s.answers history, rejected answer = false) :
    s.relaxed.answers history = s.answers history ∧
      s.relaxed.after history = (s.after history).relaxed := by
  induction history generalizing s with
  | nil => exact ⟨rfl, rfl⟩
  | cons step history ih =>
    obtain ⟨bounds, op⟩ := step
    obtain ⟨hfirst, hrest⟩ := List.forall_mem_cons.mp h
    have hmode : (s.perform bounds op).1.mode = .strict := (mode_perform bounds s op).trans hs
    rcases agrees_perform bounds hs op with hsame | hrejected
    · obtain ⟨hanswers, hafter⟩ := ih hmode hrest
      rw [answers, answers, after, after, hsame]
      exact ⟨congrArg _ hanswers, hafter⟩
    · rw [hfirst] at hrejected
      cases hrejected

/-- A session in strict mode and one in lenient mode that start alike: if strict mode rejects neither the
prelude nor any operation, the two sessions start and answer alike, be it with a value or with another
failure, and have the same definitions and the same program at every point of the history. -/
theorem strict_only_rejects (bounds : Bounds) (choice : PreludeChoice) (env : Environment)
    (disk : Disk) :
    (∀ failure, start bounds .strict choice env disk = .error failure →
      failure.isRejection = false → start bounds .lenient choice env disk = .error failure) ∧
    ∀ s, start bounds .strict choice env disk = .ok s →
      ∃ s', start bounds .lenient choice env disk = .ok s' ∧
        ∀ history, (∀ answer ∈ s.answers history, rejected answer = false) →
          s'.answers history = s.answers history ∧
          (s'.after history).definitions = (s.after history).definitions ∧
          (s'.after history).program = (s.after history).program := by
  have htol := tolerates_start bounds choice env disk
  constructor
  · intro failure hf hr
    rw [hf] at htol
    exact htol.eq_of_error hr
  · intro s hs
    rw [hs] at htol
    obtain ⟨defs, -, hdefs⟩ := start_eq_ok_iff.mp hs
    have hmode : s.mode = .strict := (of_ofDefinitions hdefs).1
    refine ⟨s.relaxed, htol.eq_of_ok, ?_⟩
    intro history hnone
    obtain ⟨hanswers, hafter⟩ := relaxed_after hmode hnone
    rw [hafter]
    exact ⟨hanswers, rfl, rfl⟩

/-- Between sources that are taken, a text that is no script and a file that is not there. -/
theorem strict_only_rejects_other_failures :
    let bounds : Bounds := ⟨none, 20⟩
    let nothing : Disk := ⟨fun _ => .error .missing⟩
    let prelude := PreludeChoice.text "def inc(x) = s(x)"
    let inc := Definition.function "inc" ["x"] (.succ (.var "x"))
    let s : Session := ⟨.strict, [inc], ⟨⟨[("inc", ⟨["x"], .succ (.var "x")⟩)]⟩, .empty, none⟩⟩
    let history := [(bounds, .eval "def one = inc(z) inc(one)"), (bounds, .eval "def two = s(one"),
      (bounds, .runFile nothing "two"), (bounds, .eval "def two = inc(one)"),
      (bounds, Operation.call "inc" [.int 2])]
    start bounds .strict prelude .empty nothing = .ok s ∧
      (∀ answer ∈ s.answers history, rejected answer = false) ∧
      ∃ s', start bounds .lenient prelude .empty nothing = .ok s' ∧
        s'.answers history = [.ok (.value (some 2)),
          .error (.read ⟨.expected .succClose none, 15, ⟨1, 16⟩⟩),
          .error (.file (.fault .missing "two")), .ok (.value none), .ok (.value (some 3))] ∧
        (s'.after history).program.values = ⟨[("one", 1), ("two", 2)]⟩ := by
  intro bounds nothing prelude inc s history
  have hstart : start bounds .strict prelude .empty nothing = .ok s := by decide +kernel
  have hnone : ∀ answer ∈ s.answers history, rejected answer = false := by decide +kernel
  have hanswers : s.answers history = [.ok (.value (some 2)),
      .error (.read ⟨.expected .succClose none, 15, ⟨1, 16⟩⟩),
      .error (.file (.fault .missing "two")), .ok (.value none), .ok (.value (some 3))] := by
    decide +kernel
  have hvalues : (s.after history).program.values = ⟨[("one", 1), ("two", 2)]⟩ := by decide +kernel
  obtain ⟨s', hs', h⟩ := (strict_only_rejects bounds prelude .empty nothing).2 s hstart
  obtain ⟨hsame, -, hprogram⟩ := h history hnone
  refine ⟨hstart, hnone, s', hs', hsame.trans hanswers, ?_⟩
  rw [hprogram, hvalues]

end Session

end Unary
