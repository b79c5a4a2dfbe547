import Unary.Proofs.Programs
import Unary.Session

/-!
Sessions through all that can be asked of them.

`Session.perform` is one operation and `Session.after` a history of them. A session is `Settled` when its
program has the functions and the values that its definitions make. Every session starts settled, every
operation keeps it so, and its definitions are those of the prelude and of the sources that were evaluated
with success.
-/

namespace Unary

/-- What can be asked of a session. A file is read from the disk as it is at that time. -/
inductive Operation
  | eval (source : String)
  | runFile (disk : Disk) (path : String)
  | compile (source : String)
  | call (name : String) (args : List Argument)

inductive Answer
  | value (n : Option Nat)
  | program (program : Program)
deriving DecidableEq

namespace Operation

/-- The source that an operation evaluates, if it evaluates one and finds it. -/
def source? : Operation → Option String
  | eval source => some source
  | runFile disk path => (disk.readText (Path.ofString path).text).toOption
  | compile _ => none
  | call _ _ => none

/-- Whether an operation is there for its answer alone. -/
def isQuery : Operation → Bool
  | eval _ => false
  | runFile _ _ => false
  | compile _ => true
  | call _ _ => true

end Operation

/-- The definitions in a text, none if it is no script. -/
def Script.definitionsIn (source : String) : List Definition :=
  match parse none source with
  | .ok script => script.definitions
  | .error _ => []

namespace Session

/-- The value of a source and the session it is to make, neither of them there if something fails. -/
def outcome (bounds : Bounds) (s : Session) (source : String) : Except Failure (Option Nat × Session) := do
  let script ← s.extend (bounds.inside 1) source
  let program ← Program.ofScript (bounds.inside 1) s.mode script
  let value ← program.run (bounds.inside 1) s.mode
  return (value, { s with definitions := script.definitions, program := program })

/-- One operation: the session that is held after it, and its answer. -/
def perform (bounds : Bounds) (s : Session) : Operation → Session × Except Failure Answer
  | .eval source => ((s.eval bounds source).2, .value <$> (s.eval bounds source).1)
  | .runFile disk path => ((s.runFile bounds disk path).2, .value <$> (s.runFile bounds disk path).1)
  | .compile source => (s, .program <$> s.compile bounds source)
  | .call name args => (s, (fun n => .value (some n)) <$> s.call bounds name args)

/-- The session after operations, each within its own bounds. -/
def after (s : Session) : List (Bounds × Operation) → Session
  | [] => s
  | (bounds, op) :: history => (s.perform bounds op).1.after history

/-- The source that an operation evaluates with success. -/
def accepted? (bounds : Bounds) (s : Session) (op : Operation) : Option String :=
  match (s.perform bounds op).2 with
  | .ok _ => op.source?
  | .error _ => none

/-- The sources that are evaluated with success, in order. -/
def accepted (s : Session) : List (Bounds × Operation) → List String
  | [] => []
  | (bounds, op) :: history =>
    (s.accepted? bounds op).toList ++ (s.perform bounds op).1.accepted history

/-- Whether the program of a session has the functions and values that its definitions make. -/
def Settled (s : Session) : Prop :=
  ∃ bounds, Program.ofScript bounds s.mode ⟨s.definitions, none⟩ =
    .ok ⟨s.program.functions, s.program.values, none⟩

end Session

namespace Script

theorem read_none (fuel : Nat) (source : String) :
    read ⟨none, fuel⟩ source = (parse none source).mapError .ofParse := rfl

theorem parse_of_read {bounds : Bounds} {source : String} {script : Script}
    (h : read bounds source = .ok script) : parse none source = .ok script := by
  rw [read] at h
  split at h
  · cases h
  · exact parse_none_of_parse (mapError_eq_ok_iff.mp h)

theorem definitionsIn_of_read {bounds : Bounds} {source : String} {script : Script}
    (h : read bounds source = .ok script) : definitionsIn source = script.definitions := by
  rw [definitionsIn, parse_of_read h]

end Script

namespace Session

variable {bounds : Bounds} {s s' : Session} {source : String} {value : Option Nat} {op : Operation}

namespace Action

variable {α β : Type} (s : Session)

/-- What comes after a result that is there, and no change where there is none. -/
theorem run_ofExcept_bind (x : Except Failure α) (f : α → Action β) :
    (ofExcept x >>= f).run.run s = match x with
      | .ok a => (f a).run.run s
      | .error failure => (.error failure, s) := by
  cases x <;> rfl

theorem run_get_bind (f : Session → Action β) : (get >>= f).run.run s = (f s).run.run s := rfl

end Action

/-- An evaluation is its outcome: it brings the session it is to make, or, whatever fails, the one it had. -/
theorem eval_eq (bounds : Bounds) (s : Session) (source : String) :
    s.eval bounds source = match s.outcome bounds source with
      | .ok (value, s') => (.ok value, s')
      | .error failure => (.error failure, s) := by
  rw [eval, evalAction, outcome, Action.run_get_bind, Action.run_ofExcept_bind]
  cases s.extend (bounds.inside 1) source with
  | error failure => rfl
  | ok script =>
    simp only [Action.run_ofExcept_bind]
    cases hp : Program.ofScript (bounds.inside 1) s.mode script with
    | error failure => simp only [bind, Except.bind, hp]
    | ok program =>
      simp only [bind, Except.bind, hp]
      cases program.run (bounds.inside 1) s.mode <;> rfl

theorem eval_fst (bounds : Bounds) (s : Session) (source : String) :
    (s.eval bounds source).1 = Prod.fst <$> s.outcome bounds source := by
  rw [eval_eq]
  cases s.outcome bounds source <;> rfl

theorem eval_eq_ok_iff_outcome :
    s.eval bounds source = (.ok value, s') ↔ s.outcome bounds source = .ok (value, s') := by
  rw [eval_eq]
  cases s.outcome bounds source with
  | error failure => simp
  | ok result => simp [Prod.ext_iff]

/-- An evaluation that succeeds has read the source, lowered it after the definitions of the session and
found the value of its final expression. -/
theorem eval_eq_ok_iff :
    s.eval bounds source = (.ok value, s') ↔
      ∃ script, Script.read (bounds.inside 1) source = .ok script ∧
        Program.ofScript (bounds.inside 1) s.mode (script.after s.definitions) = .ok s'.program ∧
        s'.program.run (bounds.inside 1) s.mode = .ok value ∧
        s'.mode = s.mode ∧ s'.definitions = s.definitions ++ script.definitions := by
  rw [eval_eq_ok_iff_outcome]
  constructor
  · intro h
    obtain ⟨whole, hw, h⟩ := bind_eq_ok_iff.mp h
    obtain ⟨script, hs, rfl⟩ := map_eq_ok_iff.mp hw
    obtain ⟨program, hp, h⟩ := bind_eq_ok_iff.mp h
    obtain ⟨n, hr, h⟩ := bind_eq_ok_iff.mp h
    cases h
    exact ⟨script, hs, hp, hr, rfl, rfl⟩
  · rintro ⟨script, hs, hp, hr, hm, hd⟩
    obtain ⟨mode, defs, program⟩ := s'
    cases hm
    cases hd
    have he : s.extend (bounds.inside 1) source = .ok (script.after s.definitions) := by
      rw [extend, hs]
      rfl
    rw [outcome, he]
    simp only [bind, Except.bind, hp, hr]
    rfl

/-- An evaluation that fails leaves the session as it was. -/
theorem eval_snd_of_error {failure : Failure} (h : (s.eval bounds source).1 = .error failure) :
    (s.eval bounds source).2 = s := by
  rw [eval_eq] at h ⊢
  cases ho : s.outcome bounds source with
  | error failure => rfl
  | ok result =>
    rw [ho] at h
    cases h

/-- The source in a file is evaluated in a second frame, and a file that cannot be read leaves the session as
it was. -/
theorem runFile_eq (bounds : Bounds) (disk : Disk) (s : Session) (path : String) :
    s.runFile bounds disk path = match disk.readText (Path.ofString path).text with
      | .ok source => s.eval (bounds.inside 1) source
      | .error error => (.error (.file error), s) := by
  rw [runFile, runFileAction]
  cases disk.readText (Path.ofString path).text <;> rfl

/-- An operation has left the session alone, or it has evaluated a source with success. -/
theorem perform_cases (bounds : Bounds) (s : Session) (op : Operation) :
    ((s.perform bounds op).1 = s ∧ s.accepted? bounds op = none) ∨
      ∃ bounds' source value, s.accepted? bounds op = some source ∧
        s.eval bounds' source = (.ok value, (s.perform bounds op).1) := by
  cases op with
  | eval source =>
    cases he : (s.eval bounds source).1 with
    | error failure =>
      refine .inl ⟨eval_snd_of_error he, ?_⟩
      rw [accepted?, perform, he]
      rfl
    | ok value =>
      refine .inr ⟨bounds, source, value, ?_, Prod.ext he rfl⟩
      rw [accepted?, perform, he]
      rfl
  | runFile disk path =>
    have hrun := runFile_eq bounds disk s path
    cases hd : disk.readText (Path.ofString path).text with
    | error error =>
      rw [hd] at hrun
      rw [accepted?, perform, hrun]
      exact .inl ⟨rfl, rfl⟩
    | ok source =>
      rw [hd] at hrun
      rw [accepted?, perform, hrun]
      cases he : (s.eval (bounds.inside 1) source).1 with
      | error failure => exact .inl ⟨eval_snd_of_error he, rfl⟩
      | ok value =>
        refine .inr ⟨bounds.inside 1, source, value, ?_, Prod.ext he rfl⟩
        simp [Functor.map, Except.map, Operation.source?, hd, Except.toOption]
  | compile source =>
    refine .inl ⟨rfl, ?_⟩
    rw [accepted?]
    split <;> rfl
  | call name args =>
    refine .inl ⟨rfl, ?_⟩
    rw [accepted?]
    split <;> rfl

theorem mode_perform (bounds : Bounds) (s : Session) (op : Operation) :
    (s.perform bounds op).1.mode = s.mode := by
  rcases perform_cases bounds s op with ⟨hs, -⟩ | ⟨_, source, value, -, he⟩
  · rw [hs]
  · obtain ⟨script, -, -, -, hm, -⟩ := eval_eq_ok_iff.mp he
    exact hm

theorem definitions_perform (bounds : Bounds) (s : Session) (op : Operation) :
    (s.perform bounds op).1.definitions =
      s.definitions ++ (s.accepted? bounds op).toList.flatMap Script.definitionsIn := by
  rcases perform_cases bounds s op with ⟨hs, ha⟩ | ⟨_, source, value, ha, he⟩
  · rw [hs, ha]
    simp
  · obtain ⟨script, hr, -, -, -, hd⟩ := eval_eq_ok_iff.mp he
    rw [hd, ha]
    simp [Script.definitionsIn_of_read hr]

theorem settled_of_eval (h : s.eval bounds source = (.ok value, s')) : s'.Settled := by
  obtain ⟨script, -, hp, -, hm, hd⟩ := eval_eq_ok_iff.mp h
  obtain ⟨hf, hv, -⟩ := Program.ofScript_eq_ok_iff.mp hp
  refine ⟨bounds.inside 1, Program.ofScript_eq_ok_iff.mpr ⟨?_, ?_, rfl⟩⟩
  · rw [hd]
    exact hf
  · rw [hm, hd]
    exact hv

theorem Settled.perform (h : s.Settled) (bounds : Bounds) (op : Operation) :
    (s.perform bounds op).1.Settled := by
  rcases perform_cases bounds s op with ⟨hs, -⟩ | ⟨_, source, value, -, he⟩
  · rw [hs]
    exact h
  · exact settled_of_eval he

theorem mode_after (s : Session) (history : List (Bounds × Operation)) :
    (s.after history).mode = s.mode := by
  induction history generalizing s with
  | nil => rfl
  | cons step history ih => exact (ih _).trans (mode_perform step.1 s step.2)

theorem definitions_after (s : Session) (history : List (Bounds × Operation)) :
    (s.after history).definitions =
      s.definitions ++ (s.accepted history).flatMap Script.definitionsIn := by
  induction history generalizing s with
  | nil => simp [after, accepted]
  | cons step history ih =>
    obtain ⟨bounds, op⟩ := step
    rw [after, ih, definitions_perform, accepted, List.flatMap_append, List.append_assoc]

theorem Settled.after (h : s.Settled) (history : List (Bounds × Operation)) :
    (s.after history).Settled := by
  induction history generalizing s with
  | nil => exact h
  | cons step history ih => exact ih (h.perform step.1 step.2)

/-- A source without definitions leaves the definitions, the functions and the values as they were. -/
theorem Settled.eval_without_definitions (hs : s.Settled)
    (he : s.eval bounds source = (.ok value, s')) (hn : Script.definitionsIn source = []) :
    s'.definitions = s.definitions ∧ s'.program.functions = s.program.functions ∧
      s'.program.values = s.program.values := by
  obtain ⟨script, hr, -, -, hm, hd⟩ := eval_eq_ok_iff.mp he
  rw [Script.definitionsIn_of_read hr] at hn
  rw [hn, List.append_nil] at hd
  -- The programs before and after are lowered from the same definitions, perhaps within other bounds.
  obtain ⟨bounds₁, hp⟩ := hs
  obtain ⟨bounds₂, hp'⟩ := settled_of_eval he
  rw [hm, hd] at hp'
  have hsame := Program.ofScript_unique hp' hp
  rw [Program.mk.injEq] at hsame
  exact ⟨hd, hsame.1, hsame.2.1⟩

section Start

variable {mode : Mode} {choice : PreludeChoice} {env : Environment} {disk : Disk}

theorem start_eq_ok_iff :
    start bounds mode choice env disk = .ok s ↔
      ∃ defs, preludeDefinitions (bounds.inside 2) env disk choice = .ok defs ∧
        ofDefinitions (bounds.inside 2) mode defs = .ok s :=
  bind_eq_ok_iff

theorem of_ofDefinitions {defs : List Definition}
    (h : ofDefinitions bounds mode defs = .ok s) :
    s.mode = mode ∧ s.definitions = defs ∧ s.Settled := by
  cases defs with
  | nil =>
    cases h
    exact ⟨rfl, rfl, bounds, rfl⟩
  | cons d defs =>
    obtain ⟨program, hp, h⟩ := bind_eq_ok_iff.mp h
    cases h
    obtain ⟨hf, hv, -⟩ := Program.ofScript_eq_ok_iff.mp hp
    exact ⟨rfl, rfl, bounds, Program.ofScript_eq_ok_iff.mpr ⟨hf, hv, rfl⟩⟩

end Start

/-- Whatever is asked of a session, its definitions are those of the prelude and then those of the sources
that were evaluated with success, and lowering them gives the functions and values of its program. What
fails changes nothing, nor does a query, and a source without definitions changes the final term alone. -/
theorem invariant_after (bounds : Bounds) (mode : Mode) (choice : PreludeChoice) (env : Environment)
    (disk : Disk) (s₀ : Session) (hstart : start bounds mode choice env disk = .ok s₀)
    (history : List (Bounds × Operation)) :
    let s := s₀.after history
    (∃ defs, preludeDefinitions (bounds.inside 2) env disk choice = .ok defs ∧
      s.definitions = defs ++ (s₀.accepted history).flatMap Script.definitionsIn) ∧
    (∃ least, ∀ limit, ∀ fuel ≥ least, Program.ofScript ⟨limit, fuel⟩ mode ⟨s.definitions, none⟩ =
      .ok ⟨s.program.functions, s.program.values, none⟩) ∧
    (∀ bounds op failure, (s.perform bounds op).2 = .error failure → (s.perform bounds op).1 = s) ∧
    (∀ bounds op, op.isQuery = true → (s.perform bounds op).1 = s) ∧
    (∀ bounds op source, s.accepted? bounds op = some source → Script.definitionsIn source = [] →
      let s' := (s.perform bounds op).1
      s'.definitions = s.definitions ∧ s'.program.functions = s.program.functions ∧
        s'.program.values = s.program.values) := by
  intro s
  obtain ⟨defs, hprelude, hdefs⟩ := start_eq_ok_iff.mp hstart
  obtain ⟨hmode, hfirst, hsettled⟩ := of_ofDefinitions hdefs
  have hs : s.Settled := hsettled.after history
  refine ⟨⟨defs, hprelude, ?_⟩, ?_, ?_, ?_, ?_⟩
  · rw [definitions_after, hfirst]
  · obtain ⟨least, hl⟩ := hs
    rw [mode_after, hmode] at hl
    exact ⟨least.fuel, fun limit fuel hle => Program.ofScript_mono hle hl⟩
  · intro bounds op failure hf
    rcases perform_cases bounds s op with ⟨hsame, -⟩ | ⟨_, source, value, ha, -⟩
    · exact hsame
    · rw [accepted?, hf] at ha
      cases ha
  · intro bounds op hq
    cases op with
    | compile source => rfl
    | call name args => rfl
    | _ => cases hq
  · intro bounds op source ha hn
    rcases perform_cases bounds s op with ⟨-, hnone⟩ | ⟨_, found, value, hfound, he⟩
    · rw [ha] at hnone
      cases hnone
    · rw [ha] at hfound
      cases hfound
      exact hs.eval_without_definitions he hn

/-- Between a source and a file that are taken, a text that is no script, a call of no function, a file
that is not there and two queries leave nothing behind. -/
theorem invariant_after_failures :
    let disk : Disk := ⟨fun path =>
      if path = "two" then .ok (.file "def two = inc(one)".toUTF8) else .error .missing⟩
    let bounds : Bounds := ⟨none, 20⟩
    let prelude := PreludeChoice.text "def inc(x) = s(x) inc(z)"
    let inc := Definition.function "inc" ["x"] (.succ (.var "x"))
    let one := Definition.value "one" (.call "inc" [.zero])
    let two := Definition.value "two" (.call "inc" [.var "one"])
    let s₀ : Session := ⟨.strict, [inc], ⟨⟨[("inc", ⟨["x"], .succ (.var "x")⟩)]⟩, .empty, none⟩⟩
    let history := [(bounds, .eval "def one = inc(z) inc(one)"), (bounds, .eval "def two = s(one"),
      (bounds, .eval "def two = one dec(two)"), (bounds, .runFile disk "three"),
      (bounds, .compile "def inc(x) = z"), (bounds, .call "inc" [.int 3]),
      (bounds, Operation.runFile disk "two")]
    start bounds .strict prelude .empty disk = .ok s₀ ∧
      (s₀.after history).definitions = [inc, one, two] ∧
      ∃ least, ∀ limit, ∀ fuel ≥ least,
        Program.ofScript ⟨limit, fuel⟩ .strict ⟨(s₀.after history).definitions, none⟩ =
          .ok ⟨(s₀.after history).program.functions, ⟨[("one", 1), ("two", 2)]⟩, none⟩ := by
  intro disk bounds prelude inc one two s₀ history
  have hstart : start bounds .strict prelude .empty disk = .ok s₀ := by decide +kernel
  have hprelude : preludeDefinitions (bounds.inside 2) .empty disk prelude = .ok [inc] := by decide +kernel
  have haccepted : (s₀.accepted history).flatMap Script.definitionsIn = [one, two] := by
    decide +kernel
  have hvalues : (s₀.after history).program.values = ⟨[("one", 1), ("two", 2)]⟩ := by
    decide +kernel
  obtain ⟨⟨defs, hdefs, hd⟩, hp, -⟩ :=
    invariant_after bounds .strict prelude .empty disk s₀ hstart history
  rw [hprelude] at hdefs
  cases hdefs
  rw [haccepted] at hd
  rw [hvalues] at hp
  exact ⟨hstart, hd, hp⟩

end Session

end Unary
