import Unary.Colour.Escape
import Unary.CommandLine
import Unary.Disk.Tree
import Unary.Expr.Format
import Unary.Proofs.Sessions

/-!
A limit on nesting only cuts short.

What is found under a limit is found under a wider one too, unless the limit was met: the script of a text
and the error in it, the text of a tree, a session, a program, and what the command line prints. Each of them
asks for the limit at a depth that does not depend on it.
-/

namespace Unary

/-- A limit is wider than another if it is met at no depth at which the other is not. -/
def Wider (limit limit' : Option Nat) : Prop :=
  ∀ depth, exceeds limit' depth = true → exceeds limit depth = true

theorem wider_some {limit limit' : Nat} (h : limit ≤ limit') : Wider (some limit) (some limit') := by
  intro depth hd
  simp only [exceeds_some, decide_eq_true_eq] at hd ⊢
  omega

/-- A wider limit is still the wider one when the same number of frames is taken of both. -/
theorem Wider.remaining {limit limit' : Option Nat} (hw : Wider limit limit') (frames : Nat) :
    Wider (remaining limit frames) (remaining limit' frames) := by
  intro depth hd
  rcases Nat.eq_zero_or_pos depth with rfl | hpos
  · rw [exceeds_zero] at hd
    cases hd
  · rw [exceeds_remaining _ _ hpos] at hd ⊢
    exact hw _ hd

/-- The result under a wider limit beside the one under a limit: the same, unless that was cut short. -/
inductive Widened {ε α : Type} (short : ε) : Except ε α → Except ε α → Prop
  | same (x : Except ε α) : Widened short x x
  | cut (y : Except ε α) : Widened short (.error short) y

/-- What is found under a limit, other than that the limit is met, is found under every greater limit. -/
def Persists {ε α : Type} (short : ε) (find : Option Nat → Except ε α) : Prop :=
  ∀ limit limit' : Nat, limit ≤ limit' → find (some limit) ≠ .error short →
    find (some limit') = find (some limit)

section Widened

variable {ε ε' α β : Type} {short : ε} {x y : Except ε α} {limit limit' : Option Nat}

theorem Widened.eq (h : Widened short x y) (hx : x ≠ .error short) : y = x := by
  cases h with
  | same => rfl
  | cut => exact absurd rfl hx

theorem Widened.antisymm (h : Widened short x y) (h' : Widened short y x) : x = y := by
  cases h with
  | same => rfl
  | cut =>
    cases h' with
    | same => rfl
    | cut => rfl

theorem Widened.bind (h : Widened short x y) {k k' : α → Except ε β}
    (hk : ∀ a, Widened short (k a) (k' a)) : Widened short (x >>= k) (y >>= k') := by
  cases h with
  | same =>
    cases x with
    | error e => exact .same _
    | ok a => exact hk a
  | cut => exact .cut _

theorem Widened.map (h : Widened short x y) (f : α → β) : Widened short (f <$> x) (f <$> y) := by
  cases h with
  | same => exact .same _
  | cut => exact .cut _

theorem Widened.mapError (h : Widened short x y) (f : ε → ε') :
    Widened (f short) (x.mapError f) (y.mapError f) := by
  cases h with
  | same => exact .same _
  | cut => exact .cut _

/-- A step that asks for the limit first. -/
theorem Widened.guard (hw : Wider limit limit') (depth : Nat) (h : Widened short x y) :
    Widened short (if exceeds limit depth = true then .error short else x)
      (if exceeds limit' depth = true then .error short else y) := by
  by_cases hd : exceeds limit depth = true
  · rw [if_pos hd]
    exact .cut _
  · rw [if_neg hd, if_neg fun hd' => hd (hw depth hd')]
    exact h

theorem persists_of_widened {find : Option Nat → Except ε α}
    (h : ∀ limit limit', Wider limit limit' → Widened short (find limit) (find limit')) :
    Persists short find :=
  fun limit limit' hle hne => (h (some limit) (some limit') (wider_some hle)).eq hne

end Widened

variable {limit limit' : Option Nat} {p p' : Palette}

theorem Script.widened_parse (hw : Wider limit limit') (source : String) :
    Widened .tooDeep (parse limit source) (parse limit' source) := by
  by_cases h : parse limit source = .error .tooDeep
  · rw [h]
    exact .cut _
  · rw [parse_widen hw source h]
    exact .same _

/-- A pen under one limit has more room than a pen under another if it goes beyond its limit only where the
other does. -/
def Pen.Roomier (limit : Option Nat) (pen : Pen) (limit' : Option Nat) (pen' : Pen) : Prop :=
  ∀ depth, exceeds limit' (depth + pen'.frames) = true → exceeds limit (depth + pen.frames) = true

structure Palette.Roomier (limit : Option Nat) (p : Palette) (limit' : Option Nat) (p' : Palette) : Prop where
  wider : Wider limit limit'
  keywords : p.keywords.Roomier limit limit' p'.keywords
  constructors : p.constructors.Roomier limit limit' p'.constructors
  names : p.names.Roomier limit limit' p'.names

/-- A palette has more room under a wider limit. -/
theorem Wider.roomier (hw : Wider limit limit') (p : Palette) : p.Roomier limit limit' p :=
  ⟨hw, fun _ => hw _, fun _ => hw _, fun _ => hw _⟩

theorem FormatError.widened_check {pen pen' : Pen} (h : pen.Roomier limit limit' pen') (depth : Nat) :
    Widened .tooDeep (check limit (depth + pen.frames)) (check limit' (depth + pen'.frames)) := by
  rw [check, check]
  split
  next => exact .cut _
  next hfits => rw [if_neg fun hd => hfits (h depth hd)]; exact .same _

/-- A node without a written form is refused with its own text, or as too deep. -/
theorem widened_ite {ε α : Type} {short e : ε} (hw : Wider limit limit') (depth : Nat) :
    Widened (α := α) short (.error (if exceeds limit depth = true then short else e))
      (.error (if exceeds limit' depth = true then short else e)) := by
  rw [apply_ite Except.error, apply_ite Except.error]
  exact Widened.guard hw depth (.same _)

/-- A node that a message is to show is shown in it, or is too deep for that. -/
theorem widened_shown {ε α : Type} {short e : ε} (hw : Wider limit limit') (depth : Nat) :
    Widened (α := α) short (.error (if (!exceeds limit depth) = true then e else short))
      (.error (if (!exceeds limit' depth) = true then e else short)) := by
  cases hd : exceeds limit depth with
  | true => exact .cut _
  | false =>
    have hd' : exceeds limit' depth = false := by
      by_contra h
      rw [Bool.not_eq_false] at h
      rw [hw depth h] at hd
      cases hd
    rw [hd']
    exact .same _

namespace Expr

mutual

theorem widened_checkWrite (h : p.Roomier limit limit' p') (depth : Nat) :
    ∀ e : Expr, Widened .tooDeep (e.checkWrite limit p depth) (e.checkWrite limit' p' depth)
  | zero => FormatError.widened_check h.constructors _
  | succ a =>
    (FormatError.widened_check h.constructors _).bind fun _ => widened_checkWrite h (depth + 1) a
  | var _ => FormatError.widened_check h.names _
  | call _ as =>
    (widened_checkWriteAll h (depth + 2) as).bind fun _ => FormatError.widened_check h.names _
  | cond a b c d =>
    (widened_checkWrite h (depth + 1) a).bind fun _ =>
    (widened_checkWrite h (depth + 1) b).bind fun _ =>
    (widened_checkWrite h (depth + 1) c).bind fun _ =>
    (widened_checkWrite h (depth + 1) d).bind fun _ => FormatError.widened_check h.keywords _
  | equation _ _ => widened_ite h.wider _
  | text _ => widened_ite h.wider _

theorem widened_checkWriteAll (h : p.Roomier limit limit' p') (depth : Nat) : ∀ as : List Expr,
    Widened .tooDeep (checkWriteAll limit p depth as) (checkWriteAll limit' p' depth as)
  | [] => .same _
  | a :: as =>
    (widened_checkWrite h depth a).bind fun _ => widened_checkWriteAll h depth as

end

theorem widened_format (hw : Wider limit limit') (p : Palette) (e : Expr) :
    Widened .tooDeep (e.format limit p) (e.format limit' p) :=
  (widened_checkWrite (hw.roomier p) 2 e).bind fun _ => .same _

end Expr

theorem Definition.widened_format (hw : Wider limit limit') (p : Palette) (d : Definition) :
    Widened .tooDeep (d.format limit p) (d.format limit' p) :=
  (Expr.widened_checkWrite (hw.roomier p) 3 d.body).bind fun _ => .same _

theorem Script.widened_checkWrite (h : p.Roomier limit limit' p') (script : Script) :
    Widened .tooDeep (script.checkWrite limit p) (script.checkWrite limit' p') :=
  (Expr.widened_checkWriteAll h 4 _).bind fun _ => Expr.widened_checkWriteAll h 2 _

theorem Script.widened_format (hw : Wider limit limit') (p : Palette) (script : Script) :
    Widened .tooDeep (script.format limit p) (script.format limit' p) :=
  (widened_checkWrite (hw.roomier p) script).bind fun _ => .same _

namespace Term

mutual

theorem widened_checkWrite (h : p.Roomier limit limit' p') (depth : Nat) :
    ∀ t : Term, Widened .tooDeep (t.checkWrite limit p depth) (t.checkWrite limit' p' depth)
  | zero => FormatError.widened_check h.constructors _
  | succ a =>
    (FormatError.widened_check h.constructors _).bind fun _ => widened_checkWrite h (depth + 1) a
  | var _ => FormatError.widened_check h.names _
  | call _ as =>
    (widened_checkWriteAll h (depth + 2) as).bind fun _ => FormatError.widened_check h.names _
  | cond a b c d =>
    (widened_checkWrite h (depth + 1) a).bind fun _ =>
    (widened_checkWrite h (depth + 1) b).bind fun _ =>
    (widened_checkWrite h (depth + 1) c).bind fun _ =>
    (widened_checkWrite h (depth + 1) d).bind fun _ => FormatError.widened_check h.keywords _
  | equation _ _ => widened_ite h.wider _
  | text _ => widened_ite h.wider _

theorem widened_checkWriteAll (h : p.Roomier limit limit' p') (depth : Nat) : ∀ ts : List Term,
    Widened .tooDeep (checkWriteAll limit p depth ts) (checkWriteAll limit' p' depth ts)
  | [] => .same _
  | a :: as =>
    (widened_checkWrite h depth a).bind fun _ => widened_checkWriteAll h depth as

end

theorem widened_format (hw : Wider limit limit') (p : Palette) (t : Term) :
    Widened .tooDeep (t.format limit p) (t.format limit' p) :=
  (widened_checkWrite (hw.roomier p) 2 t).bind fun _ => .same _

end Term

namespace Program

theorem widened_format (hw : Wider limit limit') (p : Palette) (program : Program) :
    Widened .tooDeep (program.format limit p) (program.format limit' p) :=
  (Term.widened_checkWriteAll (hw.roomier p) 2 _).bind fun _ => .same _

theorem widened_lowering (hw : Wider limit limit') (work : List Lowering.Task) (done : List Term) :
    Widened .tooDeep (Lowering.run limit work done) (Lowering.run limit' work done) := by
  fun_induction Lowering.run limit work done with
  | case8 a b =>
    rw [Lowering.run]
    exact widened_shown hw ((Expr.equation a b).depthFrom .spelling 0)
  | case9 s =>
    rw [Lowering.run]
    exact widened_shown hw ((Expr.text s).depthFrom .spelling 0)
  | case12 f count work done args hlen ih =>
    rw [Lowering.run, if_pos hlen]
    exact ih
  | case13 f count work done args hlen =>
    rw [Lowering.run, if_neg hlen]
    exact .same _
  | _ => simp_all [Lowering.run, Widened.same]

theorem widened_lowerExpr (hw : Wider limit limit') (e : Expr) :
    Widened .tooDeep (lowerExpr limit e) (lowerExpr limit' e) :=
  (widened_lowering (hw.remaining 1) [.visit e] []).mapError Failure.ofLowering

/-- What a fault is called may depend on the limit, and nothing else does. -/
theorem widened_toExcept (hw : Wider limit limit') (outcome : Machine.Outcome) :
    Widened .tooDeep (outcome.toExcept limit) (outcome.toExcept limit') := by
  cases outcome with
  | fault cause =>
    cases cause with
    | notTerm node => exact widened_shown (hw.remaining 1) (node.depthFrom .spelling 0)
    | _ => exact .same _
  | _ => exact .same _

theorem widened_lowerFunctions (hw : Wider limit limit') (functions : Functions) (defs : List Definition) :
    Widened .tooDeep (lowerFunctions limit functions defs) (lowerFunctions limit' functions defs) := by
  induction defs generalizing functions with
  | nil => exact .same _
  | cons d defs ih =>
    cases d with
    | value name body => exact ih functions
    | function name params body => exact (widened_lowerExpr hw body).bind fun t => ih _

theorem widened_lowerValues (hw : Wider limit limit') (fuel : Nat) (mode : Mode) (functions : Functions)
    (values : Values) (defs : List Definition) :
    Widened .tooDeep (lowerValues ⟨limit, fuel⟩ mode functions values defs)
      (lowerValues ⟨limit', fuel⟩ mode functions values defs) := by
  induction defs generalizing values with
  | nil => exact .same _
  | cons d defs ih =>
    cases d with
    | function name params body => exact ih values
    | value name body =>
      exact (widened_lowerExpr hw body).bind fun t => (widened_toExcept hw _).bind fun n => ih _

theorem widened_lowerResult (hw : Wider limit limit') (result : Option Expr) :
    Widened .tooDeep (lowerResult limit result) (lowerResult limit' result) := by
  cases result with
  | none => exact .same _
  | some e => exact (widened_lowerExpr hw e).map some

theorem widened_ofScript (hw : Wider limit limit') (fuel : Nat) (mode : Mode) (script : Script) :
    Widened .tooDeep (ofScript ⟨limit, fuel⟩ mode script) (ofScript ⟨limit', fuel⟩ mode script) :=
  (widened_lowerFunctions (hw.remaining 3) .empty _).bind fun functions =>
    (widened_lowerValues (hw.remaining 1) fuel mode functions .empty _).bind fun _ =>
      (widened_lowerResult (hw.remaining 1) _).bind fun _ => .same _

theorem widened_run (hw : Wider limit limit') (fuel : Nat) (mode : Mode) (program : Program) :
    Widened .tooDeep (program.run ⟨limit, fuel⟩ mode) (program.run ⟨limit', fuel⟩ mode) := by
  obtain ⟨functions, values, result⟩ := program
  cases result with
  | none => exact .same _
  | some t => exact (widened_toExcept hw _).map some

end Program

theorem Script.widened_read (hw : Wider limit limit') (fuel : Nat) (source : String) :
    Widened .tooDeep (read ⟨limit, fuel⟩ source) (read ⟨limit', fuel⟩ source) :=
  .guard hw readingFrames ((widened_parse (hw.remaining readingFrames) source).mapError Failure.ofParse)

theorem Prelude.widened_ofText (hw : Wider limit limit') (fuel : Nat) (text : String) :
    Widened .tooDeep (ofText ⟨limit, fuel⟩ text) (ofText ⟨limit', fuel⟩ text) :=
  (Script.widened_read (hw.remaining 1) fuel text).map _

namespace Session

theorem widened_preludeDefinitions (hw : Wider limit limit') (fuel : Nat) (env : Environment)
    (disk : Disk) (choice : PreludeChoice) :
    Widened .tooDeep (preludeDefinitions ⟨limit, fuel⟩ env disk choice)
      (preludeDefinitions ⟨limit', fuel⟩ env disk choice) := by
  cases choice with
  | none => exact .same _
  | configured => exact ((Widened.same _).bind fun text => Prelude.widened_ofText hw fuel text).map _
  | text source => exact (Prelude.widened_ofText hw fuel source).map _

theorem widened_ofDefinitions (hw : Wider limit limit') (fuel : Nat) (mode : Mode)
    (defs : List Definition) :
    Widened .tooDeep (ofDefinitions ⟨limit, fuel⟩ mode defs) (ofDefinitions ⟨limit', fuel⟩ mode defs) := by
  cases defs with
  | nil => exact .same _
  | cons d defs => exact (Program.widened_ofScript hw fuel mode ⟨d :: defs, none⟩).bind fun _ => .same _

theorem widened_start (hw : Wider limit limit') (fuel : Nat) (mode : Mode) (choice : PreludeChoice)
    (env : Environment) (disk : Disk) :
    Widened .tooDeep (start ⟨limit, fuel⟩ mode choice env disk)
      (start ⟨limit', fuel⟩ mode choice env disk) :=
  (widened_preludeDefinitions (hw.remaining 2) fuel env disk choice).bind fun _ =>
    widened_ofDefinitions (hw.remaining 2) fuel mode _

theorem widened_compile (hw : Wider limit limit') (fuel : Nat) (s : Session) (source : String) :
    Widened .tooDeep (s.compile ⟨limit, fuel⟩ source) (s.compile ⟨limit', fuel⟩ source) :=
  ((Script.widened_read (hw.remaining 1) fuel source).map _).bind fun script =>
    Program.widened_ofScript (hw.remaining 1) fuel s.mode script

end Session

/-- The environment with the limit on nesting set to a text. -/
def Environment.withLimit (env : Environment) (text : String) : Environment :=
  env.set "PEANO_RECURSION_LIMIT" text

theorem Environment.nestingLimit_of_readInt? {env : Environment} {n : Nat}
    (h : Text.readInt? (setting env.recursionLimit) = some (n : Int)) (hn : 0 < n) :
    env.nestingLimit = n := by
  obtain ⟨k, rfl⟩ := Nat.exists_eq_add_one_of_ne_zero (Nat.ne_of_gt hn)
  rw [nestingLimit, h]

namespace CommandLine

/-- Whether a run reports that the program nests too deep. -/
def Result.reportsTooDeep (r : Result) : Bool :=
  r.status = .exit 1 && (Failure.tooDeep.message ++ "\n").toList.isSuffixOf r.errors.toList

/-- Whether a run ends because the limit is met. -/
def Result.cutShort (r : Result) : Bool :=
  r.reportsTooDeep || r.status = .failure .tooDeep

/-- The run under a wider limit beside the one under a limit. -/
def Result.Outlasts (r r' : Result) : Prop :=
  r.cutShort = true ∨ r' = r

theorem Result.cutShort_failProgram (paint : Paint) (file source output : String) :
    (failProgram paint file source output .tooDeep).cutShort = true := by
  have hr : failProgram paint file source output .tooDeep =
      fail output (Report.render paint (.ofFailure .tooDeep) none (some file)) := rfl
  have hs : (Failure.tooDeep.message ++ "\n").toList <:+
      (fail output (Report.render paint (.ofFailure .tooDeep) none (some file))).errors.toList := by
    refine ⟨Report.heading paint (.ofFailure .tooDeep) none (some file) ++
      paint Report.alarm "error: ".toList, ?_⟩
    simp [fail, Report.render, Report.renderChars, Report.messageChars, Notice.ofFailure]
  rw [hr, cutShort, reportsTooDeep, List.isSuffixOf_iff_suffix.mpr hs]
  rfl

section Runs

variable (hw : Wider limit limit') (fuel : Nat) (options : Options) (paint : Paint)
include hw

theorem widened_programListing (program : Program) :
    Widened .tooDeep (programListing ⟨limit, fuel⟩ options program)
      (programListing ⟨limit', fuel⟩ options program) := by
  have h := program.widened_format hw .plain
  unfold programListing
  by_cases ha : options.has .ast = true
  · rw [if_pos ha, if_pos ha]
    generalize program.format limit .plain = x, program.format limit' .plain = y at h
    cases h with
    | same => exact .same _
    | cut => exact .cut _
  · rw [if_neg ha, if_neg ha]
    exact .same _

theorem outlasts_runProgram (session : Session) (source output : String) (program : Program) :
    (runProgram ⟨limit, fuel⟩ paint options session source output program).Outlasts
      (runProgram ⟨limit', fuel⟩ paint options session source output program) := by
  have hlisting := widened_programListing hw fuel options program
  have hrun := program.widened_run hw fuel session.mode
  unfold runProgram
  generalize programListing ⟨limit, fuel⟩ options program = x,
    programListing ⟨limit', fuel⟩ options program = y at hlisting
  generalize program.run ⟨limit, fuel⟩ session.mode = r,
    program.run ⟨limit', fuel⟩ session.mode = r' at hrun
  cases hlisting with
  | same =>
    cases x with
    | error failure => exact .inr rfl
    | ok listing =>
      cases hrun with
      | same => exact .inr rfl
      | cut => exact .inl (Result.cutShort_failProgram ..)
  | cut => exact .inl (Result.cutShort_failProgram ..)

theorem outlasts_runSource (session : Session) (source : String) :
    (runSource ⟨limit, fuel⟩ paint options session source).Outlasts
      (runSource ⟨limit', fuel⟩ paint options session source) := by
  have h := session.widened_compile hw fuel source
  unfold runSource
  generalize session.compile ⟨limit, fuel⟩ source = x, session.compile ⟨limit', fuel⟩ source = y at h
  dsimp only
  split
  · -- The listing has stopped at a character, whatever the limit is.
    exact .inr rfl
  · cases h with
    | same =>
      cases x with
      | error failure => exact .inr rfl
      | ok program => exact outlasts_runProgram hw fuel options paint session source _ program
    | cut => exact .inl (Result.cutShort_failProgram ..)

end Runs

theorem runLimit_withLimit (env : Environment) {text : String} {n : Nat}
    (h : Text.readInt? (Environment.setting (some text)) = some (n : Int)) (hn : 0 < n) :
    runLimit (env.withLimit text) = max leastLimit n := by
  have hl : (env.withLimit text).nestingLimit = n := Environment.nestingLimit_of_readInt? h hn
  rw [runLimit, hl]

theorem startSession_withLimit (bounds : Bounds) (options : Options) (env : Environment) (disk : Disk)
    (text : String) :
    startSession bounds options (env.withLimit text) disk = startSession bounds options env disk :=
  rfl

theorem paint_withLimit (host : Host) (env : Environment) (options : Options) (text : String) :
    host.paint (env.withLimit text) options = host.paint env options :=
  rfl

/-- The limit that is set decides nothing but the limit of the session and of the program. -/
theorem outlasts_runOptions (host : Host) (fuel : Nat) (env : Environment) (disk : Disk) (options : Options)
    {low high : String} (hle : runLimit (env.withLimit low) ≤ runLimit (env.withLimit high)) :
    (runOptions host fuel (env.withLimit low) disk options).Outlasts
      (runOptions host fuel (env.withLimit high) disk options) := by
  have hw : Wider (some (runLimit (env.withLimit low) - host.frames - 2))
      (some (runLimit (env.withLimit high) - host.frames - 2)) := wider_some (by omega)
  have h := Session.widened_start hw fuel (if options.has .strict then .strict else env.mode)
    (if options.has .prelude then .configured else .none) env disk
  simp only [runOptions, startSession_withLimit, paint_withLimit, Host.bounds, Bounds.inside, remaining_some]
  cases disk.readText options.file with
  | error error => exact .inr rfl
  | ok source =>
    simp only [startSession]
    revert h
    generalize Session.start ⟨some (runLimit (env.withLimit low) - host.frames - 2), fuel⟩ _ _ env disk = x,
      Session.start ⟨some (runLimit (env.withLimit high) - host.frames - 2), fuel⟩ _ _ env disk = y
    intro h
    cases h with
    | same =>
      cases x with
      | error failure => exact .inr rfl
      | ok session => exact outlasts_runSource hw fuel options _ session source
    | cut =>
      -- A prelude that nests too deep is a failure of the start, of which no report is made.
      exact .inl rfl

theorem outlasts_run (host : Host) (fuel : Nat) (env : Environment) (disk : Disk) (arguments : List String)
    {low high : String} (hle : runLimit (env.withLimit low) ≤ runLimit (env.withLimit high))
    (hmax : runLimit (env.withLimit high) ≤ greatestLimit) :
    (run host fuel (env.withLimit low) disk arguments).Outlasts
      (run host fuel (env.withLimit high) disk arguments) := by
  unfold run
  cases parseArguments arguments with
  | error error => exact .inr rfl
  | ok request =>
    cases request with
    | help => exact .inr rfl
    | run options =>
      have hlow : ¬ greatestLimit < runLimit (env.withLimit low) := by omega
      have hhigh : ¬ greatestLimit < runLimit (env.withLimit high) := by omega
      simp only [if_neg hlow, if_neg hhigh]
      exact outlasts_runOptions host fuel env disk options hle

/-- A greater limit on nesting changes no answer. A run of the command line that the limit does not cut short
prints the same on both outputs and ends the same under every greater limit, and so it is with reading a
script and with writing a tree, a definition, a script or a program. -/
theorem greater_limit_keeps_answers :
    (∀ (host : Host) (fuel : Nat) (env : Environment) (disk : Disk) (arguments : List String)
      (low high : String) (m n : Nat), Text.readInt? (Environment.setting (some low)) = some (m : Int) →
      Text.readInt? (Environment.setting (some high)) = some (n : Int) →
      0 < m → m ≤ n → n ≤ 0x7fffffff →
      (run host fuel (env.withLimit low) disk arguments).cutShort = false →
      run host fuel (env.withLimit high) disk arguments =
        run host fuel (env.withLimit low) disk arguments) ∧
    (∀ source : String, Persists .tooDeep fun limit => Script.parse limit source) ∧
    (∀ (p : Palette) (e : Expr), Persists .tooDeep fun limit => e.format limit p) ∧
    (∀ (p : Palette) (d : Definition), Persists .tooDeep fun limit => d.format limit p) ∧
    (∀ (p : Palette) (script : Script), Persists .tooDeep fun limit => script.format limit p) ∧
    (∀ (p : Palette) (t : Term), Persists .tooDeep fun limit => t.format limit p) ∧
    (∀ (p : Palette) (program : Program), Persists .tooDeep fun limit => program.format limit p) := by
  refine ⟨?_, fun source => persists_of_widened fun _ _ hw => Script.widened_parse hw source,
    fun p e => persists_of_widened fun _ _ hw => e.widened_format hw p,
    fun p d => persists_of_widened fun _ _ hw => d.widened_format hw p,
    fun p script => persists_of_widened fun _ _ hw => script.widened_format hw p,
    fun p t => persists_of_widened fun _ _ hw => t.widened_format hw p,
    fun p program => persists_of_widened fun _ _ hw => program.widened_format hw p⟩
  intro host fuel env disk arguments low high m n hm hn hpos hmn hmax hcut
  have hlow := runLimit_withLimit env hm hpos
  have hhigh := runLimit_withLimit env hn (Nat.lt_of_lt_of_le hpos hmn)
  have hle : runLimit (env.withLimit low) ≤ runLimit (env.withLimit high) := by omega
  have hgreatest : runLimit (env.withLimit high) ≤ greatestLimit := by
    rw [hhigh, leastLimit, greatestLimit]
    omega
  rcases outlasts_run host fuel env disk arguments hle hgreatest with h | h
  · rw [h] at hcut
    contradiction
  · exact h

/-- A program that is printed and run with a prelude, and a text that ends too early, under limits that are
written in different ways. -/
theorem greater_limit_keeps_answers_printed :
    let host : Host := ⟨.escaping, 1⟩
    let env := Environment.empty.set "PEANO_PRELUDE_PATH" "lib"
    let disk := (FileSystem.ofFiles [] [("lib/std.peano", some "def one(x) = s(x)".toUTF8),
      ("two", some "one(one(z))".toUTF8)]).toDisk
    let arguments := ["--ast", "--prel", "two"]
    Text.readInt? (Environment.setting (some " 1_200 ")) = some (1200 : Nat) ∧
    Text.readInt? (Environment.setting (some "+90000")) = some (90000 : Nat) ∧
    (run host 30 (env.withLimit " 1_200 ") disk arguments).cutShort = false ∧
    run host 30 (env.withLimit "+90000") disk arguments =
      ⟨.exit 0, "def one(x) = s(x)\none(one(z))\nThe result is 2\n", ""⟩ ∧
    Script.parse (some 5) "s(f(z)" ≠ .error .tooDeep ∧
    Script.parse (some 7) "s(f(z)" = Script.parse (some 5) "s(f(z)" := by
  intro host env disk arguments
  have hm : Text.readInt? (Environment.setting (some " 1_200 ")) = some (1200 : Nat) := by
    decide +kernel
  have hn : Text.readInt? (Environment.setting (some "+90000")) = some (90000 : Nat) := by
    decide +kernel
  have hlow : run host 30 (env.withLimit " 1_200 ") disk arguments =
      ⟨.exit 0, "def one(x) = s(x)\none(one(z))\nThe result is 2\n", ""⟩ := by decide +kernel
  have hcut : (run host 30 (env.withLimit " 1_200 ") disk arguments).cutShort = false := by
    rw [hlow]
    decide +kernel
  have hparse : Script.parse (some 5) "s(f(z)" ≠ .error .tooDeep := by decide +kernel
  refine ⟨hm, hn, hcut, ?_, hparse, ?_⟩
  · rw [← hlow]
    exact greater_limit_keeps_answers.1 host 30 env disk arguments _ _ 1200 90000 hm hn (by decide)
      (by decide) (by decide) hcut
  · exact greater_limit_keeps_answers.2.1 "s(f(z)" 5 7 (by decide) hparse

end CommandLine

end Unary
