import Unary.Disk.Tree
import Unary.Proofs.Demand
import Unary.Proofs.Faults
import Unary.Proofs.Nesting
import Unary.Proofs.Replay

/-!
The command line beside a session.

A run does on its own what a session does when it evaluates the text of the file, and may scan the whole text
before that. The scan fails only on a text that the session refuses, so a run prints the value that the session
finds as its last line, and reports what the session fails with. No row of the token listing can be taken for
such a line. A run is two frames deeper in the host's stack than what it is called from, so a session that is used
from there can still read what the run finds too deep.
-/

namespace Unary

namespace Text

theorem isBlank_of_isLineBreak {c : Char} (h : isLineBreak c = true) : isBlank c = true := by
  simp only [isLineBreak, Bool.or_eq_true, Bool.and_eq_true, decide_eq_true_eq, beq_iff_eq] at h
  simp only [isBlank, Bool.or_eq_true, Bool.and_eq_true, decide_eq_true_eq, beq_iff_eq]
  omega

theorem isLineBreak_of_isBlank {c : Char} (h : isBlank c = false) : isLineBreak c = false := by
  by_contra hc
  rw [Bool.not_eq_false] at hc
  rw [isBlank_of_isLineBreak hc] at h
  cases h

theorem isBlank_of_isAlphanum {c : Char} (h : c.isAlphanum = true) : isBlank c = false := by
  by_contra hc
  rw [Bool.not_eq_false] at hc
  rw [isAlphanum_of_isBlank hc] at h
  cases h

theorem forall_eq_false_of_all {p : Char → Bool} {cs : List Char}
    (h : cs.all (fun c => !p c) = true) : ∀ c ∈ cs, p c = false := by
  simpa using h

theorem linesFrom_append {row : List Char} (hrow : ∀ c ∈ row, isLineBreak c = false)
    (line rest : List Char) :
    linesFrom line (row ++ '\n' :: rest) = (line.reverse ++ row) :: linesFrom [] rest := by
  induction row generalizing line with
  | nil => simp [linesFrom, isLineBreak]
  | cons c row ih =>
    have hc : isLineBreak c = false := hrow c List.mem_cons_self
    -- A carriage return is a break by itself, so none can make a pair with the newline.
    have hne : c ≠ '\r' := by
      rintro rfl
      exact absurd hc (by decide)
    rw [List.cons_append, linesFrom, if_neg (by simp [hc])]
    · rw [ih fun d hd => hrow d (List.mem_cons_of_mem c hd)]
      simp
    · exact fun _ h => absurd h hne

/-- The lines of rows that are each ended by a newline are the rows. -/
theorem lines_flatMap_newline {rows : List (List Char)}
    (hrows : ∀ row ∈ rows, ∀ c ∈ row, isLineBreak c = false) :
    lines (rows.flatMap (· ++ ['\n'])) = rows := by
  induction rows with
  | nil => rfl
  | cons row rows ih =>
    have hrest := ih fun row' h => hrows row' (List.mem_cons_of_mem row h)
    rw [List.flatMap_cons, List.append_assoc, lines, List.singleton_append,
      linesFrom_append (hrows row List.mem_cons_self)]
    exact congrArg (row :: ·) hrest

theorem trimEnd_prefix (cs : List Char) : trimEnd cs <+: cs := by
  rw [← List.reverse_suffix, trimEnd, List.reverse_reverse]
  exact List.dropWhile_suffix _

/-- Trimming takes nothing of a text without blanks that comes before another. -/
theorem prefix_trimEnd {a : List Char} (ha : ∀ c ∈ a, isBlank c = false) (b : List Char) :
    a <+: trimEnd (a ++ b) := by
  have hdrop : a.reverse.dropWhile isBlank = a.reverse := by
    cases hr : a.reverse with
    | nil => rfl
    | cons c cs =>
      have hc : isBlank c = false := ha c (List.mem_reverse.mp (hr ▸ List.mem_cons_self))
      rw [List.dropWhile_cons_of_neg (by simp [hc])]
  rw [trimEnd, List.reverse_append, List.dropWhile_append]
  split
  · refine ⟨[], ?_⟩
    rw [hdrop, List.reverse_reverse, List.append_nil]
  · rw [List.reverse_append, List.reverse_reverse]
    exact List.prefix_append _ _

end Text

theorem Token.isBlank_label (t : Token) : ∀ c ∈ t.label.toList, Text.isBlank c = false := by
  cases t with
  | ident name =>
    show ∀ c ∈ "ident".toList, Text.isBlank c = false
    exact Text.forall_eq_false_of_all rfl
  | _ => exact Text.forall_eq_false_of_all rfl

theorem isAlphanum_of_isWord {word : List Char} (h : isWord word = true) :
    ∀ c ∈ word, c.isAlphanum = true := by
  cases word with
  | nil => cases h
  | cons c tail =>
    obtain ⟨hc, ht⟩ : c.isAlpha = true ∧ ∀ a ∈ tail, a.isAlphanum = true := by
      simpa [isWord] using h
    intro d hd
    rcases List.mem_cons.mp hd with rfl | hd
    · simp [Char.isAlphanum, hc]
    · exact ht d hd

/-- The text of a token has no blanks, an identifier being a name. -/
theorem Lexeme.Named.isBlank_text {l : Lexeme} (h : l.Named) :
    ∀ c ∈ l.token.text.toList, Text.isBlank c = false := by
  cases ht : l.token with
  | ident name =>
    intro c hc
    exact Text.isBlank_of_isAlphanum (isAlphanum_of_isWord (isWord_of_isName (h name ht)) c hc)
  | _ => exact Text.forall_eq_false_of_all rfl

theorem Stream.named_ofChars (source : List Char) : ∀ l ∈ (ofChars source).lexemes, l.Named :=
  forall_mem_ofOffset (fun _ _ _ _ => Scan.named_of_next) 0 source

theorem Text.append_ne_empty {a : String} (h : a ≠ "") (b : String) : a ++ b ≠ "" := by
  intro hab
  exact h (String.append_eq_empty_iff.mp hab).1

theorem Text.append_ne_empty_right {b : String} (h : b ≠ "") (a : String) : a ++ b ≠ "" := by
  intro hab
  exact h (String.append_eq_empty_iff.mp hab).2

section Messages

open Text

theorem ReadError.message_ne_empty (e : ReadError) : e.message ≠ "" :=
  append_ne_empty (append_ne_empty (append_ne_empty (append_ne_empty_right (by decide) _) _) _) _

theorem Fault.message_ne_empty : ∀ fault : Fault, fault.message ≠ ""
  | unbound _ | unknownFunction _ | notTerm _ => append_ne_empty (by decide) _
  | arity (some _) _ _ | arity none _ _ => append_ne_empty (append_ne_empty_right (by decide) _) _

theorem FileError.message_ne_empty (error : FileError) : error.message ≠ "" := by
  cases error with
  | fault cause path => cases cause <;> exact append_ne_empty (by decide) _
  | isDirectory path => exact append_ne_empty (by decide) _
  | _ => exact of_decide_eq_true rfl

/-- No failure is without words. -/
theorem Failure.message_ne_empty : ∀ failure : Failure, failure.message ≠ ""
  | read error => error.message_ne_empty
  | eval fault => fault.message_ne_empty
  | file error => error.message_ne_empty
  | notExpr _ | notNatural _ => append_ne_empty (by decide) _
  | tooDeep | stuck | unfinished => by decide

theorem Notice.message_ofFailure (failure : Failure) : (ofFailure failure).message = failure.message := by
  cases failure <;> rfl

/-- The words of a failure are reported as they are, whatever styles are painted as. -/
theorem Report.messageChars_ne_nil (failure : Failure) : messageChars (.ofFailure failure) ≠ [] := by
  have hwords : (Notice.ofFailure failure).message.toList ≠ [] := by
    rw [Notice.message_ofFailure]
    exact mt String.toList_eq_nil_iff.mp failure.message_ne_empty
  rw [messageChars]
  split
  · exact hwords
  · exact List.append_ne_nil_of_right_ne_nil _ hwords

end Messages

theorem Report.render_ne_empty (paint : Paint) (failure : Failure) (source path : Option String) :
    render paint (.ofFailure failure) source path ≠ "" := by
  intro h
  have hchars : renderChars paint (.ofFailure failure) source path = [] := String.ofList_eq_empty_iff.mp h
  unfold renderChars at hchars
  rw [List.append_eq_nil_iff, List.append_eq_nil_iff] at hchars
  exact messageChars_ne_nil failure hchars.1.2

namespace Session

variable {bounds : Bounds} {s : Session} {source : String}

/-- The value of an evaluation is that of the compiled program. -/
theorem fst_eval (bounds : Bounds) (s : Session) (source : String) :
    (s.eval bounds source).1 =
      s.compile bounds source >>= fun program => program.run (bounds.inside 1) s.mode := by
  rw [eval_fst, outcome, compile]
  cases s.extend (bounds.inside 1) source with
  | error failure => rfl
  | ok script =>
    simp only [bind, Except.bind]
    cases Program.ofScript (bounds.inside 1) s.mode script with
    | error failure => rfl
    | ok program =>
      simp only
      cases program.run (bounds.inside 1) s.mode with
      | error failure => rfl
      | ok value => rfl

theorem wellFormed_after (hs : s.definitions.all Definition.wellFormed = true) {script : Script}
    (h : script.wellFormed = true) : (script.after s.definitions).wellFormed = true := by
  obtain ⟨hds, hr⟩ := Script.wellFormed_iff.mp h
  refine Script.wellFormed_iff.mpr ⟨?_, hr⟩
  rw [Script.after, List.all_append, hs, hds]
  rfl

/-- What is compiled after definitions that can be written can be written. -/
theorem faithful_of_compile (hs : s.definitions.all Definition.wellFormed = true) {program : Program}
    (h : s.compile bounds source = .ok program) : program.Faithful := by
  obtain ⟨whole, hextend, hp⟩ := bind_eq_ok_iff.mp h
  obtain ⟨script, hread, rfl⟩ := map_eq_ok_iff.mp hextend
  have hw := wellFormed_after hs (Script.wellFormed_of_parse (Script.parse_of_read hread))
  exact Program.faithful_of_ofScript hw hp

end Session

namespace CommandLine

/-- What a run says of a value. -/
def answer : Option Nat → String
  | none => "the program has no final expression"
  | some n => "The result is " ++ toString n

theorem answer_none : answer none = "the program has no final expression" := rfl

theorem answer_some (n : Nat) : answer (some n) = "The result is " ++ toString n := rfl

theorem resultLine_eq (value : Option Nat) : resultLine value = answer value ++ "\n" := by
  cases value <;> rfl

theorem isLineBreak_answer (value : Option Nat) :
    ∀ c ∈ (answer value).toList, Text.isLineBreak c = false := by
  cases value with
  | none => exact Text.forall_eq_false_of_all rfl
  | some n =>
    intro c hc
    rw [answer_some, String.toList_append, List.mem_append] at hc
    rcases hc with hc | hc
    · exact Text.forall_eq_false_of_all rfl c hc
    · rw [Nat.toString_eq_repr, Nat.toList_repr] at hc
      have hd : c.isDigit = true := Nat.isDigit_of_mem_toDigits (by decide) (by decide) hc
      have ha : c.isAlphanum = true := by simp [Char.isAlphanum, hd]
      exact Text.isLineBreak_of_isBlank (Text.isBlank_of_isAlphanum ha)

/-- The characters of a row of the token listing. -/
def rowChars (label text : String) : List Char :=
  Text.trimEnd (label.toList.rightpad 8 ' ' ++ ' ' :: text.toList)

theorem tokenRow_toList (label text : String) :
    (tokenRow label text).toList = rowChars label text ++ ['\n'] := by
  simp [tokenRow, rowChars]

/-- A line that is no answer. -/
structure IsRow (row : List Char) : Prop where
  unbroken : ∀ c ∈ row, Text.isLineBreak c = false
  noAnswer : ∀ value, row ≠ (answer value).toList

/-- A row with a label that no answer starts with is no answer. -/
theorem isRow_rowChars {label text : String} (hl : ∀ c ∈ label.toList, Text.isBlank c = false)
    (ht : ∀ c ∈ text.toList, Text.isBlank c = false)
    (hne : ∀ value, ¬ label.toList <+: (answer value).toList) : IsRow (rowChars label text) := by
  constructor
  · intro c hc
    have hmem := (Text.trimEnd_prefix _).subset hc
    simp only [List.rightpad, List.mem_append, List.mem_cons, List.mem_replicate] at hmem
    rcases hmem with (hmem | ⟨-, rfl⟩) | rfl | hmem
    · exact Text.isLineBreak_of_isBlank (hl c hmem)
    · rfl
    · rfl
    · exact Text.isLineBreak_of_isBlank (ht c hmem)
  · intro value h
    have hstart : label.toList <+: rowChars label text := by
      rw [rowChars, List.rightpad, List.append_assoc]
      exact Text.prefix_trimEnd hl _
    rw [h] at hstart
    exact hne value hstart

/-- The rows of the token listing. -/
def tokenRows (stream : Stream) : List (List Char) :=
  stream.lexemes.map (fun l => rowChars l.token.label l.token.text) ++
    match stream.ending with
    | .finish _ => [rowChars "end" ""]
    | .unexpected _ _ => []

theorem tokenListing_toList (stream : Stream) :
    (tokenListing stream).toList = (tokenRows stream).flatMap (· ++ ['\n']) := by
  rw [tokenListing, tokenRows]
  cases stream.ending <;> simp [String.toList_join, List.flatMap_map, tokenRow_toList]

theorem not_label_prefix_answer (t : Token) (value : Option Nat) :
    ¬ t.label.toList <+: (answer value).toList := by
  cases value <;> cases t <;> simp [Token.label, answer_none, answer_some]

theorem isRow_of_mem_tokenRows (source : List Char) :
    ∀ row ∈ tokenRows (.ofChars source), IsRow row := by
  intro row hrow
  rw [tokenRows, List.mem_append, List.mem_map] at hrow
  rcases hrow with ⟨l, hl, rfl⟩ | hrow
  · exact isRow_rowChars l.token.isBlank_label (Stream.named_ofChars source l hl).isBlank_text
      (not_label_prefix_answer l.token)
  · cases he : (Stream.ofChars source).ending with
    | unexpected c offset => simp [he] at hrow
    | finish offset =>
      obtain rfl : row = rowChars "end" "" := by simpa [he] using hrow
      refine isRow_rowChars (Text.forall_eq_false_of_all rfl) (Text.forall_eq_false_of_all rfl)
        fun value => ?_
      cases value <;> simp [answer_none, answer_some]

/-- What a run prints before it compiles a source. -/
def listing (options : Options) (source : String) : String :=
  if options.has .tokens then tokenListing (Stream.ofChars source.toList) else ""

/-- Whether an output is made of lines none of which is an answer. -/
def Unanswered (output : String) : Prop :=
  ∃ rows : List (List Char), output.toList = rows.flatMap (· ++ ['\n']) ∧ ∀ row ∈ rows, IsRow row

theorem unanswered_empty : Unanswered "" :=
  ⟨[], rfl, by simp⟩

theorem unanswered_listing (options : Options) (source : String) :
    Unanswered (listing options source) := by
  rw [listing]
  split
  · exact ⟨_, tokenListing_toList _, isRow_of_mem_tokenRows source.toList⟩
  · exact unanswered_empty

/-- The lines of what a run prints. -/
def Result.lines (r : Result) : List String :=
  (Text.lines r.output.toList).map String.ofList

/-- A run that reports a failure and prints no answer. -/
structure Result.IsReport (r : Result) : Prop where
  status : r.status = .exit 1
  report : ∃ report, report ≠ "" ∧ r.errors = report ++ "\n"
  noFinal : "the program has no final expression" ∉ r.lines
  noResult : ∀ n : Nat, "The result is " ++ toString n ∉ r.lines

theorem getLast?_lines_of_unanswered {output : String} (h : Unanswered output) (value : Option Nat)
    (status : Status) (errors : String) :
    (Result.mk status (output ++ resultLine value) errors).lines.getLast? = some (answer value) := by
  obtain ⟨rows, hrows, hspec⟩ := h
  have houtput : (output ++ resultLine value).toList =
      (rows ++ [(answer value).toList]).flatMap (· ++ ['\n']) := by
    simp [hrows, resultLine_eq]
  have hbreaks : ∀ row ∈ rows ++ [(answer value).toList], ∀ c ∈ row, Text.isLineBreak c = false := by
    intro row hrow
    rcases List.mem_append.mp hrow with hrow | hrow
    · exact (hspec row hrow).unbroken
    · rw [List.mem_singleton.mp hrow]
      exact isLineBreak_answer value
  rw [Result.lines, houtput, Text.lines_flatMap_newline hbreaks]
  simp

theorem isReport_fail {output : String} (h : Unanswered output) (paint : Paint) (failure : Failure)
    (source path : Option String) :
    (fail output (Report.render paint (.ofFailure failure) source path)).IsReport := by
  obtain ⟨rows, hrows, hspec⟩ := h
  have hlines : Text.lines output.toList = rows := by
    rw [hrows]
    exact Text.lines_flatMap_newline fun row hrow => (hspec row hrow).unbroken
  have hanswer : ∀ value, answer value ∉
      (fail output (Report.render paint (.ofFailure failure) source path)).lines := by
    intro value hmem
    rw [Result.lines, fail, hlines, List.mem_map] at hmem
    obtain ⟨row, hrow, hvalue⟩ := hmem
    refine (hspec row hrow).noAnswer value ?_
    rw [← hvalue, String.toList_ofList]
  exact ⟨rfl, ⟨_, Report.render_ne_empty paint failure source path, rfl⟩, hanswer none,
    fun n => hanswer (some n)⟩

theorem failProgram_spec {output : String} (h : Unanswered output) (paint : Paint)
    (file source : String) {failure : Failure}
    (hf : isProgramError failure = true ∨ failure = .tooDeep) :
    (failProgram paint file source output failure).IsReport ∧
      (failProgram paint file source output failure).output = output := by
  rw [failProgram]
  rcases hf with hf | rfl
  · simp only [if_pos hf]
    exact ⟨isReport_fail h .., rfl⟩
  · exact ⟨isReport_fail h .., rfl⟩

/-- How a run ends that has printed some output and come to a value or a failure. -/
def conclude (paint : Paint) (file source output : String) : Except Failure (Option Nat) → Result
  | .error failure => failProgram paint file source output failure
  | .ok value => ⟨.exit 0, output ++ resultLine value, ""⟩

section Runs

variable {bounds : Bounds} {options : Options} {source : String} {failure : Failure}

theorem checkEnding_of_read {script : Script} (h : Script.read bounds source = .ok script) :
    checkEnding source.toList (Stream.ofChars source.toList).ending = .ok () := by
  obtain ⟨last, offset, -, he, -⟩ :=
    Script.ofStream_eq_ok_iff.mp (mapError_eq_ok_iff.mp (Script.parse_of_read h))
  rw [he]
  rfl

theorem isProgramError_of_checkEnding {text : List Char} {ending : Ending}
    (h : checkEnding text ending = .error failure) : isProgramError failure = true := by
  cases ending with
  | finish offset => cases h
  | unexpected c offset =>
    cases h
    rfl

theorem isProgramError_or_tooDeep_of_read (h : Script.read bounds source = .error failure) :
    isProgramError failure = true ∨ failure = .tooDeep := by
  rw [Script.read] at h
  split at h
  · cases h
    exact .inr rfl
  · obtain ⟨cause, -, rfl⟩ := mapError_eq_error_iff.mp h
    cases cause with
    | read e => exact .inl rfl
    | tooDeep => exact .inr rfl

theorem runProgram_eq (hast : options.has .ast = false) (paint : Paint) (s : Session)
    (output : String) (program : Program) :
    runProgram bounds paint options s source output program =
      conclude paint options.file source output (program.run bounds s.mode) := by
  have hlisting : programListing bounds options program = .ok "" := by
    rw [programListing, hast]
    rfl
  simp only [runProgram, hlisting, String.append_empty]
  cases program.run bounds s.mode with
  | error failure => rfl
  | ok value => rfl

/-- A text that is read is compiled after the tokens are printed. -/
theorem runSource_eq {script : Script} (h : Script.read (bounds.inside 1) source = .ok script)
    (options : Options) (paint : Paint) (s : Session) :
    runSource bounds paint options s source =
      match s.compile bounds source with
      | .error failure => failProgram paint options.file source (listing options source) failure
      | .ok program => runProgram bounds paint options s source (listing options source) program := by
  have hcheck : (if options.has .tokens then
      checkEnding source.toList (Stream.ofChars source.toList).ending else .ok ()) = .ok () := by
    rw [checkEnding_of_read h, ite_self]
  simp only [runSource, hcheck]
  rfl

/-- A run of a text that is read prints the tokens, and then does what the session does. It is one frame less deep
when it comes to the final term, which makes no difference to what was read. -/
theorem runSource_of_read {script : Script} (h : Script.read (bounds.inside 1) source = .ok script)
    (hast : options.has .ast = false) (paint : Paint) {s : Session}
    (hs : s.definitions.all Definition.wellFormed = true) :
    runSource bounds paint options s source =
      conclude paint options.file source (listing options source) (s.eval bounds source).1 := by
  rw [Session.fst_eval, runSource_eq h]
  cases hcompile : s.compile bounds source with
  | error failure => rfl
  | ok program =>
    have hfaithful := Session.faithful_of_compile hs hcompile
    have hrun : program.run bounds s.mode = program.run (bounds.inside 1) s.mode :=
      (hfaithful.run_limit s.mode bounds.depth bounds.fuel).trans
        (hfaithful.run_limit s.mode (remaining bounds.depth 1) bounds.fuel).symm
    rw [show (Except.ok program >>= fun program => program.run (bounds.inside 1) s.mode) =
      program.run (bounds.inside 1) s.mode from rfl, ← hrun]
    exact runProgram_eq hast paint s _ program

/-- A run of a text that is not read fails with an error of the program, or as too deep. -/
theorem exists_failProgram_of_read (h : Script.read (bounds.inside 1) source = .error failure)
    (paint : Paint) (s : Session) :
    ∃ cause, (isProgramError cause = true ∨ cause = .tooDeep) ∧
      runSource bounds paint options s source =
        failProgram paint options.file source (listing options source) cause := by
  have hcompile : s.compile bounds source = .error failure := by
    rw [Session.compile, Session.extend, h]
    rfl
  simp only [runSource, hcompile]
  split
  next cause hcheck =>
    refine ⟨cause, .inl ?_, rfl⟩
    split at hcheck
    · exact isProgramError_of_checkEnding hcheck
    · cases hcheck
  next => exact ⟨failure, isProgramError_or_tooDeep_of_read h, rfl⟩

theorem eval_of_read_error (h : Script.read (bounds.inside 1) source = .error failure) (s : Session) :
    (s.eval bounds source).1 = .error failure := by
  rw [Session.eval_fst, Session.outcome, Session.extend, h]
  rfl

variable {s : Session} (hs : s.definitions.all Definition.wellFormed = true) (hast : options.has .ast = false)
  (paint : Paint)
include hs hast

theorem runSource_of_eval {value : Option Nat} (h : (s.eval bounds source).1 = .ok value) :
    runSource bounds paint options s source =
      ⟨.exit 0, listing options source ++ resultLine value, ""⟩ := by
  cases hread : Script.read (bounds.inside 1) source with
  | error failure =>
    rw [eval_of_read_error hread] at h
    cases h
  | ok script =>
    rw [runSource_of_read hread hast paint hs, h]
    rfl

/-- A run reports a failure if the evaluation has one that is reported. -/
theorem runSource_of_eval_error (h : (s.eval bounds source).1 = .error failure)
    (hf : isProgramError failure = true ∨ failure = .tooDeep) :
    (runSource bounds paint options s source).IsReport ∧
      (runSource bounds paint options s source).output = listing options source := by
  have hl := unanswered_listing options source
  cases hread : Script.read (bounds.inside 1) source with
  | error _ =>
    -- The listing may have stopped at a character before the text was compiled.
    obtain ⟨cause, hc, hr⟩ := exists_failProgram_of_read hread paint s
    rw [hr]
    exact failProgram_spec hl paint _ _ hc
  | ok script =>
    rw [runSource_of_read hread hast paint hs, h]
    exact failProgram_spec hl paint _ _ hf

theorem runSource_of_unfinished (h : (s.eval bounds source).1 = .error .unfinished) :
    (runSource bounds paint options s source).status = .failure .unfinished := by
  cases hread : Script.read (bounds.inside 1) source with
  | error cause =>
    rw [eval_of_read_error hread] at h
    cases h
    rcases isProgramError_or_tooDeep_of_read hread with h | h <;> cases h
  | ok script =>
    rw [runSource_of_read hread hast paint hs, h]
    rfl

end Runs

section Hosts

variable {host : Host} {fuel : Nat} {env : Environment} {disk : Disk} {options : Options} {source : String}

theorem run_eq_runOptions (host : Host) (fuel : Nat) (env : Environment) (disk : Disk)
    {arguments : List String} {options : Options}
    (hargs : parseArguments arguments = .ok (.run options)) (hlimit : env.nestingLimit ≤ 0x7fffffff) :
    run host fuel env disk arguments = runOptions host fuel env disk options := by
  have hle : ¬ greatestLimit < runLimit env := by
    rw [greatestLimit, runLimit, leastLimit]
    omega
  simp only [run, hargs, if_neg hle]

theorem runOptions_of_start {s : Session} (hsource : disk.readText options.file = .ok source)
    (hs : startSession ((host.bounds env fuel).inside 2) options env disk = .ok s) :
    runOptions host fuel env disk options =
      runSource ((host.bounds env fuel).inside 2) (host.paint env options) options s source := by
  simp only [runOptions, hsource, hs]

theorem runOptions_of_start_error {failure : Failure} (hsource : disk.readText options.file = .ok source)
    (hs : startSession ((host.bounds env fuel).inside 2) options env disk = .error failure)
    (hf : isProgramError failure = true ∨ isFileError failure = true) :
    (runOptions host fuel env disk options).IsReport ∧
      (runOptions host fuel env disk options).output = "" := by
  have hor : (isProgramError failure || isFileError failure) = true := by simpa using hf
  simp only [runOptions, hsource, hs, if_pos hor]
  exact ⟨isReport_fail unanswered_empty .., rfl⟩

/-- A run beside a session that is used with at most the frames taken that the run has taken itself. If they are
the same, or the limit does not cut the run short, the run starts as the session does and does with its source what a
run within the bounds of the session would do. -/
theorem runOptions_beside_session (hsource : disk.readText options.file = .ok source) {frames : Nat}
    (hframes : frames ≤ host.frames + 2) :
    let bounds : Bounds := ⟨some (runLimit env - frames), fuel⟩
    let r := runOptions host fuel env disk options
    frames = host.frames + 2 ∨ r.cutShort = false →
      (∀ s, startSession bounds options env disk = .ok s →
        r = runSource bounds (host.paint env options) options s source) ∧
      ∀ failure, startSession bounds options env disk = .error failure →
        startSession ((host.bounds env fuel).inside 2) options env disk = .error failure := by
  intro bounds r h
  rcases Nat.lt_or_ge frames (host.frames + 2) with hlt | hge
  · have hcut : r.cutShort = false := h.resolve_left (Nat.ne_of_lt hlt)
    have hw : Wider (some (runLimit env - host.frames - 2)) (some (runLimit env - frames)) :=
      wider_some (by omega)
    have hinside : (host.bounds env fuel).inside 2 = ⟨some (runLimit env - host.frames - 2), fuel⟩ := rfl
    have hstart : Widened .tooDeep (startSession ((host.bounds env fuel).inside 2) options env disk)
        (startSession bounds options env disk) := Session.widened_start hw fuel _ _ env disk
    have hne : startSession ((host.bounds env fuel).inside 2) options env disk ≠ .error .tooDeep := by
      intro hdeep
      have hr : r = ⟨.failure .tooDeep, "", ""⟩ := by
        simp only [r, runOptions, hsource, hdeep]
        rfl
      rw [hr] at hcut
      cases hcut
    have hsame := hstart.eq hne
    refine ⟨fun s hs => ?_, fun failure hs => hsame.symm.trans hs⟩
    have hr : r = runSource _ (host.paint env options) options s source :=
      runOptions_of_start hsource (hsame.symm.trans hs)
    rcases outlasts_runSource hw fuel options (host.paint env options) s source with hshort | hlonger
    · rw [← hinside, ← hr, hcut] at hshort
      cases hshort
    · rw [hr, hinside, hlonger]
  · obtain rfl : frames = host.frames + 2 := Nat.le_antisymm hframes hge
    have hinside : (host.bounds env fuel).inside 2 = bounds := by
      simp only [Host.bounds, Bounds.inside, remaining_some, bounds, Nat.sub_sub]
    rw [← hinside]
    exact ⟨fun s hs => runOptions_of_start hsource hs, fun failure hs => hs⟩

end Hosts

/-- The command line agrees with a session that is started with the same prelude and mode and evaluates the
text of the file under the same limit, with the frames of the run taken: the run prints the value that the session
finds as its last line, reports what the evaluation or the start fails with, and goes on for as long as the session
does. With fewer frames taken the session has more room than the run, and they agree if the limit does not cut
the run short. -/
theorem run_agrees_with_session (host : Host) (fuel : Nat) (env : Environment) (disk : Disk)
    (arguments : List String) (options : Options) (source : String)
    (hargs : parseArguments arguments = .ok (.run options))
    (hast : options.has .ast = false) (hlimit : env.nestingLimit ≤ 0x7fffffff)
    (hsource : disk.readText options.file = .ok source) (frames : Nat)
    (hframes : frames ≤ host.frames + 2) :
    let bounds : Bounds := ⟨some (runLimit env - frames), fuel⟩
    let started := Session.start bounds (if options.has .strict then .strict else env.mode)
      (if options.has .prelude then .configured else .none) env disk
    let r := run host fuel env disk arguments
    frames = host.frames + 2 ∨ r.cutShort = false →
    (∀ s, started = .ok s →
      (∀ n s', s.eval bounds source = (.ok (some n), s') →
        r.status = .exit 0 ∧ r.lines.getLast? = some ("The result is " ++ toString n)) ∧
      (∀ s', s.eval bounds source = (.ok none, s') →
        r.status = .exit 0 ∧ r.lines.getLast? = some "the program has no final expression") ∧
      (∀ failure, (s.eval bounds source).1 = .error failure →
        isProgramError failure = true ∨ failure = .tooDeep →
        r.IsReport ∧ (options.has .tokens = false → r.output = "")) ∧
      ((s.eval bounds source).1 = .error .unfinished → r.status = .failure .unfinished)) ∧
    ∀ failure, started = .error failure →
      isProgramError failure = true ∨ isFileError failure = true → r.IsReport ∧ r.output = "" := by
  intro bounds started r hroom
  have hrun : r = runOptions host fuel env disk options := run_eq_runOptions host fuel env disk hargs hlimit
  obtain ⟨hstarted, hfailed⟩ := runOptions_beside_session hsource hframes (hrun ▸ hroom)
  refine ⟨fun s hs => ?_, fun failure hs hf => ?_⟩
  · have hw : s.definitions.all Definition.wellFormed = true := Session.wellFormed_definitions_after hs []
    have hunanswered := unanswered_listing options source
    rw [hrun, hstarted s hs]
    refine ⟨fun n s' h => ?_, fun s' h => ?_, fun failure h hf => ?_, fun h => ?_⟩
    · rw [runSource_of_eval hw hast _ (congrArg Prod.fst h)]
      exact ⟨rfl, getLast?_lines_of_unanswered hunanswered (some n) _ _⟩
    · rw [runSource_of_eval hw hast _ (congrArg Prod.fst h)]
      exact ⟨rfl, getLast?_lines_of_unanswered hunanswered none _ _⟩
    · obtain ⟨hreport, houtput⟩ := runSource_of_eval_error hw hast (host.paint env options) h hf
      refine ⟨hreport, fun htokens => ?_⟩
      rw [houtput, listing, htokens]
      rfl
    · exact runSource_of_unfinished hw hast _ h
  · rw [hrun]
    exact runOptions_of_start_error hsource (hfailed failure hs) hf

/-- A call of a function of the prelude, with the frames of the run taken, and a text that the session refuses at
the parenthesis while the listing stops at the mark after it, with fewer frames taken. -/
theorem run_agrees_with_session_listed :
    let host : Host := ⟨.escaping, 1⟩
    let env := Environment.empty.set "PEANO_PRELUDE_PATH" "lib"
    let disk := (FileSystem.ofFiles [] [("lib/std.peano", some "def one(x) = s(x)".toUTF8),
      ("two", some "one(one(z))".toUTF8), ("bad", some "z ) ?".toUTF8)]).toDisk
    let s : Session := ⟨.strict, [.function "one" ["x"] (.succ (.var "x"))],
      ⟨⟨[("one", ⟨["x"], .succ (.var "x")⟩)]⟩, .empty, none⟩⟩
    let inside : Bounds := ⟨some (runLimit env - 3), 30⟩
    let outside : Bounds := ⟨some (runLimit env - 1), 30⟩
    let flags := [Flag.tokens, .strict, .prelude]
    Session.start inside .strict .configured env disk = .ok s ∧
    parseArguments ["--tok", "--strict", "--prelude", "two"] = .ok (.run ⟨"two", flags⟩) ∧
    (∃ s', s.eval inside "one(one(z))" = (.ok (some 2), s')) ∧
    (run host 30 env disk ["--tok", "--strict", "--prelude", "two"]).lines.getLast? =
      some "The result is 2" ∧
    Session.start outside .strict .configured env disk = .ok s ∧
    parseArguments ["--tok", "--strict", "bad", "--prelude"] = .ok (.run ⟨"bad", flags⟩) ∧
    s.eval outside "z ) ?" = (.error (.read ⟨.expected .ending (some .rparen), 2, ⟨1, 3⟩⟩), s) ∧
    (run host 30 env disk ["--tok", "--strict", "bad", "--prelude"]).cutShort = false ∧
    (run host 30 env disk ["--tok", "--strict", "bad", "--prelude"]).IsReport := by
  intro host env disk s inside outside flags
  have hinside : Session.start inside .strict .configured env disk = .ok s := by decide +kernel
  have houtside : Session.start outside .strict .configured env disk = .ok s := by decide +kernel
  have htwo : parseArguments ["--tok", "--strict", "--prelude", "two"] = .ok (.run ⟨"two", flags⟩) := by
    decide +kernel
  have hbad : parseArguments ["--tok", "--strict", "bad", "--prelude"] = .ok (.run ⟨"bad", flags⟩) := by
    decide +kernel
  have heval : s.eval inside "one(one(z))" = (.ok (some 2), ⟨.strict, s.definitions,
      ⟨s.program.functions, .empty, some (.call "one" [.call "one" [.zero]])⟩⟩) := by decide +kernel
  have herror : s.eval outside "z ) ?" =
      (.error (.read ⟨.expected .ending (some .rparen), 2, ⟨1, 3⟩⟩), s) := by decide +kernel
  have hcut : (run host 30 env disk ["--tok", "--strict", "bad", "--prelude"]).cutShort = false := by
    decide +kernel
  obtain ⟨hvalue, -⟩ := (run_agrees_with_session host 30 env disk _ _ "one(one(z))" htwo rfl
    (by decide +kernel) (by decide +kernel) 3 (by decide) (.inl rfl)).1 s hinside
  obtain ⟨-, -, hreport, -⟩ := (run_agrees_with_session host 30 env disk _ _ "z ) ?" hbad rfl
    (by decide +kernel) (by decide +kernel) 1 (by decide) (.inr hcut)).1 s houtside
  exact ⟨hinside, htwo, ⟨_, heval⟩, (hvalue 2 _ heval).2, houtside, hbad, herror, hcut,
    (hreport _ (congrArg Prod.fst herror) (.inl rfl)).1⟩

section Nested

/-- Calls of one name around an expression. -/
def nestedCalls : Nat → Expr → Expr
  | 0, e => e
  | n + 1, e => nestedCalls n (.call "f" [e])

theorem nestedCalls_succ (n : Nat) (e : Expr) : nestedCalls (n + 1) e = .call "f" [nestedCalls n e] := by
  induction n generalizing e with
  | zero => rfl
  | succ n ih => exact ih (.call "f" [e])

theorem write_nestedCalls (n : Nat) (e : Expr) :
    (nestedCalls n e).write .plain = Text.nested n ['f', '('] (e.write .plain) := by
  induction n generalizing e with
  | zero => exact (Text.nested_zero _ _).symm
  | succ n ih =>
    have hcall : (Expr.call "f" [e]).write .plain = ['f', '('] ++ e.write .plain ++ [')'] := by
      have hinner : e.writeInside .plain 0 [')'] = e.write .plain ++ [')'] :=
        (Expr.write_append .plain e [')']).symm
      exact congrArg (['f', '('] ++ ·) hinner
    rw [nestedCalls, ih, hcall, Text.nested_succ]

theorem wellFormed_nestedCalls (n : Nat) {e : Expr} (he : e.wellFormed = true) :
    (nestedCalls n e).wellFormed = true := by
  induction n generalizing e with
  | zero => exact he
  | succ n ih => exact ih (Expr.wellFormed_call_iff.mpr ⟨rfl, by simp, by simp [Expr.allWellFormed, he]⟩)

/-- Each call nests two deeper. -/
theorem nestingFrom_nestedCalls (n : Nat) {k : Nat} {e : Expr}
    (he : ∀ depth inRun, e.nestingFrom depth inRun = depth + k) (depth : Nat) (inRun : Bool) :
    (nestedCalls n e).nestingFrom depth inRun = depth + (k + 2 * n) := by
  induction n generalizing k e with
  | zero => exact he depth inRun
  | succ n ih =>
    rw [nestedCalls, ih (k := k + 2) fun depth inRun => ?_]
    · omega
    · rw [Expr.nestingFrom, Expr.nestingAll, Expr.nestingAll, he]
      omega

/-- The text of nested calls. -/
def nestedText (n : Nat) : String :=
  String.ofList (Text.nested n ['f', '('] ['z'])

theorem parse_nestedText (n : Nat) :
    Script.parse none (nestedText n) = .ok ⟨[], some (nestedCalls n .zero)⟩ := by
  have htext : (nestedCalls n .zero).write .plain = Text.nested n ['f', '('] ['z'] := write_nestedCalls n .zero
  rw [nestedText, ← htext]
  exact Script.parse_write_expression (wellFormed_nestedCalls n rfl)

theorem read_nestedText (bounds : Bounds) (n : Nat) :
    Script.read bounds (nestedText n) = if exceeds bounds.depth (Script.readingFrames + 2 * n) then .error .tooDeep
      else .ok ⟨[], some (nestedCalls n .zero)⟩ := by
  have hnesting : (Script.mk [] (some (nestedCalls n .zero))).nesting = 2 * n := by
    have hcalls := nestingFrom_nestedCalls n (e := .zero) (k := 0) (fun _ _ => rfl) 0 false
    rw [Script.nesting_expression, hcalls]
    omega
  rw [Script.read_eq_of_parse_none (parse_nestedText n), hnesting]

/-- Without the function there is nothing to evaluate in the calls. -/
theorem eval_nestedText {bounds : Bounds} (hfuel : 2 ≤ bounds.fuel) {n : Nat} (hn : 0 < n)
    (hroom : exceeds (remaining bounds.depth 1) (Script.readingFrames + 2 * n) = false) :
    ∃ s', (Session.mk .lenient [] .empty).eval bounds (nestedText n) = (.ok (some 0), s') := by
  obtain ⟨k, rfl⟩ := Nat.exists_eq_add_one_of_ne_zero (Nat.ne_of_gt hn)
  let e : Expr := nestedCalls (k + 1) .zero
  have hread : Script.read (bounds.inside 1) (nestedText (k + 1)) = .ok ⟨[], some e⟩ := by
    rw [read_nestedText, Bounds.depth_inside, hroom]
    rfl
  have hprogram : Program.ofScript (bounds.inside 1) .lenient ⟨[], some e⟩ =
      .ok ⟨.empty, .empty, some e.toTerm⟩ :=
    Program.ofScript_eq_ok_iff.mpr ⟨rfl, rfl, Program.lowerResult_eq none (wellFormed_nestedCalls _ rfl)⟩
  have hvalue : evaluate 2 .lenient e.toTerm .empty .empty = .value 0 := by
    rw [show e = .call "f" [nestedCalls k .zero] from nestedCalls_succ k .zero]
    rfl
  have hrun : Program.run (bounds.inside 1) .lenient ⟨.empty, .empty, some e.toTerm⟩ = .ok (some 0) := by
    have hfinished : evaluate bounds.fuel .lenient e.toTerm .empty .empty = .value 0 := by
      rw [evaluate_mono hfuel (by simp [hvalue]), hvalue]
    simp only [Program.run, Bounds.fuel_inside, hfinished]
    rfl
  exact ⟨⟨.lenient, [], ⟨.empty, .empty, some e.toTerm⟩⟩,
    Session.eval_eq_ok_iff.mpr ⟨_, hread, hprogram, hrun, rfl, rfl⟩⟩

end Nested

theorem unifyNewlines_of_not_mem {cs : List Char} (h : '\r' ∉ cs) : Text.unifyNewlines cs = cs := by
  have key (read : List Char) : Text.plainNewlines read cs = read.reverse ++ cs := by
    induction cs generalizing read with
    | nil => simp [Text.plainNewlines]
    | cons c cs ih =>
      obtain ⟨hc, hcs⟩ := not_or.mp (mt List.mem_cons.mpr h)
      rw [Text.plainNewlines, if_neg (Ne.symm hc), ih hcs]
      · simp
      · exact fun _ he => absurd he.symm hc
  exact key []

/-- A text without carriage returns is read from a file as it is. -/
theorem decode_toUTF8 {text : String} (h : '\r' ∉ text.toList) : Disk.decode text.toUTF8 = .ok text := by
  have hvalid : text.toUTF8.IsValidUTF8 := text.isValidUTF8
  have hbytes : String.fromUTF8? text.toUTF8 = some text := by
    rw [String.fromUTF8?, dif_pos hvalid]
    rfl
  rw [Disk.decode, hbytes]
  simp only [unifyNewlines_of_not_mem h, String.ofList_toList]

theorem start_without_prelude (bounds : Bounds) (mode : Mode) (env : Environment) (disk : Disk) :
    Session.start bounds mode .none env disk = .ok ⟨mode, [], .empty⟩ := rfl

theorem startSession_plain {bounds : Bounds} {options : Options} {env : Environment} {disk : Disk}
    (hprelude : options.has .prelude = false) (hstrict : options.has .strict = false) :
    startSession bounds options env disk = .ok ⟨env.mode, [], .empty⟩ := by
  simp only [startSession, hprelude, hstrict, Bool.false_eq_true, if_false]
  exact start_without_prelude ..

/-- A run of nested calls that it has no room to read. -/
theorem run_nestedText (host : Host) (fuel n : Nat) {env : Environment} (hmax : env.nestingLimit ≤ 0x7fffffff)
    (hdeep : runLimit env - host.frames - 3 < Script.readingFrames + 2 * n) :
    let r := run host fuel env ⟨fun _ => .ok (.file (nestedText n).toUTF8)⟩ ["p"]
    r.IsReport ∧ r.cutShort = true := by
  intro r
  let disk : Disk := ⟨fun _ => .ok (.file (nestedText n).toUTF8)⟩
  let s : Session := ⟨env.mode, [], .empty⟩
  have hargs : parseArguments ["p"] = .ok (.run ⟨"p", []⟩) := by decide +kernel
  have hsource : disk.readText "p" = .ok (nestedText n) := by
    have hplain : '\r' ∉ (nestedText n).toList := by simp [nestedText, Text.nested, List.mem_replicate]
    exact decode_toUTF8 hplain
  have hread : Script.read (((host.bounds env fuel).inside 2).inside 1) (nestedText n) = .error .tooDeep := by
    rw [read_nestedText, if_pos]
    simpa [Bounds.inside_inside, Host.bounds] using hdeep
  have hcompile : s.compile ((host.bounds env fuel).inside 2) (nestedText n) = .error .tooDeep := by
    rw [Session.compile, Session.extend, hread]
    rfl
  have hstart : startSession ((host.bounds env fuel).inside 2) ⟨"p", []⟩ env disk = .ok s :=
    startSession_plain rfl rfl
  have hrun : r = failProgram (host.paint env ⟨"p", []⟩) "p" (nestedText n) "" .tooDeep := by
    rw [show r = run host fuel env disk ["p"] from rfl, run_eq_runOptions host fuel env disk hargs hmax,
      runOptions_of_start hsource hstart]
    simp only [runSource, hcompile]
    rfl
  rw [hrun]
  exact ⟨(failProgram_spec unanswered_empty _ _ _ (.inr rfl)).1, Result.cutShort_failProgram ..⟩

/-- A program that nests so deep that there is just room to read it where the run is called. -/
theorem run_deeper_than_session :
    let host : Host := ⟨.escaping, 1⟩
    let env := Environment.empty.set "PEANO_RECURSION_LIMIT" "1000"
    let disk : Disk := ⟨fun _ => .ok (.file (nestedText 495).toUTF8)⟩
    let bounds : Bounds := ⟨some (runLimit env - host.frames), 2⟩
    let s : Session := ⟨.lenient, [], .empty⟩
    Session.start bounds .lenient .none env disk = .ok s ∧
    (∃ s', s.eval bounds (nestedText 495) = (.ok (some 0), s')) ∧
    (run host 2 env disk ["p"]).IsReport ∧ (run host 2 env disk ["p"]).cutShort = true := by
  intro host env disk bounds s
  have hlimit : runLimit env = 1000 := by decide +kernel
  have hmax : env.nestingLimit ≤ 0x7fffffff := by decide +kernel
  have heval : ∃ s', s.eval bounds (nestedText 495) = (.ok (some 0), s') := by
    refine eval_nestedText (Nat.le_refl 2) (by decide) ?_
    simp only [bounds, hlimit, host]
    decide
  have hrun := run_nestedText host 2 495 hmax (by rw [hlimit]; decide)
  exact ⟨start_without_prelude .., heval, hrun⟩

end CommandLine

end Unary
