import Unary.Proofs.Faults
import Unary.Proofs.Lines
import Unary.Proofs.Listing

/-!
The failures of a run, and those that it makes no report of.

What is read from a text can be lowered and evaluated, so the only failures after reading are the faults of
strict mode and an evaluation that is not over. Those and the errors of reading are reported, and what was
printed before holds no answer. What is left over comes before: the limit that is set is too large for a run,
the file or the prelude is no text, or the prelude nests too deep.
-/

namespace Unary

namespace Session

variable {bounds : Bounds} {s : Session} {source : String} {script : Script}

theorem failsAsEvaluation_ofDefinitions (bounds : Bounds) (mode : Mode) {defs : List Definition}
    (hds : defs.all Definition.wellFormed = true) :
    FailsAsEvaluation (ofDefinitions bounds mode defs) := by
  cases defs with
  | nil => exact .ok _
  | cons d defs =>
    have hs : Script.wellFormed ⟨d :: defs, none⟩ = true := Script.wellFormed_iff.mpr ⟨hds, rfl⟩
    exact (Program.failsAsEvaluation_ofScript bounds mode hs).bind fun program => .ok _

theorem Within.failsAsEvaluation_compile {limit : Option Nat} (hs : s.Within limit)
    (h : Script.read (bounds.inside 1) source = .ok script) : FailsAsEvaluation (s.compile bounds source) := by
  rw [compile, extend, h]
  exact Program.failsAsEvaluation_ofScript _ _ (wellFormed_after hs.wellFormed (Script.of_read h).1)

end Session

namespace Disk

variable {disk : Disk} {path : String} {error : FileError}

theorem ne_nulInPath_of_find? (h : disk.find? path = .error error) : error ≠ .nulInPath := by
  rw [find?] at h
  split at h
  · cases h
  · split at h <;> cases h
    exact FileError.noConfusion

theorem ne_nulInPath_of_isDirectory (h : disk.isDirectory path = .error error) :
    error ≠ .nulInPath := by
  rw [isDirectory] at h
  split at h
  · cases h
  · cases h
  next hfind =>
    cases h
    exact ne_nulInPath_of_find? hfind

theorem ne_nulInPath_of_isFile (h : disk.isFile path = .error error) : error ≠ .nulInPath := by
  rw [isFile] at h
  split at h
  · cases h
  · cases h
  next hfind =>
    cases h
    exact ne_nulInPath_of_find? hfind

theorem hasNul_of_isFile (h : disk.isFile path = .ok true) : hasNul path = false := by
  by_contra hnul
  rw [Bool.not_eq_false] at hnul
  rw [isFile, find?, if_pos hnul] at h
  cases h

theorem hasNul_of_readText (h : disk.readText path = .error .nulInPath) : hasNul path = true := by
  rw [readText] at h
  by_contra hnul
  rw [if_neg hnul] at h
  split at h
  · rw [decode] at h
    split at h <;> cases h
  · cases h
  · cases h

end Disk

namespace Prelude

variable {env : Environment} {disk : Disk}

/-- A prelude is looked for before it is read, and nothing is found at a path that no file can have. -/
theorem readText_ne_nulInPath : readText env disk ≠ .error .nulInPath := by
  intro h
  rcases bind_eq_error_iff.mp h with h | ⟨root, -, h⟩
  · rw [Environment.preludeRoot] at h
    split at h
    · cases h
    · rcases bind_eq_error_iff.mp h with h | ⟨isDirectory, -, h⟩
      · exact Disk.ne_nulInPath_of_isDirectory h rfl
      · cases h
  · cases root with
    | builtin => cases h
    | directory path =>
      rcases bind_eq_error_iff.mp h with h | ⟨origin, horigin, h⟩
      · rcases bind_eq_error_iff.mp h with h | ⟨isFile, -, h⟩
        · exact Disk.ne_nulInPath_of_isFile h rfl
        · cases h
      · obtain ⟨isFile, hfile, hfound⟩ := bind_eq_ok_iff.mp horigin
        cases isFile with
        | false =>
          cases hfound
          cases h
        | true =>
          cases hfound
          have hnul := Disk.hasNul_of_readText h
          rw [Disk.hasNul_of_isFile hfile] at hnul
          cases hnul

theorem load_eq_error_iff {bounds : Bounds} {failure : Failure} :
    load bounds env disk = .error failure ↔
      (∃ error, readText env disk = .error error ∧ .file error = failure) ∨
      ∃ text, readText env disk = .ok text ∧ Script.read (bounds.inside 1) text = .error failure := by
  rw [load, bind_eq_error_iff, mapError_eq_error_iff]
  simp only [mapError_eq_ok_iff, ofText, map_eq_error_iff]

end Prelude

namespace CommandLine

/-- Whether a run ends with success or with a report, if it ends. -/
def Result.Reports (r : Result) : Prop :=
  (r.status = .exit 0 ∧ r.errors = "") ∨ r.IsReport ∨ r.status = .failure .unfinished

theorem isProgramError_of_isEvaluation {failure : Failure} (h : failure.isEvaluation = true) :
    isProgramError failure = true ∨ failure = .unfinished := by
  cases failure with
  | eval fault =>
    cases fault with
    | notTerm node => cases h
    | _ => exact .inl rfl
  | unfinished => exact .inr rfl
  | _ => cases h

section Sources

variable {bounds : Bounds} {options : Options} {source output : String} {s : Session} {program : Program}

theorem reports_failProgram (h : Unanswered output) (paint : Paint) (file source : String)
    {failure : Failure} (hf : failure.isEvaluation = true) :
    (failProgram paint file source output failure).Reports := by
  rcases isProgramError_of_isEvaluation hf with herror | rfl
  · exact .inr (.inl (failProgram_spec h paint file source (.inl herror)).1)
  · exact .inr (.inr rfl)

theorem reports_runProgram (h : program.Faithful) (hout : Unanswered output) (paint : Paint) :
    (runProgram bounds paint options s source output program).Reports := by
  have hprinted : ∀ listing, Unanswered listing → programListing bounds options program = .ok listing →
      (runProgram bounds paint options s source output program).Reports := by
    intro listing hlisting hl
    simp only [runProgram, hl]
    cases hrun : program.run bounds s.mode with
    | ok value => exact .inl ⟨rfl, rfl⟩
    | error failure =>
      exact reports_failProgram (hout.append hlisting) _ _ _ (h.failsAsEvaluation_run _ _ failure hrun)
  cases hast : options.has .ast with
  | false =>
    refine hprinted "" unanswered_empty ?_
    rw [programListing, hast]
    rfl
  | true =>
    have hlisting : programListing bounds options program = _ := programListing_eq hast h
    cases hdeep : exceeds bounds.depth program.writingDepth with
    | true =>
      rw [runProgram_of_deep hast h hdeep]
      exact .inr (.inl (failProgram_spec hout _ _ _ (.inr rfl)).1)
    | false =>
      rw [hdeep] at hlisting
      exact hprinted _ (unanswered_write h) hlisting

/-- A run that has come to its source and its session ends with success or with a report. -/
theorem reports_runSource (hs : s.Within bounds.depth) (paint : Paint) :
    (runSource bounds paint options s source).Reports := by
  have hlisting := unanswered_listing options source
  cases hread : Script.read (bounds.inside 1) source with
  | error failure =>
    obtain ⟨cause, hcause, hr⟩ : ∃ cause, _ ∧ runSource bounds paint options s source = _ :=
      exists_failProgram_of_read hread paint s
    rw [hr]
    exact .inr (.inl (failProgram_spec hlisting _ _ _ hcause).1)
  | ok script =>
    cases hcompile : s.compile bounds source with
    | error failure =>
      rw [runSource_eq hread, hcompile]
      exact reports_failProgram hlisting _ _ _ (hs.failsAsEvaluation_compile hread failure hcompile)
    | ok program =>
      rw [runSource_of_compile hread hcompile]
      exact reports_runProgram (hs.of_compile hcompile).1 hlisting paint

end Sources

/-- The frames between where a run begins and the reading of the prelude. -/
def preludeFrames : Nat := 5

/-- What a run ends with that makes no report of its failure: the limit that is set is too large, the file
or the prelude is no text, or the prelude nests too deep. -/
inductive Unreported (host : Host) (env : Environment) (disk : Disk) (options : Options) : Status → Prop
  | limit : greatestLimit < runLimit env → Unreported host env disk options .limitTooLarge
  | file {error : FileError} : runLimit env ≤ greatestLimit →
      disk.readText options.file = .error error → error = .undecodable ∨ error = .nulInPath →
      Unreported host env disk options (.failure (.file error))
  | preludeFile {source : String} : runLimit env ≤ greatestLimit →
      disk.readText options.file = .ok source → options.has .prelude = true →
      Prelude.readText env disk = .error .undecodable →
      Unreported host env disk options (.failure (.file .undecodable))
  | preludeNesting {source text : String} : runLimit env ≤ greatestLimit →
      disk.readText options.file = .ok source → options.has .prelude = true →
      Prelude.readText env disk = .ok text →
      Script.read ⟨some (runLimit env - (host.frames + preludeFrames)), 0⟩ text = .error .tooDeep →
      Unreported host env disk options (.failure .tooDeep)

theorem isFileError_eq_false_iff {error : FileError} :
    isFileError (.file error) = false ↔ error = .undecodable ∨ error = .nulInPath := by
  cases error <;> simp [isFileError]

section Starts

variable {host : Host} {fuel : Nat} {env : Environment} {disk : Disk} {options : Options} {bounds : Bounds}
  {failure : Failure}

theorem startSession_of_load (hprelude : options.has .prelude = true)
    (h : Prelude.load (bounds.inside 2) env disk = .error failure) :
    startSession bounds options env disk = .error failure := by
  rw [startSession, if_pos hprelude, Session.start, Session.preludeDefinitions, h]
  rfl

/-- The start of a session fails because of the prelude, or as an evaluation does. -/
theorem of_startSession_error (h : startSession bounds options env disk = .error failure) :
    (options.has .prelude = true ∧ Prelude.load (bounds.inside 2) env disk = .error failure) ∨
      failure.isEvaluation = true := by
  rcases bind_eq_error_iff.mp h with h | ⟨defs, hdefs, h⟩
  · left
    split at h
    next hprelude => exact ⟨hprelude, map_eq_error_iff.mp h⟩
    next => cases h
  · have hds := Session.wellFormed_of_preludeDefinitions hdefs
    exact .inr (Session.failsAsEvaluation_ofDefinitions _ _ hds failure h)

theorem runOptions_of_start_unreported {source : String}
    (hsource : disk.readText options.file = .ok source)
    (hs : startSession ((host.bounds env fuel).inside 2) options env disk = .error failure)
    (hf : isProgramError failure = false) (hf' : isFileError failure = false) :
    runOptions host fuel env disk options = ⟨.failure failure, "", ""⟩ := by
  simp only [runOptions, hsource, hs, hf, hf', Bool.or_self, Bool.false_eq_true, if_false]

/-- The prelude is read with the frames that are left of a run. -/
theorem read_prelude (host : Host) (env : Environment) (fuel : Nat) (text : String) :
    Script.read ((((host.bounds env fuel).inside 2).inside 2).inside 1) text =
      Script.read ⟨some (runLimit env - (host.frames + preludeFrames)), 0⟩ text := by
  have hdepth : ((((host.bounds env fuel).inside 2).inside 2).inside 1).depth =
      some (runLimit env - (host.frames + preludeFrames)) := by
    simp only [Bounds.inside_inside, Bounds.depth_inside, Host.bounds, remaining_some, Nat.sub_sub,
      preludeFrames]
  rw [← hdepth]
  rfl

/-- A failure that is not reported ends the run with nothing printed. -/
theorem run_of_unreported {arguments : List String} {status : Status}
    (hargs : parseArguments arguments = .ok (.run options)) (h : Unreported host env disk options status) :
    run host fuel env disk arguments = ⟨status, "", ""⟩ := by
  simp only [run, hargs]
  cases h with
  | limit hlimit => rw [if_pos hlimit]
  | file hlimit hread herror =>
    rw [if_neg (Nat.not_lt.mpr hlimit), runOptions]
    simp only [hread, isFileError_eq_false_iff.mpr herror, Bool.false_eq_true, if_false]
  | preludeFile hlimit hsource hprelude htext =>
    rw [if_neg (Nat.not_lt.mpr hlimit)]
    refine runOptions_of_start_unreported hsource (startSession_of_load hprelude ?_) rfl rfl
    exact Prelude.load_eq_error_iff.mpr (.inl ⟨_, htext, rfl⟩)
  | preludeNesting hlimit hsource hprelude htext hparse =>
    rw [if_neg (Nat.not_lt.mpr hlimit)]
    refine runOptions_of_start_unreported hsource (startSession_of_load hprelude ?_) rfl rfl
    exact Prelude.load_eq_error_iff.mpr (.inr ⟨_, htext, (read_prelude ..).trans hparse⟩)

/-- A run whose session does not start ends with a report, or the prelude is to blame. -/
theorem reports_or_unreported_of_start (hlimit : runLimit env ≤ greatestLimit) {source : String}
    (hsource : disk.readText options.file = .ok source)
    (hs : startSession ((host.bounds env fuel).inside 2) options env disk = .error failure) :
    (runOptions host fuel env disk options).Reports ∨ ∃ status, Unreported host env disk options status := by
  have hreports (hf : isProgramError failure = true ∨ isFileError failure = true) :
      (runOptions host fuel env disk options).Reports :=
    .inr (.inl (runOptions_of_start_error hsource hs hf).1)
  rcases of_startSession_error hs with ⟨hprelude, hload⟩ | heval
  · rcases Prelude.load_eq_error_iff.mp hload with ⟨error, htext, rfl⟩ | ⟨text, htext, hread⟩
    · cases hkind : isFileError (.file error) with
      | true => exact .inl (hreports (.inr hkind))
      | false =>
        rcases isFileError_eq_false_iff.mp hkind with rfl | rfl
        · exact .inr ⟨_, .preludeFile hlimit hsource hprelude htext⟩
        · exact absurd htext Prelude.readText_ne_nulInPath
    · rcases isProgramError_or_tooDeep_of_read hread with hf | rfl
      · exact .inl (hreports (.inl hf))
      · exact .inr ⟨_, .preludeNesting hlimit hsource hprelude htext ((read_prelude ..).symm.trans hread)⟩
  · rcases isProgramError_of_isEvaluation heval with hf | rfl
    · exact .inl (hreports (.inl hf))
    · rw [runOptions_of_start_unreported hsource hs rfl rfl]
      exact .inl (.inr (.inr rfl))

theorem reports_or_unreported (hlimit : runLimit env ≤ greatestLimit) :
    (runOptions host fuel env disk options).Reports ∨ ∃ status, Unreported host env disk options status := by
  cases hsource : disk.readText options.file with
  | error error =>
    cases hkind : isFileError (.file error) with
    | true =>
      simp only [runOptions, hsource, if_pos hkind]
      exact .inl (.inr (.inl (isReport_fail unanswered_empty ..)))
    | false => exact .inr ⟨_, .file hlimit hsource (isFileError_eq_false_iff.mp hkind)⟩
  | ok source =>
    cases hs : startSession ((host.bounds env fuel).inside 2) options env disk with
    | error failure => exact reports_or_unreported_of_start hlimit hsource hs
    | ok s =>
      rw [runOptions_of_start hsource hs]
      exact .inl (reports_runSource (Session.within_of_start hs) _)

end Starts

/-- Whatever the environment and the disk, a run with arguments that are understood ends with success, or with
status 1, a report and no answer, if it ends and nothing goes unreported. What goes unreported is found
before anything is printed, and then the run ends with that. -/
theorem run_reports_failures (host : Host) (fuel : Nat) (env : Environment) (disk : Disk) (arguments : List String)
    (request : Request) (hargs : parseArguments arguments = .ok request) :
    let r := run host fuel env disk arguments
    (∀ options status, request = .run options → Unreported host env disk options status →
      r = ⟨status, "", ""⟩) ∧
    ((∀ options status, request = .run options → ¬ Unreported host env disk options status) →
      (r.status = .exit 0 ∧ r.errors = "") ∨ r.IsReport ∨ r.status = .failure .unfinished) := by
  intro r
  cases request with
  | help =>
    have hrun : r = ⟨.exit 0, helpText, ""⟩ := by simp only [r, run, hargs]
    refine ⟨fun options status h => (by cases h), fun _ => .inl ?_⟩
    rw [hrun]
    exact ⟨rfl, rfl⟩
  | run options =>
    refine ⟨fun options' status h hu => ?_, fun hnone => ?_⟩
    · cases h
      exact run_of_unreported hargs hu
    · have hlimit : runLimit env ≤ greatestLimit := by
        by_contra hlimit
        exact hnone options _ rfl (.limit (Nat.not_le.mp hlimit))
      have hrun : r = runOptions host fuel env disk options := by
        simp only [r, run, hargs, if_neg (Nat.not_lt.mpr hlimit)]
      rw [hrun]
      rcases reports_or_unreported hlimit with h | ⟨status, hu⟩
      · exact h
      · exact absurd hu (hnone options status rfl)

/-- A name without a value in strict mode, after the program is printed. -/
theorem run_reports_failures_after_listing :
    let disk : Disk := ⟨fun _ => .ok (.file "x".toUTF8)⟩
    let host : Host := ⟨.escaping, 1⟩
    let arguments := ["--strict", "--ast", "p"]
    parseArguments arguments = .ok (.run ⟨"p", [.strict, .ast]⟩) ∧
      (run host 20 .empty disk arguments).output = "x\n" ∧ (run host 20 .empty disk arguments).IsReport := by
  intro disk host arguments
  have hargs : parseArguments arguments = .ok (.run ⟨"p", [.strict, .ast]⟩) := by decide +kernel
  have hstatus : (run host 20 .empty disk arguments).status = .exit 1 := by decide +kernel
  have hsource : disk.readText "p" = .ok "x" := by decide +kernel
  have hnone : ∀ options status, Request.run ⟨"p", [.strict, .ast]⟩ = .run options →
      ¬ Unreported host .empty disk options status := by
    intro options status hoptions hu
    cases hoptions
    cases hu with
    | limit hlimit => exact absurd hlimit (by decide +kernel)
    | file _ hread _ =>
      rw [hsource] at hread
      cases hread
    | preludeFile _ _ hprelude _ => cases hprelude
    | preludeNesting _ _ hprelude _ _ => cases hprelude
  refine ⟨hargs, by decide +kernel, ?_⟩
  rcases (run_reports_failures host 20 .empty disk arguments _ hargs).2 hnone with ⟨h, -⟩ | h | h
  · cases hstatus.symm.trans h
  · exact h
  · cases hstatus.symm.trans h

/-- A file that is no text ends every run with a failure that is not reported. -/
theorem run_undecodable_unreported :
    let disk : Disk := ⟨fun _ => .ok (.file ⟨#[0xff]⟩)⟩
    parseArguments ["p"] = .ok (.run ⟨"p", []⟩) ∧
      ∀ host fuel, run host fuel .empty disk ["p"] = ⟨.failure (.file .undecodable), "", ""⟩ := by
  intro disk
  have hargs : parseArguments ["p"] = .ok (.run ⟨"p", []⟩) := by decide +kernel
  have hread : disk.readText "p" = .error .undecodable := by decide +kernel
  have hlimit : runLimit .empty ≤ greatestLimit := by decide +kernel
  exact ⟨hargs, fun host fuel => run_of_unreported hargs (.file hlimit hread (.inl rfl))⟩

end CommandLine

end Unary
