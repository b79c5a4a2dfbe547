import Unary.Proofs.CommandLine
import Unary.Proofs.Nesting
import Unary.Proofs.ProgramText
import Unary.Proofs.Replay

/-!
The listing of the program before its result.

A run that is asked for the listing prints the same as one that is not, with the text of the program before
the last line, if the program can be written within the limit. Writing goes one deeper with every successor,
while reading, lowering and evaluating take a run of successors of any length at once. So a long numeral is
the one thing that a run without the listing allows and one with it does not: where no successor stands right
inside another, what was read is also written.
-/

namespace Unary

/-- The walk that writes a term without colours. -/
def Descent.writing : Descent := ⟨2, 2, 3, 2, 1, 2, 1, 1, 1⟩

namespace Term

theorem depthAll_cons (walk : Descent) (depth reached : Nat) (t : Term) (ts : List Term) :
    depthAll walk depth reached (t :: ts) = depthAll walk depth (max reached (t.depthFrom walk depth)) ts := rfl

theorem depthAll_eq_max (walk : Descent) (depth reached : Nat) (ts : List Term) :
    depthAll walk depth reached ts = max reached (depthAll walk depth 0 ts) := by
  induction ts generalizing reached with
  | nil => exact (Nat.max_zero reached).symm
  | cons t ts ih => rw [depthAll_cons, depthAll_cons, ih, ih (max 0 _), Nat.zero_max, Nat.max_assoc]

theorem depthAll_le {walk : Descent} {depth reached bound : Nat} {ts : List Term} (hreached : reached ≤ bound)
    (h : ∀ t ∈ ts, t.depthFrom walk depth ≤ bound) : depthAll walk depth reached ts ≤ bound := by
  induction ts generalizing reached with
  | nil => exact hreached
  | cons t ts ih =>
    obtain ⟨ht, hts⟩ := List.forall_mem_cons.mp h
    exact ih (Nat.max_le.mpr ⟨hreached, ht⟩) hts

theorem depthFrom_writing_call (callee : String) (as : List Term) (depth : Nat) :
    (call callee as).depthFrom .writing depth = max (depth + 3) (depthAll .writing (depth + 2) 0 as) :=
  depthAll_eq_max .writing (depth + 2) (depth + 3) as

theorem depthFrom_writing_cond (a b c d : Term) (depth : Nat) :
    (cond a b c d).depthFrom .writing depth =
      max (max (a.depthFrom .writing (depth + 1)) (b.depthFrom .writing (depth + 1)))
        (max (c.depthFrom .writing (depth + 1)) (d.depthFrom .writing (depth + 1))) := rfl

/-- The word that stands for a node takes two frames, and whatever is in the node takes them deeper. -/
theorem add_two_le_depthFrom : ∀ (t : Term) (depth : Nat), depth + 2 ≤ t.depthFrom .writing depth
  | zero, _ | var _, _ | text _, _ => Nat.le_refl _
  | succ a, depth => Nat.le_trans (by omega) (add_two_le_depthFrom a (depth + 1))
  | call _ as, depth => by
    rw [depthFrom_writing_call]
    omega
  | cond a b c d, depth => by
    have ha := add_two_le_depthFrom a (depth + 1)
    rw [depthFrom_writing_cond]
    omega
  | equation a _, depth =>
    Nat.le_trans (Nat.le_trans (by omega) (add_two_le_depthFrom a (depth + 1))) (Nat.le_max_left _ _)

section Writing

open FormatError

variable (limit : Option Nat)

mutual

/-- A term is written exactly if the walk that writes it stays within the limit. -/
theorem checkWrite_eq : ∀ (t : Term) (depth : Nat), t.wellFormed = true →
    t.checkWrite limit .plain depth = check limit (t.depthFrom .writing depth)
  | zero, _, _ | var _, _, _ => rfl
  | succ a, depth, ht => by
    rw [wellFormed] at ht
    have hle : depth + 2 ≤ a.depthFrom .writing (depth + 1) :=
      Nat.le_trans (Nat.le_succ _) (add_two_le_depthFrom a (depth + 1))
    rw [checkWrite, checkWrite_eq a (depth + 1) ht, check_max]
    exact congrArg (check limit) (Nat.max_eq_right hle)
  | call _ as, depth, ht => by
    rw [wellFormed] at ht
    rw [checkWrite, checkWriteAll_eq as (depth + 2) ht, check_max, depthFrom_writing_call, Nat.max_comm]
    rfl
  | cond a b c d, depth, ht => by
    obtain ⟨ha, hb, hc, hd⟩ := wellFormed_cond_iff.mp ht
    have hle := add_two_le_depthFrom a (depth + 1)
    rw [checkWrite, checkWrite_eq a _ ha, checkWrite_eq b _ hb, checkWrite_eq c _ hc,
      checkWrite_eq d _ hd, check_check, check_check, check_check, check_max,
      depthFrom_writing_cond]
    have hframes : depth + 1 + Palette.plain.keywords.frames = depth + 3 := rfl
    rw [hframes]
    congr 1
    omega

/-- Terms are written one after the other. -/
theorem checkWriteAll_eq : ∀ (ts : List Term) (depth : Nat), allWellFormed ts = true →
    checkWriteAll limit .plain depth ts = check limit (depthAll .writing depth 0 ts)
  | [], _, _ => by
    rw [depthAll, check, exceeds_zero]
    rfl
  | t :: ts, depth, hts => by
    obtain ⟨ht, hts⟩ := allWellFormed_cons_iff.mp hts
    rw [checkWriteAll, checkWrite_eq t depth ht, checkWriteAll_eq ts depth hts, check_max, depthAll_cons,
      depthAll_eq_max _ _ (max 0 _), Nat.zero_max]

end

end Writing

mutual

/-- Whether no successor of a term stands right inside another one, if the term is inside one or not. -/
def unchained (inSucc : Bool) : Term → Bool
  | succ arg => !inSucc && unchained true arg
  | call _ args => unchainedAll args
  | cond left right yes no =>
    unchained false left && unchained false right && unchained false yes && unchained false no
  | _ => true

def unchainedAll : List Term → Bool
  | [] => true
  | t :: ts => unchained false t && unchainedAll ts

end

theorem unchained_of_mem {t : Term} {ts : List Term} (h : unchainedAll ts = true) (ht : t ∈ ts) :
    t.unchained false = true := by
  induction ts with
  | nil => cases ht
  | cons first rest ih =>
    rw [unchainedAll, Bool.and_eq_true] at h
    rcases List.mem_cons.mp ht with rfl | ht
    · exact h.1
    · exact ih h.2 ht

mutual

/-- Such a term is written no more than five frames deeper than it nests, if it is come to no more than two
deeper. -/
theorem depthFrom_le_nestingFrom : ∀ (t : Term) {depth depth' : Nat} (inSucc : Bool), depth ≤ depth' + 2 →
    t.wellFormed = true → t.unchained inSucc = true →
    t.depthFrom .writing depth ≤ t.toExpr.nestingFrom depth' inSucc + 5
  | zero, depth, depth', _, hle, _, _ | var _, depth, depth', _, hle, _, _ => by
    have hleaf : depth + 2 ≤ depth' + 5 := by omega
    exact hleaf
  | succ arg, _, _, inSucc, hle, ht, h => by
    rw [unchained, Bool.and_eq_true, Bool.not_eq_true'] at h
    obtain ⟨rfl, harg⟩ := h
    exact depthFrom_le_nestingFrom arg true (Nat.succ_le_succ hle) ht harg
  | call callee args, depth, depth', inSucc, hle, ht, h => by
    rw [wellFormed] at ht
    rw [unchained] at h
    have hargs := depthAll_le_nestingAll args (Nat.add_le_add_right hle 2) ht h
    rw [depthFrom_writing_call, toExpr, Expr.nestingFrom]
    omega
  | cond left right yes no, depth, depth', inSucc, hle, ht, h => by
    obtain ⟨hl, hr, hy, hn⟩ := wellFormed_cond_iff.mp ht
    simp only [unchained, Bool.and_eq_true] at h
    obtain ⟨⟨⟨ul, ur⟩, uy⟩, un⟩ := h
    have hplace : depth + 1 ≤ depth' + 2 + 2 := by omega
    have dl := depthFrom_le_nestingFrom left false hplace hl ul
    have dr := depthFrom_le_nestingFrom right false hplace hr ur
    have dy := depthFrom_le_nestingFrom yes false hplace hy uy
    have dn := depthFrom_le_nestingFrom no false hplace hn un
    rw [depthFrom_writing_cond, toExpr, Expr.nestingFrom]
    omega

theorem depthAll_le_nestingAll : ∀ (ts : List Term) {depth depth' : Nat},
    depth ≤ depth' + 2 → allWellFormed ts = true → unchainedAll ts = true →
    depthAll .writing depth 0 ts ≤ Expr.nestingAll depth' (toExprs ts) + 5
  | [], _, _, _, _, _ => Nat.zero_le _
  | t :: ts, depth, depth', hle, hts, h => by
    obtain ⟨ht, hts⟩ := allWellFormed_cons_iff.mp hts
    rw [unchainedAll, Bool.and_eq_true] at h
    have hfirst := depthFrom_le_nestingFrom t false hle ht h.1
    have hrest := depthAll_le_nestingAll ts hle hts h.2
    rw [depthAll_cons, depthAll_eq_max, toExprs, Expr.nestingAll]
    omega

end

end Term

theorem Term.toExprs_eq_map (ts : List Term) : toExprs ts = ts.map toExpr := by
  induction ts with
  | nil => rfl
  | cons t ts ih => rw [toExprs, List.map_cons, ih]

namespace Program

/-- The greatest depth at which a program is written. -/
def writingDepth (program : Program) : Nat :=
  Term.depthAll .writing 2 0 program.terms

theorem format_eq {program : Program} (h : program.Faithful) (limit : Option Nat) :
    program.format limit .plain = if exceeds limit program.writingDepth then .error .tooDeep
      else .ok (String.ofList (program.write .plain)) := by
  have hcheck : program.checkWrite limit .plain = FormatError.check limit program.writingDepth :=
    Term.checkWriteAll_eq limit program.terms 2 h.allWellFormed_terms
  rw [format, hcheck, FormatError.check]
  cases exceeds limit program.writingDepth <;> rfl

/-- The terms of a program are expressions of the script that it was made from. -/
theorem toExprs_terms_subset {bounds : Bounds} {mode : Mode} {script : Script} {program : Program}
    (hs : script.wellFormed = true) (h : ofScript bounds mode script = .ok program) :
    Term.toExprs program.terms ⊆
      script.definitions.map Definition.body ++ script.result.toList := by
  obtain ⟨hfunctions, hresult⟩ := of_ofScript hs h
  intro e he
  rw [Term.toExprs_eq_map, List.mem_map] at he
  obtain ⟨t, ht, rfl⟩ := he
  rw [terms, hfunctions, hresult] at ht
  rcases List.mem_append.mp ht with ht | ht
  · obtain ⟨entry, hentry, rfl⟩ := List.mem_map.mp ht
    have hd := functionDefinition_mem (Table.mem_of_mem_ofList hentry)
    exact List.mem_append_left _ (List.mem_map.mpr ⟨_, hd, rfl⟩)
  · obtain ⟨e, he, rfl⟩ := Option.map_eq_some_iff.mp (Option.mem_toList.mp ht)
    rw [Expr.toExpr_toTerm]
    exact List.mem_append_right _ (Option.mem_toList.mpr he)

end Program

namespace Script

theorem of_read {bounds : Bounds} {source : String} {script : Script}
    (h : read bounds source = .ok script) :
    script.wellFormed = true ∧ exceeds bounds.depth (readingFrames + script.nesting) = false := by
  have hparse := parse_of_read h
  refine ⟨wellFormed_of_parse hparse, ?_⟩
  rw [read_eq_of_parse_none hparse] at h
  by_contra hdeep
  rw [Bool.not_eq_false] at hdeep
  rw [if_pos hdeep] at h
  cases h

end Script

namespace Session

/-- The definitions of a session can be written, and there is room to read each of them within a limit. -/
structure Within (limit : Option Nat) (s : Session) : Prop where
  wellFormed : s.definitions.all Definition.wellFormed = true
  nesting : ∀ d ∈ s.definitions, exceeds limit (Script.readingFrames + d.body.nestingFrom 0 false) = false

variable {bounds : Bounds} {mode : Mode} {choice : PreludeChoice} {env : Environment} {disk : Disk}
  {s : Session}

/-- What was read inside some calls could also be read outside them. -/
theorem exceeds_of_remaining {limit : Option Nat} (frames : Nat) {depth : Nat}
    (h : exceeds (remaining limit frames) depth = false) : exceeds limit depth = false := by
  cases limit with
  | none => rfl
  | some limit =>
    simp only [remaining_some, exceeds_some, decide_eq_false_iff_not] at h ⊢
    omega

theorem exceeds_nestingFrom_of_mem {limit : Option Nat} {script : Script}
    (h : exceeds limit (Script.readingFrames + script.nesting) = false) {e : Expr}
    (he : e ∈ script.definitions.map Definition.body ++ script.result.toList) :
    exceeds limit (Script.readingFrames + e.nestingFrom 0 false) = false :=
  exceeds_eq_false_of_le (Nat.add_le_add_left (Expr.nestingFrom_le_nestingAll he 0) _) h

theorem nesting_of_ofText {text : String} {script : Script} (h : Prelude.ofText bounds text = .ok script) :
    ∀ d ∈ script.definitions,
      exceeds bounds.depth (Script.readingFrames + d.body.nestingFrom 0 false) = false := by
  obtain ⟨whole, hread, rfl⟩ := map_eq_ok_iff.mp h
  intro d hd
  refine exceeds_of_remaining 1 ?_
  exact exceeds_nestingFrom_of_mem (Script.of_read hread).2
    (List.mem_append_left _ (List.mem_map_of_mem hd))

theorem within_of_start (h : start bounds mode choice env disk = .ok s) : s.Within bounds.depth := by
  obtain ⟨defs, hprelude, hdefs⟩ := start_eq_ok_iff.mp h
  obtain ⟨-, rfl, -⟩ := of_ofDefinitions hdefs
  refine ⟨wellFormed_of_preludeDefinitions hprelude, fun d hd => exceeds_of_remaining 2 ?_⟩
  cases choice with
  | none =>
    have hnil : s.definitions = [] := (Except.ok.inj hprelude).symm
    rw [hnil] at hd
    cases hd
  | configured =>
    obtain ⟨script, hl, hs⟩ := map_eq_ok_iff.mp hprelude
    obtain ⟨text, -, ht⟩ := bind_eq_ok_iff.mp hl
    exact nesting_of_ofText ht d (hs ▸ hd)
  | text source =>
    obtain ⟨script, ht, hs⟩ := map_eq_ok_iff.mp hprelude
    exact nesting_of_ofText ht d (hs ▸ hd)

/-- What is compiled under a limit can be written, and there is room to read its terms. -/
theorem Within.of_compile (hs : s.Within bounds.depth) {source : String} {program : Program}
    (h : s.compile bounds source = .ok program) :
    program.Faithful ∧
      ∀ t ∈ program.terms, exceeds bounds.depth (Script.readingFrames + t.toExpr.nestingFrom 0 false) = false := by
  refine ⟨faithful_of_compile hs.wellFormed h, fun t ht => ?_⟩
  obtain ⟨whole, hextend, hp⟩ := bind_eq_ok_iff.mp h
  obtain ⟨script, hread, rfl⟩ := map_eq_ok_iff.mp hextend
  obtain ⟨hw, hnesting⟩ := Script.of_read hread
  have hmem : t.toExpr ∈ Term.toExprs program.terms := by
    rw [Term.toExprs_eq_map]
    exact List.mem_map_of_mem ht
  have hpart := Program.toExprs_terms_subset (wellFormed_after hs.wellFormed hw) hp hmem
  rw [Script.after, List.map_append, List.append_assoc, List.mem_append] at hpart
  rcases hpart with hpart | hpart
  · obtain ⟨d, hd, hbody⟩ := List.mem_map.mp hpart
    rw [← hbody]
    exact hs.nesting d hd
  · exact exceeds_of_remaining 1 (exceeds_nestingFrom_of_mem hnesting hpart)

end Session

namespace CommandLine

/-- Options that ask for the listing as well, and for nothing else that others do not ask for. -/
structure Options.AddsListing (options options' : Options) : Prop where
  file : options'.file = options.file
  flags : ∀ flag, options'.has flag = (flag == .ast || options.has flag)

section Runs

variable {bounds : Bounds} {options : Options} {source : String} {s : Session} {program : Program}

theorem programListing_eq (hast : options.has .ast = true) (h : program.Faithful) :
    programListing bounds options program =
      if exceeds bounds.depth program.writingDepth then .error .tooDeep
      else .ok (String.ofList (program.write .plain) ++ "\n") := by
  rw [programListing, if_pos hast, Program.format_eq h]
  cases exceeds bounds.depth program.writingDepth <;> rfl

theorem runProgram_of_fits (hast : options.has .ast = true) (h : program.Faithful)
    (hfits : exceeds bounds.depth program.writingDepth = false) {value : Option Nat}
    (hvalue : program.run bounds s.mode = .ok value) (paint : Paint) (output : String) :
    runProgram bounds paint options s source output program =
      ⟨.exit 0, output ++ (String.ofList (program.write .plain) ++ "\n") ++ resultLine value, ""⟩ := by
  have hlisting : programListing bounds options program =
      .ok (String.ofList (program.write .plain) ++ "\n") := by
    rw [programListing_eq hast h, hfits]
    rfl
  simp only [runProgram, hlisting, hvalue]

theorem runProgram_of_deep (hast : options.has .ast = true) (h : program.Faithful)
    (hdeep : exceeds bounds.depth program.writingDepth = true) (paint : Paint) (output : String) :
    runProgram bounds paint options s source output program =
      failProgram paint options.file source output .tooDeep := by
  have hlisting : programListing bounds options program = .error .tooDeep := by
    rw [programListing_eq hast h, hdeep]
    rfl
  simp only [runProgram, hlisting]

theorem status_failProgram (paint : Paint) (file source output : String) (failure : Failure) :
    (failProgram paint file source output failure).status ≠ .exit 0 := by
  rw [failProgram]
  split
  · simp [fail]
  · split
    · simp [fail]
    · simp

/-- A source that is compiled is run as its program, after the tokens if they are asked for. -/
theorem runSource_of_compile {script : Script} (hread : Script.read (bounds.inside 1) source = .ok script)
    (hcompile : s.compile bounds source = .ok program) (options : Options) (paint : Paint) :
    runSource bounds paint options s source =
      runProgram bounds paint options s source (listing options source) program := by
  rw [runSource_eq hread, hcompile]

/-- A run of a source without the listing that succeeds has a program and its value. -/
theorem of_runSource_exit_zero (hast : options.has .ast = false) {paint : Paint}
    (h : (runSource bounds paint options s source).status = .exit 0) :
    ∃ script program value, Script.read (bounds.inside 1) source = .ok script ∧
      s.compile bounds source = .ok program ∧ program.run bounds s.mode = .ok value := by
  cases hread : Script.read (bounds.inside 1) source with
  | error failure =>
    obtain ⟨cause, -, hr⟩ : ∃ cause, _ ∧ runSource bounds paint options s source = _ :=
      exists_failProgram_of_read hread paint s
    rw [hr] at h
    exact absurd h (status_failProgram _ _ _ _ _)
  | ok script =>
    rw [runSource_eq hread] at h
    cases hcompile : s.compile bounds source with
    | error failure =>
      rw [hcompile] at h
      exact absurd h (status_failProgram _ _ _ _ _)
    | ok program =>
      simp only [hcompile, runProgram_eq hast] at h
      cases hrun : program.run bounds s.mode with
      | error failure =>
        rw [hrun] at h
        exact absurd h (status_failProgram _ _ _ _ _)
      | ok value => exact ⟨script, program, value, rfl, rfl, hrun⟩

/-- A run that succeeds has a text and a session. -/
theorem of_run_exit_zero {host : Host} {fuel : Nat} {env : Environment} {disk : Disk} {arguments : List String}
    (hargs : parseArguments arguments = .ok (.run options))
    (h : (run host fuel env disk arguments).status = .exit 0) :
    env.nestingLimit ≤ 0x7fffffff ∧ ∃ source s, disk.readText options.file = .ok source ∧
      startSession ((host.bounds env fuel).inside 2) options env disk = .ok s := by
  simp only [run, hargs] at h
  split at h
  · cases h
  next hlimit =>
    rw [greatestLimit, runLimit, leastLimit] at hlimit
    refine ⟨by omega, ?_⟩
    simp only [runOptions] at h
    cases hsource : disk.readText options.file with
    | error error =>
      simp only [hsource] at h
      split at h <;> cases h
    | ok source =>
      cases hs : startSession ((host.bounds env fuel).inside 2) options env disk with
      | ok s => exact ⟨source, s, rfl, rfl⟩
      | error failure =>
        simp only [hsource, hs] at h
        split at h <;> cases h

end Runs

theorem Options.AddsListing.has_eq {options options' : Options} (h : options.AddsListing options')
    {flag : Flag} (hflag : flag ≠ .ast) : options'.has flag = options.has flag := by
  rw [h.flags, beq_eq_false_iff_ne.mpr hflag, Bool.false_or]

/-- Asking for the listing only adds it. If a run without it succeeds, then so does one with it, and prints the
text of the program before the last line, provided that the program is written within the limit. Otherwise
the run with the listing reports that the program nests too deep, and this can only be because of a successor
inside a successor. -/
theorem run_listing_adds (host : Host) (fuel : Nat) (env : Environment) (disk : Disk)
    (arguments arguments' : List String) (options options' : Options)
    (hargs : parseArguments arguments = .ok (.run options))
    (hargs' : parseArguments arguments' = .ok (.run options')) (hast : options.has .ast = false)
    (hadds : options.AddsListing options')
    (hexit : (run host fuel env disk arguments).status = .exit 0) :
    let bounds := (host.bounds env fuel).inside 2
    let room := runLimit env - (host.frames + 2)
    let r := run host fuel env disk arguments
    let r' := run host fuel env disk arguments'
    ∃ source s program text value before, disk.readText options.file = .ok source ∧
      startSession bounds options env disk = .ok s ∧ s.compile bounds source = .ok program ∧
      program.format none .plain = .ok text ∧ r = ⟨.exit 0, before ++ resultLine value, ""⟩ ∧
      (program.writingDepth ≤ room →
        r' = ⟨.exit 0, before ++ (text ++ "\n") ++ resultLine value, ""⟩) ∧
      (room < program.writingDepth → r'.IsReport ∧ r'.output = before) ∧
      (Term.unchainedAll program.terms = true → program.writingDepth ≤ room) := by
  intro bounds room r r'
  have hroom : bounds.depth = some room := by
    simp only [bounds, room, Host.bounds, Bounds.depth_inside, remaining_some, Nat.sub_sub]
  obtain ⟨hlimit, source, s, hsource, hs⟩ := of_run_exit_zero hargs hexit
  let paint := host.paint env options
  have hrun : r = runSource bounds paint options s source := by
    rw [← runOptions_of_start hsource hs]
    exact run_eq_runOptions host fuel env disk hargs hlimit
  have hrun' : r' = runSource bounds paint options' s source := by
    have hs' : startSession bounds options' env disk = .ok s := by
      rw [← hs, startSession, startSession, hadds.has_eq (by decide), hadds.has_eq (by decide)]
    have hpaint : paint = host.paint env options' := by
      have hcolour : options'.has .noColor = options.has .noColor := hadds.has_eq (by decide)
      simp only [paint, Host.paint, hcolour]
    rw [hpaint, ← runOptions_of_start (hadds.file ▸ hsource) hs']
    exact run_eq_runOptions host fuel env disk hargs' hlimit
  have hstatus : (runSource bounds paint options s source).status = .exit 0 := hrun ▸ hexit
  obtain ⟨script, program, value, hread, hcompile, hvalue⟩ := of_runSource_exit_zero hast hstatus
  obtain ⟨hfaithful, hnesting⟩ := (Session.within_of_start hs).of_compile hcompile
  have hast' : options'.has .ast = true := hadds.flags .ast
  have hbefore : listing options' source = listing options source := by
    rw [listing, listing, hadds.has_eq (by decide)]
  refine ⟨source, s, program, _, value, listing options source, hsource, hs, hcompile,
    Program.format_none .plain hfaithful, ?_, fun hfits => ?_, fun hdeep => ?_, fun hchains => ?_⟩
  · rw [hrun, runSource_of_compile hread hcompile, runProgram_eq hast, hvalue]
    rfl
  · have hdepth : exceeds bounds.depth program.writingDepth = false := by simpa [hroom] using hfits
    rw [hrun', runSource_of_compile hread hcompile, hbefore,
      runProgram_of_fits hast' hfaithful hdepth hvalue]
  · have hdepth : exceeds bounds.depth program.writingDepth = true := by simpa [hroom] using hdeep
    rw [hrun', runSource_of_compile hread hcompile, hbefore, runProgram_of_deep hast' hfaithful hdepth]
    exact failProgram_spec (unanswered_listing options source) paint _ _ (.inr rfl)
  · have hread : ∀ t ∈ program.terms, t.toExpr.nestingFrom 0 false + 8 ≤ room := by
      intro t ht
      have hle := hnesting t ht
      rw [hroom, exceeds_some, decide_eq_false_iff_not, Script.readingFrames] at hle
      omega
    refine Term.depthAll_le (Nat.zero_le _) fun t ht => ?_
    have hwrite : t.depthFrom .writing 2 ≤ t.toExpr.nestingFrom 0 false + 5 :=
      t.depthFrom_le_nestingFrom false (Nat.le_refl 2)
        ((Term.allWellFormed_iff _).mp hfaithful.allWellFormed_terms t ht) (Term.unchained_of_mem hchains ht)
    have hle := hread t ht
    omega

/-- A definition that is written as it is read, with the tokens before it. -/
theorem run_listing_adds_after_tokens :
    let host : Host := ⟨.escaping, 1⟩
    let disk : Disk := ⟨fun _ => .ok (.file "def f(x) = s(s(x)) f(z)".toUTF8)⟩
    let arguments := ["--tokens", "p"]
    let arguments' := ["--tok", "p", "--ast"]
    parseArguments arguments = .ok (.run ⟨"p", [.tokens]⟩) ∧
      parseArguments arguments' = .ok (.run ⟨"p", [.tokens, .ast]⟩) ∧
      (run host 20 .empty disk arguments).status = .exit 0 ∧
      ∃ text value before, run host 20 .empty disk arguments = ⟨.exit 0, before ++ resultLine value, ""⟩ ∧
        run host 20 .empty disk arguments' = ⟨.exit 0, before ++ (text ++ "\n") ++ resultLine value, ""⟩ ∧
        text = "def f(x) = s(s(x))\nf(z)" := by
  intro host disk arguments arguments'
  have hargs : parseArguments arguments = .ok (.run ⟨"p", [.tokens]⟩) := by decide +kernel
  have hargs' : parseArguments arguments' = .ok (.run ⟨"p", [.tokens, .ast]⟩) := by decide +kernel
  have hexit : (run host 20 .empty disk arguments).status = .exit 0 := by decide +kernel
  have hadds : Options.AddsListing ⟨"p", [.tokens]⟩ ⟨"p", [.tokens, .ast]⟩ :=
    ⟨rfl, fun flag => by cases flag <;> rfl⟩
  let f : Lambda := ⟨["x"], .succ (.succ (.var "x"))⟩
  let made : Program := ⟨⟨[("f", f)]⟩, .empty, some (.call "f" [.zero])⟩
  obtain ⟨source, s, program, text, value, before, hsource, hs, hcompile, htext, hr, hfits, -⟩ :=
    run_listing_adds host 20 .empty disk arguments arguments' _ _ hargs hargs' rfl hadds hexit
  have hread : disk.readText "p" = .ok "def f(x) = s(s(x)) f(z)" := by decide +kernel
  obtain rfl := Except.ok.inj (hsource.symm.trans hread)
  obtain rfl : ⟨.lenient, [], .empty⟩ = s := Except.ok.inj hs
  have hmade : (Session.mk .lenient [] .empty).compile ((host.bounds .empty 20).inside 2)
      "def f(x) = s(s(x)) f(z)" = .ok made := by decide +kernel
  obtain rfl := Except.ok.inj (hcompile.symm.trans hmade)
  have hformat : made.format none .plain = .ok "def f(x) = s(s(x))\nf(z)" := by decide +kernel
  obtain rfl := Except.ok.inj (htext.symm.trans hformat)
  exact ⟨hargs, hargs', hexit, _, value, before, hr, hfits (by decide +kernel), rfl⟩

/-- The text of a numeral. -/
def numeralText (n : Nat) : String :=
  String.ofList (Text.nested n ['s', '('] ['z'])

/-- The program that is a numeral. -/
def numeralProgram (n : Nat) : Program :=
  ⟨.empty, .empty, some (Expr.numeral n).toTerm⟩

theorem parse_numeralText (n : Nat) :
    Script.parse none (numeralText n) = .ok ⟨[], some (.numeral n)⟩ := by
  have htext : (Expr.numeral n).write .plain = Text.nested n ['s', '('] ['z'] := Expr.write_numeral .plain n
  rw [numeralText, ← htext]
  exact Script.parse_write_expression (Expr.wellFormed_numeral n)

/-- A numeral is read however long it is. -/
theorem read_numeralText (n : Nat) {bounds : Bounds}
    (h : exceeds bounds.depth (Script.readingFrames + 1) = false) :
    Script.read bounds (numeralText n) = .ok ⟨[], some (.numeral n)⟩ :=
  Script.read_of_nesting_le (parse_numeralText n) (Script.nesting_numeral_le n) h

theorem compile_numeralText (mode : Mode) (n : Nat) {bounds : Bounds}
    (h : exceeds (bounds.inside 1).depth (Script.readingFrames + 1) = false) :
    (Session.mk mode [] .empty).compile bounds (numeralText n) = .ok (numeralProgram n) := by
  have hextend : (Session.mk mode [] .empty).extend (bounds.inside 1) (numeralText n) =
      .ok ⟨[], some (.numeral n)⟩ := by
    rw [Session.extend, read_numeralText n h]
    rfl
  have hprogram : Program.ofScript (bounds.inside 1) mode ⟨[], some (.numeral n)⟩ = .ok (numeralProgram n) :=
    Program.ofScript_eq_ok_iff.mpr ⟨rfl, rfl, Program.lowerResult_eq none (Expr.wellFormed_numeral n)⟩
  rw [Session.compile, hextend]
  exact hprogram

theorem depthFrom_writing_addSucc (n : Nat) (e : Expr) (depth : Nat) :
    (Expr.addSucc n e).toTerm.depthFrom .writing depth = e.toTerm.depthFrom .writing (depth + n) := by
  induction n generalizing e with
  | zero => rfl
  | succ n ih =>
    rw [Expr.addSucc, ih, Expr.toTerm, Term.depthFrom, Nat.add_assoc]
    rfl

/-- Each successor of a numeral is written one deeper. -/
theorem writingDepth_numeralProgram (n : Nat) : (numeralProgram n).writingDepth = n + 4 := by
  have hterms : (numeralProgram n).terms = [(Expr.numeral n).toTerm] := rfl
  have hzero : (Expr.toTerm .zero).depthFrom .writing (2 + n) = 2 + n + 2 := rfl
  rw [Program.writingDepth, hterms, Term.depthAll_cons, Term.depthAll, Expr.numeral,
    depthFrom_writing_addSucc, hzero, Nat.zero_max]
  omega

theorem exists_run_numeralProgram (mode : Mode) (n : Nat) :
    ∃ least, ∀ limit, ∀ fuel ≥ least, (numeralProgram n).run ⟨limit, fuel⟩ mode = .ok (some n) := by
  obtain ⟨least, hl⟩ := (evaluates_numeral mode .empty .empty n).exists_least
  refine ⟨least, fun limit fuel hle => ?_⟩
  rw [Program.run]
  simp only [numeralProgram, hl fuel hle]
  rfl

/-- A numeral that is longer than the limit is read and evaluated, but not written: without the listing a run
succeeds, and with it the run reports a failure. -/
theorem exists_run_numeralText (host : Host) (hframes : host.frames ≤ 900) (env : Environment)
    (hmax : env.nestingLimit ≤ 0x7fffffff) {n : Nat} (hn : runLimit env < n) :
    let disk : Disk := ⟨fun _ => .ok (.file (numeralText n).toUTF8)⟩
    ∃ fuel, run host fuel env disk ["p"] = ⟨.exit 0, resultLine (some n), ""⟩ ∧
      (run host fuel env disk ["--ast", "p"]).IsReport := by
  intro disk
  have hargs : parseArguments ["p"] = .ok (.run ⟨"p", []⟩) := by decide +kernel
  have hargs' : parseArguments ["--ast", "p"] = .ok (.run ⟨"p", [.ast]⟩) := by decide +kernel
  have hsource : disk.readText "p" = .ok (numeralText n) := by
    have hplain : '\r' ∉ (numeralText n).toList := by simp [numeralText, Text.nested, List.mem_replicate]
    exact decode_toUTF8 hplain
  obtain ⟨fuel, hvalues⟩ := exists_run_numeralProgram env.mode n
  let bounds := (host.bounds env fuel).inside 2
  have hdepth : bounds.depth = some (runLimit env - host.frames - 2) := rfl
  have hvalue : (numeralProgram n).run bounds env.mode = .ok (some n) := hvalues _ fuel (Nat.le_refl fuel)
  let s : Session := ⟨env.mode, [], .empty⟩
  have hs : startSession bounds ⟨"p", []⟩ env disk = .ok s := startSession_plain rfl rfl
  have hs' : startSession bounds ⟨"p", [.ast]⟩ env disk = .ok s := startSession_plain rfl rfl
  have hroom : exceeds (bounds.inside 1).depth (Script.readingFrames + 1) = false := by
    have hleast : leastLimit ≤ runLimit env := Nat.le_max_left _ _
    rw [leastLimit] at hleast
    simp only [Bounds.depth_inside, hdepth, remaining_some, exceeds_some, Script.readingFrames,
      decide_eq_false_iff_not]
    omega
  have hread : Script.read (bounds.inside 1) (numeralText n) = .ok ⟨[], some (.numeral n)⟩ :=
    read_numeralText n hroom
  have hcompile : s.compile bounds (numeralText n) = .ok (numeralProgram n) :=
    compile_numeralText env.mode n hroom
  have hfaithful := ((Session.within_of_start hs).of_compile hcompile).1
  have hdeep : exceeds bounds.depth (numeralProgram n).writingDepth = true := by
    rw [hdepth, writingDepth_numeralProgram, exceeds_some, decide_eq_true_eq]
    omega
  refine ⟨fuel, ?_, ?_⟩
  · rw [run_eq_runOptions host fuel env disk hargs hmax, runOptions_of_start hsource hs,
      runSource_of_compile hread hcompile, runProgram_eq rfl, hvalue]
    exact congrArg (Result.mk (.exit 0) · "") String.empty_append
  · rw [run_eq_runOptions host fuel env disk hargs' hmax, runOptions_of_start hsource hs',
      runSource_of_compile hread hcompile, runProgram_of_deep rfl hfaithful hdeep]
    exact (failProgram_spec (unanswered_listing _ _) _ _ _ (.inr rfl)).1

/-- A run that succeeds without the listing and fails with it. -/
theorem run_listing_refuses_long_numeral :
    let host : Host := ⟨.escaping, 1⟩
    let env := Environment.empty.set "PEANO_RECURSION_LIMIT" "1000"
    let disk : Disk := ⟨fun _ => .ok (.file (numeralText 3000).toUTF8)⟩
    ∃ fuel, run host fuel env disk ["p"] = ⟨.exit 0, "The result is 3000\n", ""⟩ ∧
      (run host fuel env disk ["--ast", "p"]).IsReport := by
  intro host env
  have hmax : env.nestingLimit ≤ 0x7fffffff := by decide +kernel
  have hlimit : runLimit env < 3000 := by decide +kernel
  have hline : resultLine (some 3000) = "The result is 3000\n" := by decide +kernel
  rw [← hline]
  exact exists_run_numeralText host (by decide) env hmax hlimit

end CommandLine

end Unary
