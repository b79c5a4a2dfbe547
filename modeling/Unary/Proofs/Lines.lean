import Unary.Proofs.CommandLine
import Unary.Proofs.ProgramText

/-!
The lines of a program as it is written.

Each definition of a program stands on a line of its own, and so does its final term. A definition starts with
a keyword, and the first word of a term is all of it or stands right before a parenthesis. An answer goes on
after its first word with a blank, so no line of the program can be taken for one.
-/

namespace Unary

namespace Text

/-- Whether a text is on one line. -/
def Unbroken (cs : List Char) : Prop :=
  ∀ c ∈ cs, isLineBreak c = false

theorem unbroken_append_iff {as bs : List Char} : Unbroken (as ++ bs) ↔ Unbroken as ∧ Unbroken bs :=
  List.forall_mem_append

theorem Unbroken.after {rest : List Char} (h : Unbroken rest) (cs : List Char)
    (hcs : cs.all (fun c => !isLineBreak c) = true) : Unbroken (cs ++ rest) :=
  unbroken_append_iff.mpr ⟨forall_eq_false_of_all hcs, h⟩

theorem unbroken_commaSeparated {parts : List (List Char)} (h : ∀ part ∈ parts, Unbroken part) :
    Unbroken (commaSeparated parts) := by
  induction parts with
  | nil => exact List.forall_mem_nil _
  | cons part parts ih =>
    obtain ⟨hpart, hparts⟩ := List.forall_mem_cons.mp h
    cases parts with
    | nil =>
      rw [commaSeparated, List.intercalate_singleton]
      exact hpart
    | cons next parts =>
      rw [commaSeparated, List.intercalate_cons_cons, List.append_assoc]
      exact unbroken_append_iff.mpr ⟨hpart, (ih hparts).after [',', ' '] rfl⟩

theorem intercalate_newline {rows : List (List Char)} (h : rows ≠ []) :
    ['\n'].intercalate rows ++ ['\n'] = rows.flatMap (· ++ ['\n']) := by
  induction rows with
  | nil => exact absurd rfl h
  | cons row rows ih =>
    cases rows with
    | nil => simp
    | cons next rows =>
      rw [List.intercalate_cons_cons, List.append_assoc, ih (List.cons_ne_nil next rows),
        List.flatMap_cons (x := row), List.append_assoc]

end Text

open Text

theorem unbroken_of_isName {name : String} (h : isName name = true) : Unbroken name.toList := by
  intro c hc
  exact isLineBreak_of_isBlank
    (isBlank_of_isAlphanum (isAlphanum_of_isWord (isWord_of_isName h) c hc))

namespace Expr

mutual

/-- An expression is written on one line. -/
theorem unbroken_writeInside : ∀ (e : Expr) {rest : List Char}, e.wellFormed = true → Unbroken rest →
    Unbroken (e.writeInside .plain 0 rest)
  | zero, _, _, hrest => hrest.after ['z'] rfl
  | succ a, _, he, hrest => by
    rw [wellFormed] at he
    rw [writeInside, writeInside_succ _ _ _ a he]
    exact (unbroken_writeInside a he (hrest.after [')'] rfl)).after ['s', '('] rfl
  | var x, _, he, hrest => by
    rw [writeInside, Palette.openSucc_zero, Palette.closeSucc_zero]
    exact unbroken_append_iff.mpr ⟨unbroken_of_isName he, hrest⟩
  | call f as, _, he, hrest => by
    obtain ⟨hf, -, has⟩ := wellFormed_call_iff.mp he
    have hargs := unbroken_writeArgs as has (hrest.after [')'] rfl)
    rw [writeInside, Palette.openSucc_zero, Palette.closeSucc_zero]
    exact unbroken_append_iff.mpr ⟨unbroken_of_isName hf, hargs.after ['('] rfl⟩
  | cond a b c d, _, he, hrest => by
    obtain ⟨ha, hb, hc, hd⟩ := wellFormed_cond_iff.mp he
    have hno := unbroken_writeInside d hd hrest
    have hyes := unbroken_writeInside c hc (hno.after " else ".toList rfl)
    have hright := unbroken_writeInside b hb (hyes.after ")) then ".toList rfl)
    have hleft := unbroken_writeInside a ha (hright.after ", ".toList rfl)
    rw [writeInside_cond]
    exact hleft.after "if(eq(".toList rfl

theorem unbroken_writeArgs : ∀ (as : List Expr) {rest : List Char}, allWellFormed as = true →
    Unbroken rest → Unbroken (writeArgs .plain as rest)
  | [], _, _, hrest => hrest
  | [a], _, has, hrest => unbroken_writeInside a (allWellFormed_cons_iff.mp has).1 hrest
  | a :: b :: as, _, has, hrest => by
    obtain ⟨ha, has⟩ := allWellFormed_cons_iff.mp has
    have hargs := unbroken_writeArgs (b :: as) has hrest
    exact unbroken_writeInside a ha (hargs.after ", ".toList rfl)

end

/-- The first word of an expression is all of it, or stands right before a parenthesis. -/
theorem dropWhile_write {e : Expr} (he : e.wellFormed = true) :
    (e.write .plain).dropWhile Char.isAlphanum = [] ∨
      ∃ rest, (e.write .plain).dropWhile Char.isAlphanum = '(' :: rest := by
  cases e with
  | zero => exact .inl rfl
  | succ a =>
    rw [wellFormed] at he
    rw [write, writeInside, writeInside_succ _ _ _ a he]
    exact .inr ⟨_, rfl⟩
  | var x =>
    have hvar : (var x).write .plain = x.toList ++ [] := rfl
    rw [hvar, List.dropWhile_append_of_pos (isAlphanum_of_isWord (isWord_of_isName he))]
    exact .inl rfl
  | call f as =>
    obtain ⟨hf, -, -⟩ := wellFormed_call_iff.mp he
    have hcall : (call f as).write .plain = f.toList ++ '(' :: writeArgs .plain as [')'] := rfl
    rw [hcall, List.dropWhile_append_of_pos (isAlphanum_of_isWord (isWord_of_isName hf))]
    exact .inr ⟨_, rfl⟩
  | cond a b c d =>
    rw [write, writeInside_cond]
    exact .inr ⟨_, rfl⟩
  | equation a b => cases he
  | text t => cases he

end Expr

theorem Definition.unbroken_write {d : Definition} (hd : d.wellFormed = true) :
    Unbroken (d.write .plain) := by
  have hbody := d.body.unbroken_writeInside (d.wellFormed_body hd) (List.forall_mem_nil _)
  have hafter := hbody.after " = ".toList rfl
  cases d with
  | value name body =>
    obtain ⟨hname, -⟩ := wellFormed_value_iff.mp hd
    rw [write, Palette.definition_append]
    exact (unbroken_append_iff.mpr ⟨unbroken_of_isName hname, hafter⟩).after "def ".toList rfl
  | function name params body =>
    obtain ⟨hname, ⟨-, hps⟩, -⟩ := wellFormed_function_iff.mp hd
    have hparams : Unbroken (commaSeparated (params.map Palette.plain.name)) := by
      refine unbroken_commaSeparated fun part hpart => ?_
      obtain ⟨param, hparam, rfl⟩ := List.mem_map.mp hpart
      exact unbroken_of_isName (List.all_eq_true.mp hps param hparam)
    have hhead := unbroken_append_iff.mpr ⟨hparams, hafter.after [')'] rfl⟩
    rw [write, Palette.definition_append, Palette.signature_append]
    exact (unbroken_append_iff.mpr ⟨unbroken_of_isName hname, hhead.after ['('] rfl⟩).after
      "def ".toList rfl

/-- The lines of a script as it is written. -/
def Script.rows (script : Script) : List (List Char) :=
  script.definitions.map (·.write .plain) ++ (script.result.map (·.write .plain)).toList

namespace CommandLine

theorem dropWhile_answer (value : Option Nat) :
    ∃ rest, (answer value).toList.dropWhile Char.isAlphanum = ' ' :: rest := by
  cases value with
  | none => exact ⟨"program has no final expression".toList, rfl⟩
  | some n =>
    refine ⟨"result is ".toList ++ (toString n).toList, ?_⟩
    rw [answer_some, String.toList_append]
    rfl

theorem isRow_expression {e : Expr} (he : e.wellFormed = true) : IsRow (e.write .plain) := by
  refine ⟨e.unbroken_writeInside he (List.forall_mem_nil _), fun value h => ?_⟩
  -- An answer goes on after its first word with a blank.
  obtain ⟨rest, hanswer⟩ := dropWhile_answer value
  rcases Expr.dropWhile_write he with hnil | ⟨rest', hopen⟩
  · rw [h, hanswer] at hnil
    cases hnil
  · rw [h, hanswer] at hopen
    cases hopen

theorem isRow_definition {d : Definition} (hd : d.wellFormed = true) : IsRow (d.write .plain) := by
  refine ⟨Definition.unbroken_write hd, fun value h => ?_⟩
  have hstart : (d.write .plain).head? = some 'd' := by cases d <;> rfl
  rw [h] at hstart
  cases value with
  | none => exact absurd hstart (by decide)
  | some n =>
    rw [answer_some, String.toList_append] at hstart
    exact absurd hstart (by simp)

theorem isRow_of_mem_rows {script : Script} (h : script.wellFormed = true) :
    ∀ row ∈ script.rows, IsRow row := by
  obtain ⟨hds, hr⟩ := Script.wellFormed_iff.mp h
  intro row hrow
  rcases List.mem_append.mp hrow with hrow | hrow
  · obtain ⟨d, hd, rfl⟩ := List.mem_map.mp hrow
    exact isRow_definition (List.all_eq_true.mp hds d hd)
  · obtain ⟨e, he, rfl⟩ := Option.map_eq_some_iff.mp (Option.mem_toList.mp hrow)
    exact isRow_expression ((Option.all_eq_true _ _).mp hr e he)

theorem Unanswered.append {output output' : String} (h : Unanswered output)
    (h' : Unanswered output') : Unanswered (output ++ output') := by
  obtain ⟨rows, hrows, hspec⟩ := h
  obtain ⟨rows', hrows', hspec'⟩ := h'
  refine ⟨rows ++ rows', ?_, List.forall_mem_append.mpr ⟨hspec, hspec'⟩⟩
  rw [String.toList_append, hrows, hrows', List.flatMap_append]

/-- No line of a program as it is printed can be taken for an answer. -/
theorem unanswered_write {program : Program} (h : program.Faithful) :
    Unanswered (String.ofList (program.write .plain) ++ "\n") := by
  have htext : (String.ofList (program.write .plain) ++ "\n").toList =
      ['\n'].intercalate program.toScript.rows ++ ['\n'] := by
    rw [String.toList_append, String.toList_ofList, ← Program.write_toScript]
    rfl
  by_cases hrows : program.toScript.rows = []
  · -- A program without definitions and result is printed as an empty line.
    refine ⟨[[]], by rw [htext, hrows]; rfl, ?_⟩
    intro row hrow
    rw [List.mem_singleton.mp hrow]
    refine ⟨List.forall_mem_nil _, fun value hvalue => ?_⟩
    obtain ⟨rest, hanswer⟩ := dropWhile_answer value
    rw [← hvalue] at hanswer
    cases hanswer
  · exact ⟨_, by rw [htext, intercalate_newline hrows], isRow_of_mem_rows h.script⟩

end CommandLine

end Unary
