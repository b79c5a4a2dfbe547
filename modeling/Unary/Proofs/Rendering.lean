import Mathlib.Data.List.Forall2
import Unary.Argument
import Unary.Colour.Escape
import Unary.Proofs.ProgramText
import Unary.Proofs.Translation

/-!
Expressions and terms are written in the same way.

An expression and the term that it is lowered to have one text, with every palette, and under a limit they
fail alike. So the text of a program has, for each function, the line of the definition that the function was
lowered from. The numeral of a value is not built as a tree, and still is the text of the tree.
-/

namespace Unary

section Terms

variable {limit : Option Nat} {p : Palette}

mutual

/-- Where all nodes have a written form, a limit stops a term and the expression that is the same tree at
the same node. -/
theorem Term.checkWrite_toExpr (depth : Nat) :
    ∀ t : Term, t.wellFormed = true → t.toExpr.checkWrite limit p depth = t.checkWrite limit p depth
  | .zero, _ => rfl
  | .succ arg, ht => by
    rw [wellFormed] at ht
    rw [toExpr, Expr.checkWrite, checkWrite, Term.checkWrite_toExpr (depth + 1) arg ht]
  | .var _, _ => rfl
  | .call _ args, ht => by
    rw [wellFormed] at ht
    rw [toExpr, Expr.checkWrite, checkWrite, Term.checkWriteAll_toExprs (depth + 2) args ht]
  | .cond left right yes no, ht => by
    obtain ⟨hl, hr, hy, hn⟩ := wellFormed_cond_iff.mp ht
    rw [toExpr, Expr.checkWrite, checkWrite, Term.checkWrite_toExpr _ left hl,
      Term.checkWrite_toExpr _ right hr, Term.checkWrite_toExpr _ yes hy, Term.checkWrite_toExpr _ no hn]

theorem Term.checkWriteAll_toExprs (depth : Nat) :
    ∀ ts : List Term, allWellFormed ts = true →
      Expr.checkWriteAll limit p depth (toExprs ts) = checkWriteAll limit p depth ts
  | [], _ => rfl
  | t :: ts, hts => by
    obtain ⟨ht, hts⟩ := allWellFormed_cons_iff.mp hts
    rw [toExprs, Expr.checkWriteAll, checkWriteAll, Term.checkWrite_toExpr depth t ht,
      Term.checkWriteAll_toExprs depth ts hts]

end

theorem Term.format_toExpr (p : Palette) {t : Term} (h : t.wellFormed = true) :
    t.toExpr.format limit p = t.format limit p := by
  rw [Expr.format, Term.format, checkWrite_toExpr 2 t h, Expr.write, Term.write, writeInside_toExpr]

theorem Term.format_none (p : Palette) {t : Term} (h : t.wellFormed = true) :
    t.format none p = .ok (String.ofList (t.write p)) := by
  rw [format, checkWrite_none p 2 t h]
  rfl

/-- An expression has a term exactly if it is the same tree as that term, and the tree is a term all
through. -/
theorem Expr.lower_eq_ok_iff {e : Expr} {t : Term} :
    e.lower limit = .ok t ↔ t.toExpr = e ∧ t.wellFormed = true := by
  cases hm : e.misfit? with
  | some node =>
    rw [lower_of_misfit hm]
    constructor
    · intro h
      cases h
    · rintro ⟨rfl, ht⟩
      rw [(misfit?_eq_none_iff _).mpr (by rwa [Term.toTerm_toExpr])] at hm
      cases hm
  | none =>
    rw [lower_of_no_misfit hm, Except.ok.injEq]
    constructor
    · rintro rfl
      exact ⟨toExpr_toTerm e, (misfit?_eq_none_iff e).mp hm⟩
    · rintro ⟨rfl, -⟩
      exact Term.toTerm_toExpr t

end Terms

namespace Program

/-- A definition of a function is written as the line of its entry in the table of functions. -/
theorem format_functionDefinition (p : Palette) {entry : String × Lambda}
    (h : entry.2.body.wellFormed = true) :
    (functionDefinition entry).format none p = .ok (String.ofList (writeFunction p entry.1 entry.2)) := by
  have hcheck : entry.2.body.toExpr.checkWrite none p 3 = .ok () := by
    rw [Term.checkWrite_toExpr 3 _ h, Term.checkWrite_none p 3 _ h]
  rw [Definition.format, write_functionDefinition, functionDefinition, Definition.body, hcheck]
  rfl

/-- The text of a program as lines. -/
theorem ofList_write (p : Palette) (program : Program) :
    String.ofList (program.write p) = "\n".intercalate
      (program.functions.entries.map (fun entry => String.ofList (writeFunction p entry.1 entry.2)) ++
        program.values.entries.map (fun entry => String.ofList (writeValue p entry.1 entry.2)) ++
        program.result.toList.map (fun t => String.ofList (t.write p))) := by
  rw [← String.toList_inj, String.toList_intercalate, String.toList_ofList, write, Option.toList_map]
  simp [Function.comp_def]

end Program

theorem Expr.format_numeral (p : Palette) (n : Nat) :
    (numeral n).format none p = .ok (String.ofList (p.numeral n)) :=
  format_numeral_within none p n

/-- With plain constructors, a numeral is how a message shows the number. -/
theorem Palette.numeral_eq_spellChars {p : Palette} (h : p.constructors = .plain) (n : Nat) :
    p.numeral n = (Argument.nat n).spellChars := by
  have hword : ∀ word : String, p.constructor word = word.toList := by
    intro word
    rw [constructor, h]
    rfl
  rw [numeral, hword, hword]
  rfl

/-- An expression has, with every palette, the text of its term, and a limit refuses both or neither. In the
text of a program a function stands on the line that defines it by the expression it was lowered from, and a
value as the text of its numeral, which with plain constructors is how a message shows the number. -/
theorem Palette.writes_alike (p : Palette) :
    (∀ e : Expr, e.misfit? = none → ∃ t text, e.format none p = .ok text ∧
      ∀ limit, e.lower limit = .ok t ∧ t.format limit p = e.format limit p) ∧
    (∀ program : Program, Term.allWellFormed program.terms = true →
      ∃ functionLines valueLines resultLines,
        program.format none p =
          .ok ("\n".intercalate (functionLines ++ valueLines ++ resultLines)) ∧
        List.Forall₂ (fun entry line => 
              (∃ body : Expr, ∀ limit, body.lower limit = .ok entry.2.body) ∧
            ∀ (body : Expr) (limit : Option Nat), body.lower limit = .ok entry.2.body →
              (Definition.function entry.1 entry.2.params body).format none p = .ok line)
          program.functions.entries functionLines ∧
        List.Forall₂ (fun entry line => ∃ text, (Expr.numeral entry.2).format none p = .ok text ∧
            line = String.ofList (p.definition (p.name entry.1)) ++ text)
          program.values.entries valueLines ∧
        List.Forall₂ (fun t line => t.format none p = .ok line)
          program.result.toList resultLines) ∧
    (p.constructors = .plain → ∀ n, (Expr.numeral n).format none p =
      .ok (String.ofList (Argument.nat n).spellChars)) := by
  refine ⟨?_, ?_, ?_⟩
  · intro e he
    have ht := (Expr.misfit?_eq_none_iff e).mp he
    have hsame : ∀ limit, e.toTerm.format limit p = e.format limit p := by
      intro limit
      rw [← Term.format_toExpr p ht, Expr.toExpr_toTerm]
    exact ⟨e.toTerm, _, (hsame none).symm.trans (Term.format_none p ht),
      fun limit => ⟨Expr.lower_of_no_misfit he, hsame limit⟩⟩
  · intro program h
    have hterms := (Term.allWellFormed_iff _).mp h
    refine ⟨_, _, _, (Program.format_of_allWellFormed p h).trans
      (congrArg Except.ok (program.ofList_write p)), ?_, ?_, ?_⟩
    · rw [List.forall₂_map_right_iff, List.forall₂_same]
      intro entry hentry
      have ht := hterms entry.2.body (List.mem_append_left _ (List.mem_map_of_mem hentry))
      refine ⟨⟨entry.2.body.toExpr, fun _ => Expr.lower_eq_ok_iff.mpr ⟨rfl, ht⟩⟩, fun body _ hbody => ?_⟩
      obtain ⟨rfl, -⟩ := Expr.lower_eq_ok_iff.mp hbody
      exact Program.format_functionDefinition p ht
    · rw [List.forall₂_map_right_iff, List.forall₂_same]
      intro entry hentry
      exact ⟨_, Expr.format_numeral p entry.2, String.ofList_append⟩
    · rw [List.forall₂_map_right_iff, List.forall₂_same]
      intro t ht
      exact Term.format_none p (hterms t (List.mem_append_right _ ht))
  · intro hp n
    rw [Expr.format_numeral, numeral_eq_spellChars hp]

/-- A function whose body is a conditional with a call without arguments in it, a value and a final name, with
coloured keywords: the first line of the program is the definition of the function. -/
theorem Palette.writes_alike_keywords :
    let p : Palette := .ofPainter (.escaping ⟨none, none, none⟩) ⟨true, false, false⟩
    let body : Expr := .cond (.var "x") (.call "g" []) (.succ (.var "y")) .zero
    let program : Program := ⟨⟨[("f", ⟨["x", "y"], body.toTerm⟩)]⟩, ⟨[("two", 2)]⟩, some (.var "two")⟩
    body.misfit? = none ∧ Term.allWellFormed program.terms = true ∧
      (∃ t text, body.lower none = .ok t ∧ body.format none p = .ok text ∧ t.format none p = .ok text) ∧
      (∃ line, (Definition.function "f" ["x", "y"] body).format none p = .ok line ∧
        program.format none p =
          .ok ("\n".intercalate [line, "\x1b[94mdef\x1b[0m two = s(s(z))", "two"])) ∧
      (Expr.numeral 2).format none p = .ok (String.ofList (Argument.nat 2).spellChars) := by
  intro p body program
  obtain ⟨hexpr, hprogram, hnumeral⟩ := writes_alike p
  have hbody : body.misfit? = none := rfl
  have hterms : Term.allWellFormed program.terms = true := rfl
  refine ⟨hbody, hterms, ?_, ?_, hnumeral rfl 2⟩
  · obtain ⟨t, text, htext, hterm⟩ := hexpr body hbody
    obtain ⟨ht, hsame⟩ := hterm none
    exact ⟨t, text, ht, htext, hsame.trans htext⟩
  · obtain ⟨functionLines, valueLines, resultLines, hformat, hf, hv, hr⟩ := hprogram program hterms
    obtain _ | ⟨hline, ⟨⟩⟩ := hf
    obtain _ | ⟨⟨text, htext, rfl⟩, ⟨⟩⟩ := hv
    obtain _ | ⟨hlast, ⟨⟩⟩ := hr
    cases (hnumeral rfl 2).symm.trans htext
    cases hlast
    exact ⟨_, hline.2 body none (Expr.lower_of_no_misfit hbody), hformat⟩

end Unary
