import Unary.Colour.Escape
import Unary.Proofs.CommandLine
import Unary.Proofs.Coordinates
import Unary.Proofs.Segmentation
import Unary.Report

/-!
Excerpts of a text: the line of an offset and a caret under its character.

Positions count newlines, and displayed lines end at every line break. They agree on a line if no line break
but newlines stands in it or before it, whatever comes after it.
-/

namespace Unary

namespace Text

variable {source line : List Char} {k start stop : Nat}

/-- Lines that are ended by newlines alone are as many displayed lines, whatever follows. -/
theorem linesFrom_newline {body : List Char} (hbody : ∀ c ∈ body, isLineBreak c = true → c = '\n')
    (before rest : List Char) :
    ∃ rows : List (List Char), rows.length = body.count '\n' + 1 ∧
      linesFrom before (body ++ '\n' :: rest) = rows ++ linesFrom [] rest := by
  induction body generalizing before with
  | nil => exact ⟨[before.reverse], rfl, rfl⟩
  | cons c body ih =>
    have htail : ∀ d ∈ body, isLineBreak d = true → d = '\n' :=
      fun d hd => hbody d (List.mem_cons_of_mem c hd)
    by_cases hc : c = '\n'
    · subst hc
      obtain ⟨rows, hlength, hrows⟩ := ih htail []
      refine ⟨before.reverse :: rows, ?_, ?_⟩
      · rw [List.length_cons, hlength, List.count_cons_self]
      · exact congrArg (before.reverse :: ·) hrows
    · have hplain : isLineBreak c = false :=
        Bool.eq_false_iff.mpr fun h => hc (hbody c List.mem_cons_self h)
      have hne : c ≠ '\r' := by
        rintro rfl
        exact absurd hplain (by decide)
      obtain ⟨rows, hlength, hrows⟩ := ih htail (c :: before)
      refine ⟨rows, ?_, ?_⟩
      · rw [hlength, List.count_cons_of_ne hc]
      · rw [List.cons_append, linesFrom, if_neg (by simp [hplain]), hrows]
        exact fun _ h => absurd h hne

/-- A line that nothing ends is a displayed line, unless it is empty. -/
theorem linesFrom_of_unbroken (hline : ∀ c ∈ line, isLineBreak c = false) (before : List Char) :
    linesFrom before line = if (before.reverse ++ line).isEmpty then [] else [before.reverse ++ line] := by
  induction line generalizing before with
  | nil => simp [linesFrom]
  | cons c line ih =>
    have hc : isLineBreak c = false := hline c List.mem_cons_self
    have hne : c ≠ '\r' := by
      rintro rfl
      exact absurd hc (by decide)
    rw [linesFrom, if_neg (by simp [hc]), ih fun d hd => hline d (List.mem_cons_of_mem c hd)]
    · simp
    · exact fun _ h => absurd h hne

/-- The first displayed line goes up to the first newline, if no other break comes before it. -/
theorem getD_lines_zero (hline : ∀ c ∈ line, isLineBreak c = false) {rest : List Char}
    (hrest : rest = [] ∨ rest.head? = some '\n') : (lines (line ++ rest)).getD 0 [] = line := by
  rcases hrest with rfl | hrest
  · rw [List.append_nil, lines, linesFrom_of_unbroken hline]
    cases line <;> rfl
  · obtain ⟨tail, rfl⟩ := List.head?_eq_some_iff.mp hrest
    rw [lines, linesFrom_append hline]
    rfl

/-- The line of an offset. It starts at the start of the text or directly after a newline, has no newline in it,
and stops at the next newline or the end of the text. -/
structure IsLineAt (source : List Char) (k start stop : Nat) : Prop where
  start_le : start ≤ k
  le_stop : k ≤ stop
  stop_le : stop ≤ source.length
  opens : start = 0 ∨ source[start - 1]? = some '\n'
  unbroken : '\n' ∉ source.extract start stop
  closes : stop = source.length ∨ source[stop]? = some '\n'

theorem exists_isLineAt (hk : k ≤ source.length) : ∃ start stop, IsLineAt source k start stop := by
  have hlocates := Position.Locates.ofOffset hk
  obtain ⟨stop, hstretch⟩ := exists_isStretch (· != '\n') hk
  have hcolumn := hlocates.column_pos
  have hle : k + 1 - (Position.ofOffset source k).column ≤ k := by omega
  refine ⟨_, stop, hle, hstretch.le, hstretch.le_length, ?_, ?_, ?_⟩
  · rw [Nat.sub_right_comm, Nat.add_sub_cancel]
    exact hlocates.opens
  · rw [← extract_append_extract source hle hstretch.le, List.mem_append, not_or]
    refine ⟨hlocates.unbroken, fun hmem => ?_⟩
    rw [← hstretch.taken] at hmem
    exact absurd (List.all_eq_true.mp List.all_takeWhile '\n' hmem) (by decide)
  · have hends := hstretch.ends
    cases hc : source[stop]? with
    | none => exact .inl (Nat.le_antisymm hstretch.le_length (List.getElem?_eq_none_iff.mp hc))
    | some c =>
      rw [hc] at hends
      exact .inr (by simpa using hends)

namespace IsLineAt

theorem unbroken_front (h : IsLineAt source k start stop) : '\n' ∉ source.extract start k := by
  have hline := h.unbroken
  rw [← extract_append_extract source h.start_le h.le_stop, List.mem_append, not_or] at hline
  exact hline.1

theorem position (h : IsLineAt source k start stop) :
    Position.ofOffset source k = ⟨(source.take start).count '\n' + 1, k - start + 1⟩ := by
  have hle := h.start_le
  have hstart : k + 1 - (k - start + 1) = start := by omega
  refine (Position.Locates.ofOffset (h.le_stop.trans h.stop_le)).unique ⟨?_, by simp, by simp, ?_, ?_⟩
  · rw [← take_append_extract source hle, List.count_append, List.count_eq_zero.mpr h.unbroken_front, Nat.add_zero]
  · rw [hstart]
    exact h.unbroken_front
  · rw [hstart, show k - (k - start + 1) = start - 1 by omega]
    exact h.opens

/-- The displayed line of an offset, taken by the number of its position. -/
theorem getD_lines (h : IsLineAt source k start stop)
    (hbreaks : ∀ c ∈ source.take stop, isLineBreak c = true → c = '\n') :
    (lines source).getD ((source.take start).count '\n') [] = source.extract start stop := by
  have hle : start ≤ stop := h.start_le.trans h.le_stop
  have hline : ∀ c ∈ source.extract start stop, isLineBreak c = false := by
    intro c hc
    refine Bool.eq_false_iff.mpr fun hbreak => h.unbroken ?_
    have hmem : c ∈ source.take stop := by
      rw [← take_append_extract source hle]
      exact List.mem_append_right _ hc
    rw [← hbreaks c hmem hbreak]
    exact hc
  have hrest : source.drop stop = [] ∨ (source.drop stop).head? = some '\n' := by
    rw [List.drop_eq_nil_iff, List.head?_drop]
    rcases h.closes with hend | hend
    · exact .inl hend.ge
    · exact .inr hend
  have hdrop : source.drop start = source.extract start stop ++ source.drop stop := by
    rw [List.extract_eq_take_drop, ← Nat.add_sub_cancel' hle, ← List.drop_drop, Nat.add_sub_cancel_left,
      List.take_append_drop]
  have hfirst : (lines (source.drop start)).getD 0 [] = source.extract start stop := by
    rw [hdrop]
    exact getD_lines_zero hline hrest
  cases start with
  | zero => exact hfirst
  | succ n =>
    have hn : source[n]? = some '\n' := h.opens.resolve_left (Nat.succ_ne_zero n)
    have habove : ∀ c ∈ source.take n, isLineBreak c = true → c = '\n' := by
      intro c hc
      exact hbreaks c (List.mem_of_mem_take (by rwa [List.take_take, Nat.min_eq_left (Nat.le_of_lt hle)]))
    -- What stands above the line, with the newline before it, is as many displayed lines as it has newlines.
    obtain ⟨rows, hlength, hrows⟩ := linesFrom_newline habove [] (source.drop (n + 1))
    rw [← drop_eq_cons hn, List.take_append_drop] at hrows
    have hcount : (source.take (n + 1)).count '\n' = rows.length := by
      rw [hlength, List.take_add_one, hn, Option.toList_some, List.count_append]
      rfl
    rw [lines, hrows, hcount, List.getD_eq_getElem?_getD, List.getElem?_append_right (Nat.le_refl _),
      Nat.sub_self, ← List.getD_eq_getElem?_getD]
    exact hfirst

theorem length_extract (h : IsLineAt source k start stop) :
    (source.extract start stop).length = stop - start := by
  have hstop := h.stop_le
  rw [List.extract_eq_take_drop, List.length_take, List.length_drop]
  omega

/-- The character of an offset is in its line, unless the line stops there. -/
theorem getElem?_extract (h : IsLineAt source k start stop) (hlt : k < stop) :
    (source.extract start stop)[k - start]? = source[k]? := by
  have hstart := h.start_le
  rw [List.extract_eq_take_drop, List.getElem?_take_of_lt (by omega), List.getElem?_drop,
    Nat.add_sub_cancel' hstart]

theorem eq_stop_iff (h : IsLineAt source k start stop) :
    k = stop ↔ source[k]? = some '\n' ∨ k = source.length := by
  constructor
  · rintro rfl
    exact h.closes.symm
  · intro hend
    by_contra hne
    have hlt : k < stop := Nat.lt_of_le_of_ne h.le_stop hne
    rcases hend with hc | hend
    · exact h.unbroken (mem_extract_of_getElem? hc h.start_le hlt)
    · exact absurd h.stop_le (by omega)

end IsLineAt

end Text

namespace Report

variable (painter : Painter)

/-- A line is whole, whichever of its characters is marked. -/
theorem take_append_take_drop (line : List Char) (n : Nat) :
    line.take n ++ (line.drop n).take 1 ++ line.drop (n + 1) = line := by
  rw [List.append_assoc, ← List.drop_drop, List.take_append_drop, List.take_append_drop]

/-- The excerpt of the position of an offset: its line, and a caret as far from the start as the offset. -/
theorem excerptChars_eq {source : List Char} {k start stop : Nat} (h : Text.IsLineAt source k start stop)
    (hbreaks : ∀ c ∈ source.take stop, Text.isLineBreak c = true → c = '\n') :
    excerptChars (painter.styled false) source k = "  ".toList ++ source.extract start stop ++ "\n  ".toList ++
      List.replicate (k - start) ' ' ++ ['^'] := by
  have hplain (text : List Char) : painter.styled false alarm text = text := rfl
  unfold excerptChars
  rw [h.position]
  simp only [Nat.add_sub_cancel, hplain]
  rw [h.getD_lines hbreaks, List.append_assoc _ _ (List.drop _ _), List.append_assoc _ (List.take _ _),
    ← List.append_assoc (List.take _ _), take_append_take_drop]

/-- An excerpt without colours shows the line of its offset and a caret under the character there. Every offset
of a text has one line. If no line break but newlines stands in the line or before it, the excerpt is that
line and as many spaces before the caret as characters of the line before the offset, whatever comes after the
line. So the caret is under the character of the offset, or just past the line if that is where the line
stops. -/
theorem excerpt_exact (source : String) (k : Nat) (hk : k ≤ source.length) :
    (∃ start stop, Text.IsLineAt source.toList k start stop) ∧
    ∀ start stop, Text.IsLineAt source.toList k start stop →
      (∀ c ∈ source.toList.take stop, Text.isLineBreak c = true → c = '\n') →
      let row := source.toList.extract start stop
      excerpt (painter.styled false) source k =
        "  " ++ String.ofList row ++ "\n  " ++ String.ofList (List.replicate (k - start) ' ') ++ "^" ∧
      (∀ c, source.toList[k]? = some c → c ≠ '\n' → row[k - start]? = some c) ∧
      (source.toList[k]? = some '\n' ∨ k = source.length → row.length = k - start) := by
  rw [← String.length_toList] at hk ⊢
  refine ⟨Text.exists_isLineAt hk, fun start stop hline hbreaks => ?_⟩
  refine ⟨?_, fun c hc hne => ?_, fun hend => ?_⟩
  · rw [excerpt, excerptChars_eq painter hline hbreaks, String.ofList_append, String.ofList_append,
      String.ofList_append, String.ofList_append]
    rfl
  · have hmore : k ≠ stop := by
      intro hstop
      rcases hline.eq_stop_iff.mp hstop with hnewline | hlength
      · exact hne (Option.some.inj (hc.symm.trans hnewline))
      · exact absurd (List.getElem?_eq_some_iff.mp hc).1 (by omega)
    rw [hline.getElem?_extract (Nat.lt_of_le_of_ne hline.le_stop hmore), hc]
  · rw [hline.length_extract, hline.eq_stop_iff.mpr hend]

/-- A line between others, with line breaks of other kinds after it: under its second character, and on the
newline that ends it. -/
theorem excerpt_exact_before_breaks :
    let source := "a\nbc\n\x0cd\r\ne"
    let paint := (Painter.escaping ⟨none, none, none⟩).styled false
    Text.IsLineAt source.toList 3 2 4 ∧ excerpt paint source 3 = "  bc\n   ^" ∧
      (source.toList.extract 2 4)[1]? = some 'c' ∧
      Text.IsLineAt source.toList 4 2 4 ∧ excerpt paint source 4 = "  bc\n    ^" ∧
      (source.toList.extract 2 4).length = 2 := by
  intro source paint
  have hall : (source.toList.take 4).all (fun c => !Text.isLineBreak c || c == '\n') = true := by decide
  have hbreaks : ∀ c ∈ source.toList.take 4, Text.isLineBreak c = true → c = '\n' := by
    intro c hc hbreak
    simpa [hbreak] using List.all_eq_true.mp hall c hc
  have hmiddle : Text.IsLineAt source.toList 3 2 4 :=
    ⟨by decide, by decide, by decide, by decide, by decide, by decide⟩
  have hend : Text.IsLineAt source.toList 4 2 4 :=
    ⟨by decide, by decide, by decide, by decide, by decide, by decide⟩
  obtain ⟨hshown, hmark, -⟩ := (excerpt_exact _ source 3 (by decide)).2 2 4 hmiddle hbreaks
  obtain ⟨hshown', -, hlength⟩ := (excerpt_exact _ source 4 (by decide)).2 2 4 hend hbreaks
  exact ⟨hmiddle, hshown.trans (by decide), hmark 'c' (by decide) (by decide), hend,
    hshown'.trans (by decide), hlength (.inl (by decide))⟩

end Report

end Unary
