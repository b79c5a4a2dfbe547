import Mathlib.Data.List.Induction
import Mathlib.Data.Prod.Lex
import Mathlib.Tactic.Common
import Unary.Text.Position

/-!
Positions as coordinates of a text.

A position is found one character at a time, and every character moves it forward. What it says of the text
before an offset fixes it, and so an offset can be told from its position.
-/

namespace Unary.Text

variable {source : List Char} {c : Char} {j k : Nat}

theorem extract_succ (h : source[k]? = some c) {start : Nat} (hle : start ≤ k) :
    source.extract start (k + 1) = source.extract start k ++ [c] := by
  rw [List.extract_eq_take_drop, List.extract_eq_take_drop, Nat.succ_sub hle, List.take_add_one,
    List.getElem?_drop, Nat.add_sub_cancel' hle, h, Option.toList_some]

theorem extract_append_extract (source : List Char) {start stop : Nat} (hstart : start ≤ k) (hstop : k ≤ stop) :
    source.extract start k ++ source.extract k stop = source.extract start stop := by
  have hwidth : stop - start = k - start + (stop - k) := by omega
  rw [List.extract_eq_take_drop, List.extract_eq_take_drop, List.extract_eq_take_drop, hwidth, List.take_add,
    List.drop_drop, Nat.add_sub_cancel' hstart]

theorem take_append_extract (source : List Char) {start : Nat} (hle : start ≤ k) :
    source.take start ++ source.extract start k = source.take k :=
  extract_append_extract source (Nat.zero_le start) hle

theorem mem_extract_of_getElem? {start : Nat} (h : source[j]? = some c) (hle : start ≤ j) (hlt : j < k) :
    c ∈ source.extract start k := by
  refine List.mem_of_getElem? (i := j - start) ?_
  rw [List.extract_eq_take_drop, List.getElem?_take_of_lt (by omega), List.getElem?_drop,
    Nat.add_sub_cancel' hle, h]

/-- The offset at which a line starts, lines counted from zero. -/
def lineStart : List Char → Nat → Nat
  | _, 0 => 0
  | [], _ + 1 => 0
  | c :: cs, n + 1 => lineStart cs (if c = '\n' then n else n + 1) + 1

/-- A line starts right after as many newlines as there are lines before it. -/
theorem lineStart_count {start : Nat} (h : start = 0 ∨ source[start - 1]? = some '\n') :
    lineStart source ((source.take start).count '\n') = start := by
  induction source generalizing start with
  | nil =>
    rcases h with rfl | h
    · rfl
    · cases h
  | cons c cs ih =>
    rcases h with rfl | h
    · rfl
    cases start with
    | zero => rfl
    | succ start =>
      have hstart : start = 0 ∨ cs[start - 1]? = some '\n' := by
        cases start with
        | zero => exact .inl rfl
        | succ start => exact .inr h
      rw [List.take_succ_cons]
      by_cases hc : c = '\n'
      · rw [hc, List.count_cons_self, lineStart, if_pos rfl, ih hstart]
      · -- The newline before the start is not the first character, so it is counted in the rest.
        have hmem : '\n' ∈ cs.take start := by
          cases start with
          | zero => exact absurd (Option.some.inj h) hc
          | succ start =>
            refine List.mem_of_getElem? (i := start) ?_
            rw [List.getElem?_take_of_lt (Nat.lt_succ_self start)]
            exact h
        obtain ⟨n, hn⟩ := Nat.exists_eq_succ_of_ne_zero (List.count_pos_iff.mpr hmem).ne'
        have hrest := ih hstart
        rw [hn] at hrest
        rw [List.count_cons_of_ne hc, hn, lineStart, if_neg hc, hrest]

/-- The index of the last occurrence of a character, -1 if there is none. -/
def lastIndexOf (c : Char) (text : List Char) : Int :=
  (text.reverse.idxOf? c).elim (-1) fun i => text.length - 1 - i

theorem lastIndexOf_append_singleton (c d : Char) (text : List Char) :
    lastIndexOf c (text ++ [d]) = if d = c then (text.length : Int) else lastIndexOf c text := by
  rw [lastIndexOf, lastIndexOf, List.reverse_append, List.reverse_singleton, List.singleton_append,
    List.idxOf?_cons, List.length_append, List.length_singleton]
  by_cases h : d = c
  · simp [h]
  · rw [beq_eq_false_iff_ne.mpr h, if_neg h]
    cases text.reverse.idxOf? c with
    | none => rfl
    | some i =>
      simp only [Bool.false_eq_true, if_false, Option.map_some, Option.elim_some]
      omega

namespace Position

/-- A text moves the first position on by as many lines as it has newlines, and by as many columns as it has
characters after the last one. -/
theorem foldl_next_origin (text : List Char) :
    (text.foldl next origin).line = text.count '\n' + 1 ∧
      ((text.foldl next origin).column : Int) = text.length - lastIndexOf '\n' text := by
  induction text using List.reverseRecOn with
  | nil => exact ⟨rfl, rfl⟩
  | append_singleton text c ih =>
    obtain ⟨hline, hcolumn⟩ := ih
    rw [List.foldl_append, List.foldl_cons, List.foldl_nil, List.count_append, List.length_append,
      List.length_singleton, lastIndexOf_append_singleton]
    by_cases hc : c = '\n'
    · subst hc
      rw [next_newline, if_pos rfl, hline]
      refine ⟨rfl, ?_⟩
      simp only
      omega
    · rw [next_of_ne _ hc, if_neg hc, hline, List.count_singleton, beq_eq_false_iff_ne.mpr hc]
      refine ⟨rfl, ?_⟩
      simp only
      omega

/-- The position of an offset by two searches of the text before it: a count of the newlines, and a search for the
last of them, which finds -1 if there is none. The offset is first moved into the text. -/
theorem ofOffset_eq_searches (source : List Char) (offset : Int) :
    let k := min (max offset 0) source.length
    let text := source.take k.toNat
    (ofOffset source offset).line = text.count '\n' + 1 ∧
      ((ofOffset source offset).column : Int) = k - (lastIndexOf '\n' text + 1) + 1 := by
  intro k text
  have hlength : (text.length : Int) = k := by
    rw [List.length_take]
    omega
  have htake : source.take offset.toNat = text := by
    rcases Nat.le_total offset.toNat source.length with hle | hle
    · rw [show offset.toNat = k.toNat by omega]
    · rw [List.take_of_length_le hle]
      exact (List.take_of_length_le (by omega)).symm
  obtain ⟨hline, hcolumn⟩ := foldl_next_origin text
  rw [ofOffset, htake]
  refine ⟨hline, ?_⟩
  rw [hcolumn, hlength]
  omega

/-- A position as a pair that is ordered by its line and then by its column. -/
def coordinates (p : Position) : ℕ ×ₗ ℕ :=
  toLex (p.line, p.column)

theorem coordinates_lt_next (p : Position) (c : Char) : p.coordinates < (p.next c).coordinates := by
  rw [coordinates, coordinates, Prod.Lex.toLex_lt_toLex]
  by_cases hc : c = '\n'
  · rw [hc, next_newline]
    exact .inl (Nat.lt_succ_self _)
  · rw [next_of_ne p hc]
    exact .inr ⟨rfl, Nat.lt_succ_self _⟩

theorem ofOffset_succ (hk : k < source.length) :
    ofOffset source (k + 1 : Nat) = (ofOffset source k).next source[k] := by
  rw [ofOffset, ofOffset, Int.toNat_natCast, Int.toNat_natCast, List.take_add_one, List.getElem?_eq_getElem hk,
    Option.toList_some, List.foldl_append]
  rfl

theorem coordinates_lt (hlt : j < k) (hk : k ≤ source.length) :
    (ofOffset source j).coordinates < (ofOffset source k).coordinates := by
  induction k, hlt using Nat.le_induction with
  | base =>
    rw [ofOffset_succ hk]
    exact coordinates_lt_next _ _
  | succ k _ ih =>
    rw [ofOffset_succ hk]
    exact (ih (Nat.le_of_lt hk)).trans (coordinates_lt_next _ _)

/-- What a position says of an offset: how many newlines come before it, and how far it is from the start of its
line, which is the start of the text or directly after a newline. -/
structure Locates (source : List Char) (k : Nat) (p : Position) : Prop where
  line : (source.take k).count '\n' + 1 = p.line
  column_pos : 1 ≤ p.column
  column_le : p.column ≤ k + 1
  unbroken : '\n' ∉ source.extract (k + 1 - p.column) k
  opens : k + 1 - p.column = 0 ∨ source[k - p.column]? = some '\n'

namespace Locates

variable {p q : Position}

theorem origin (source : List Char) : Locates source 0 origin where
  line := rfl
  column_pos := Nat.le_refl 1
  column_le := Nat.le_refl 1
  unbroken := by simp [List.extract_eq_take_drop]
  opens := .inl rfl

/-- One more character moves what is located. -/
theorem next (h : Locates source k p) (hc : source[k]? = some c) : Locates source (k + 1) (p.next c) := by
  have htake : source.take (k + 1) = source.take k ++ [c] := by
    rw [List.take_add_one, hc, Option.toList_some]
  by_cases hne : c = '\n'
  · subst hne
    rw [next_newline]
    refine ⟨?_, Nat.le_refl 1, Nat.succ_le_succ (Nat.zero_le _), ?_, .inr hc⟩
    · rw [htake, List.count_append, ← h.line]
      rfl
    · simp [List.extract_eq_take_drop]
  · rw [next_of_ne p hne]
    have hstart : k + 1 + 1 - (p.column + 1) = k + 1 - p.column := Nat.add_sub_add_right ..
    refine ⟨?_, Nat.succ_le_succ (Nat.zero_le _), Nat.succ_le_succ h.column_le, ?_, ?_⟩
    · rw [htake, List.count_append, List.count_singleton, beq_eq_false_iff_ne.mpr hne]
      exact h.line
    · have hcolumn := h.column_pos
      rw [hstart, extract_succ hc (by omega), List.mem_append, List.mem_singleton, not_or]
      exact ⟨h.unbroken, Ne.symm hne⟩
    · rw [hstart, Nat.add_sub_add_right]
      exact h.opens

theorem ofOffset (hk : k ≤ source.length) : Locates source k (ofOffset source k) := by
  induction k with
  | zero => exact origin source
  | succ k ih =>
    rw [ofOffset_succ hk]
    exact (ih (Nat.le_of_lt hk)).next (List.getElem?_eq_getElem hk)

/-- No line starts between the start of the line of an offset and the offset. -/
theorem column_le_column (hp : Locates source k p) (hq : Locates source k q) : p.column ≤ q.column := by
  by_contra hlt
  have hle := hp.column_le
  rcases hq.opens with hopens | hopens
  · omega
  · exact hp.unbroken (mem_extract_of_getElem? hopens (by omega) (by have := hq.column_pos; omega))

theorem unique (hp : Locates source k p) (hq : Locates source k q) : p = q := by
  have hline : p.line = q.line := hp.line.symm.trans hq.line
  have hcolumn : p.column = q.column :=
    Nat.le_antisymm (hp.column_le_column hq) (hq.column_le_column hp)
  cases p
  cases q
  exact congrArg₂ Position.mk hline hcolumn

end Locates

/-- The offset of a position. -/
def toOffset (source : List Char) (p : Position) : Nat :=
  lineStart source (p.line - 1) + (p.column - 1)

theorem Locates.toOffset_eq {p : Position} (h : Locates source k p) : toOffset source p = k := by
  have hpos := h.column_pos
  have hle := h.column_le
  have hopens : k + 1 - p.column = 0 ∨ source[k + 1 - p.column - 1]? = some '\n' := by
    rw [show k + 1 - p.column - 1 = k - p.column by omega]
    exact h.opens
  have hstart : k + 1 - p.column ≤ k := by omega
  have hcount : p.line - 1 = (source.take (k + 1 - p.column)).count '\n' := by
    rw [← h.line, ← take_append_extract source hstart, List.count_append, List.count_eq_zero.mpr h.unbroken]
    rfl
  rw [toOffset, hcount, lineStart_count hopens]
  omega

/-- Positions are coordinates of a text. From its start to its end they go up line by line and column by column,
so no two offsets have one position. A position tells how many newlines come before its offset and how far it is
from the start of its line, it is the only one that tells so, and the offset can be found from it. An offset
outside the text has the position of the nearer end. -/
theorem ofOffset_exact (source : List Char) :
    (∀ i j : Int, 0 ≤ i → i < j → j ≤ source.length →
      (ofOffset source i).coordinates < (ofOffset source j).coordinates) ∧
    (∀ i j : Int, 0 ≤ i → i ≤ source.length → 0 ≤ j → j ≤ source.length →
      ofOffset source i = ofOffset source j → i = j) ∧
    (∀ k : Nat, k ≤ source.length →
      (∀ p, ofOffset source k = p ↔ Locates source k p) ∧ toOffset source (ofOffset source k) = k) ∧
    (∀ offset : Int, offset ≤ 0 → ofOffset source offset = ofOffset source 0) ∧
    ∀ offset : Int, source.length ≤ offset → ofOffset source offset = ofOffset source source.length := by
  have hmono : ∀ i j : Int, 0 ≤ i → i < j → j ≤ source.length →
      (ofOffset source i).coordinates < (ofOffset source j).coordinates := by
    intro i j hi hlt hj
    obtain ⟨m, rfl⟩ := Int.eq_ofNat_of_zero_le hi
    obtain ⟨n, rfl⟩ := Int.eq_ofNat_of_zero_le (hi.trans (Int.le_of_lt hlt))
    exact coordinates_lt (Int.ofNat_lt.mp hlt) (Int.ofNat_le.mp hj)
  refine ⟨hmono, ?_, ?_, ?_, ?_⟩
  · intro i j hi hi' hj hj' heq
    rcases Int.lt_trichotomy i j with hlt | rfl | hlt
    · exact absurd (heq ▸ hmono i j hi hlt hj') (lt_irrefl _)
    · rfl
    · exact absurd (heq ▸ hmono j i hj hlt hi') (lt_irrefl _)
  · intro k hk
    have hlocates := Locates.ofOffset hk
    refine ⟨fun p => ⟨?_, fun hp => hlocates.unique hp⟩, hlocates.toOffset_eq⟩
    rintro rfl
    exact hlocates
  · intro offset h
    rw [ofOffset_of_nonpos source h, ofOffset_of_nonpos source (Int.le_refl 0)]
  · intro offset h
    have hlength : source.length ≤ offset.toNat := by omega
    rw [ofOffset, ofOffset, Int.toNat_natCast, List.take_of_length_le hlength, List.take_length]

/-- An empty line between others, and offsets on both sides of the text. -/
theorem ofOffset_exact_empty_line :
    let source := "a\n\nbc".toList
    (ofOffset source 1).coordinates < (ofOffset source 2).coordinates ∧
      ofOffset source 2 = ⟨2, 1⟩ ∧ Locates source 2 ⟨2, 1⟩ ∧ toOffset source ⟨3, 2⟩ = 4 ∧
      ofOffset source (-7) = ⟨1, 1⟩ ∧ ofOffset source 9 = ⟨3, 3⟩ := by
  intro source
  obtain ⟨hmono, -, hinside, hbefore, hafter⟩ := ofOffset_exact source
  have hempty : ofOffset source 2 = ⟨2, 1⟩ := by decide
  refine ⟨hmono 1 2 (by decide) (by decide) (by decide), hempty, ((hinside 2 (by decide)).1 ⟨2, 1⟩).mp hempty,
    (hinside 4 (by decide)).2, ?_, ?_⟩
  · exact (hbefore (-7) (by decide)).trans (by decide)
  · exact (hafter 9 (by decide)).trans (by decide)

end Position

end Unary.Text
