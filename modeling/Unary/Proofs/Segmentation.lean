import Unary.Proofs.Demand

/-!
The lexemes of a text, told from its characters alone.

A text without offence is divided into its maximal runs of letters and digits and its marks of punctuation,
with blanks between them, and its lexemes are these segments in order. At the first offence, a character that
can stand in no lexeme or a digit where no word goes on, the scan stops after the lexemes of what comes before.
-/

namespace Unary

/-- The marks of punctuation, with the labels of their tokens. -/
def Token.markLabels : List (Char × String) :=
  [('(', "lparen"), (')', "rparen"), ('=', "equals"), (',', "comma")]

/-- The keywords, with the labels of their tokens. -/
def Token.keywordLabels : List (String × String) :=
  [("def", "def"), ("eq", "eq"), ("z", "zero"), ("s", "succ"), ("if", "if"), ("then", "then"),
    ("else", "else")]

namespace Text

/-- Whether a letter or digit stands at an index of a text. -/
def isAlphanumAt (text : List Char) (i : Nat) : Bool :=
  text[i]?.any Char.isAlphanum

/-- Whether a letter or digit stands directly before an index. -/
def isAlphanumBefore (text : List Char) : Nat → Bool
  | 0 => false
  | i + 1 => isAlphanumAt text i

def isBlankAt (text : List Char) (i : Nat) : Bool :=
  text[i]?.any isBlank

/-- Whether the character at an index is neither blank nor a letter, digit or mark, or is a digit with no
letter or digit directly before it. -/
def isOffence (text : List Char) (i : Nat) : Bool :=
  text[i]?.any fun c =>
    !(isBlank c || c.isAlphanum || (Token.markLabels.lookup c).isSome) ||
      c.isDigit && !isAlphanumBefore text i

/-- A maximal run of letters and digits. -/
structure IsRun (text : List Char) (start stop : Nat) : Prop where
  lt : start < stop
  all : ∀ i, start ≤ i → i < stop → isAlphanumAt text i = true
  left : isAlphanumBefore text start = false
  right : isAlphanumAt text stop = false

/-- Nothing but blanks from one offset up to another. -/
structure IsGap (text : List Char) (start stop : Nat) : Prop where
  le : start ≤ stop
  all : ∀ i, start ≤ i → i < stop → isBlankAt text i = true

end Text

/-- A part of a text that a lexeme is read from, with the label and the text of the token. -/
structure Segment where
  start : Nat
  stop : Nat
  label : String
  content : String
deriving DecidableEq

def Lexeme.segment (l : Lexeme) : Segment :=
  ⟨l.start, l.stop, l.token.label, l.token.text⟩

/-- The segments of a text. A run has the label of a keyword only when the whole run is one. -/
inductive IsSegment (text : List Char) : Segment → Prop
  | run {start stop : Nat} {word : String} (run : Text.IsRun text start stop)
      (chars : word.toList = text.extract start stop) :
      IsSegment text ⟨start, stop, (Token.keywordLabels.lookup word).getD "ident", word⟩
  | mark {start : Nat} {c : Char} {label : String} (char : text[start]? = some c)
      (mark : Token.markLabels.lookup c = some label) :
      IsSegment text ⟨start, start + 1, label, String.singleton c⟩

namespace Token

theorem map_label_ofPunctuation? (c : Char) :
    (ofPunctuation? c).map label = markLabels.lookup c := by
  unfold ofPunctuation?
  split_ifs with h₁ h₂ h₃ h₄
  · subst c; rfl
  · subst c; rfl
  · subst c; rfl
  · subst c; rfl
  · refine (List.lookup_eq_none_iff.mpr ?_).symm
    simp [markLabels, h₁, h₂, h₃, h₄]

theorem lookup_markLabels {c : Char} {t : Token} (h : ofPunctuation? c = some t) :
    markLabels.lookup c = some t.label := by
  rw [← map_label_ofPunctuation?, h]
  rfl

theorem text_of_ofPunctuation? {c : Char} {t : Token} (h : ofPunctuation? c = some t) :
    t.text = String.singleton c := by
  unfold ofPunctuation? at h
  split_ifs at h with h₁ h₂ h₃ h₄
  all_goals
    subst c
    cases h
    rfl

theorem label_ofWord (word : String) :
    (ofWord word).label = (keywordLabels.lookup word).getD "ident" := by
  unfold ofWord
  split_ifs with h₁ h₂ h₃ h₄ h₅ h₆ h₇
  · subst word; rfl
  · subst word; rfl
  · subst word; rfl
  · subst word; rfl
  · subst word; rfl
  · subst word; rfl
  · subst word; rfl
  · have hnone : keywordLabels.lookup word = none := by
      refine List.lookup_eq_none_iff.mpr ?_
      simp [keywordLabels, h₁, h₂, h₃, h₄, h₅, h₆, h₇]
    rw [hnone]
    rfl

end Token

namespace Text

variable {text : List Char} {i : Nat} {c : Char}

theorem isAlphanumAt_of_getElem? (h : text[i]? = some c) : isAlphanumAt text i = c.isAlphanum := by
  rw [isAlphanumAt, h]
  rfl

theorem isBlankAt_of_getElem? (h : text[i]? = some c) : isBlankAt text i = isBlank c := by
  rw [isBlankAt, h]
  rfl

theorem lt_length_of_isAlphanumAt (h : isAlphanumAt text i = true) : i < text.length := by
  by_contra hi
  rw [isAlphanumAt, List.getElem?_eq_none_iff.mpr (Nat.not_lt.mp hi)] at h
  cases h

theorem isAlphanumAt_of_isBlankAt (h : isBlankAt text i = true) : isAlphanumAt text i = false := by
  cases hc : text[i]? with
  | none =>
    rw [isBlankAt, hc] at h
    cases h
  | some c =>
    rw [isBlankAt_of_getElem? hc] at h
    rw [isAlphanumAt_of_getElem? hc]
    exact isAlphanum_of_isBlank h

/-- A mark is neither blank nor a letter or digit. -/
theorem of_lookup_markLabels {label : String} (h : Token.markLabels.lookup c = some label) :
    isBlank c = false ∧ c.isAlphanum = false := by
  obtain ⟨t, ht, -⟩ := Option.map_eq_some_iff.mp ((Token.map_label_ofPunctuation? c).trans h)
  unfold Token.ofPunctuation? at ht
  split_ifs at ht
  all_goals
    subst c
    decide

theorem isOffence_of_isBlankAt (h : isBlankAt text i = true) : isOffence text i = false := by
  have ha := isAlphanumAt_of_isBlankAt h
  cases hc : text[i]? with
  | none => simp [isOffence, hc]
  | some c =>
    rw [isBlankAt_of_getElem? hc] at h
    rw [isAlphanumAt_of_getElem? hc, Char.isAlphanum, Bool.or_eq_false_iff] at ha
    simp [isOffence, hc, h, ha.2]

/-- A longest stretch of characters of one class, as `takeWhile` and `dropWhile` cut it off. -/
structure IsStretch (p : Char → Bool) (text : List Char) (start stop : Nat) : Prop where
  le : start ≤ stop
  le_length : stop ≤ text.length
  taken : (text.drop start).takeWhile p = text.extract start stop
  dropped : (text.drop start).dropWhile p = text.drop stop
  all : ∀ i, start ≤ i → i < stop → text[i]?.any p = true
  ends : text[stop]?.any p = false

theorem exists_isStretch (p : Char → Bool) {text : List Char} {start : Nat} (h : start ≤ text.length) :
    ∃ stop, IsStretch p text start stop := by
  let front := (text.drop start).takeWhile p
  let back := (text.drop start).dropWhile p
  have hsplit : text.drop start = front ++ back := List.takeWhile_append_dropWhile.symm
  have hlength := congrArg List.length hsplit
  rw [List.length_drop, List.length_append] at hlength
  have hget (j : Nat) : text[start + j]? = (front ++ back)[j]? := by
    rw [← hsplit, List.getElem?_drop]
  refine ⟨start + front.length, by omega, by omega, ?_, ?_, ?_, ?_⟩
  · rw [List.extract_eq_take_drop, Nat.add_sub_cancel_left, hsplit, List.take_left]
    exact (congrArg _ hsplit).symm
  · rw [← List.drop_drop, hsplit, List.drop_left]
    exact (congrArg _ hsplit).symm
  · intro i hi hstop
    obtain ⟨j, rfl⟩ := Nat.exists_eq_add_of_le hi
    have hj : j < front.length := by omega
    rw [hget, List.getElem?_append_left hj, List.getElem?_eq_getElem hj]
    have hfront : ∀ a ∈ front, p a = true := List.all_eq_true.mp List.all_takeWhile
    exact hfront _ (List.getElem_mem hj)
  · have hhead := List.head?_dropWhile_not p (text.drop start)
    rw [hget, List.getElem?_append_right (Nat.le_refl _), Nat.sub_self, ← List.head?_eq_getElem?]
    change back.head?.any p = false
    cases hb : back.head? with
    | none => rfl
    | some c =>
      rw [show ((text.drop start).dropWhile p).head? = some c from hb] at hhead
      exact hhead

theorem IsStretch.length_extract {p : Char → Bool} {start stop : Nat} (h : IsStretch p text start stop) :
    (text.extract start stop).length = stop - start := by
  have hle := h.le_length
  rw [List.extract_eq_take_drop, List.length_take, List.length_drop]
  omega

theorem drop_eq_cons (h : text[i]? = some c) :
    text.drop i = c :: text.drop (i + 1) := by
  obtain ⟨hi, rfl⟩ := List.getElem?_eq_some_iff.mp h
  exact List.drop_eq_getElem_cons hi

theorem extract_eq_cons {start stop : Nat} (h : text[start]? = some c)
    (hlt : start < stop) : text.extract start stop = c :: text.extract (start + 1) stop := by
  have hstop : stop - start = stop - (start + 1) + 1 := by omega
  rw [List.extract_eq_take_drop, List.extract_eq_take_drop, drop_eq_cons h, hstop, List.take_succ_cons]

end Text

namespace Scan

/-- What one scan finds from an offset of a text, after the blanks. -/
inductive Found (text : List Char) (offset : Nat) : Scan → Prop
  | finish (gap : Text.IsGap text offset text.length) : Found text offset (.ending (.finish text.length))
  | unexpected {start : Nat} {c : Char} (gap : Text.IsGap text offset start)
      (char : text[start]? = some c) (blank : Text.isBlank c = false) (alpha : c.isAlpha = false)
      (mark : Token.markLabels.lookup c = none) : Found text offset (.ending (.unexpected c start))
  | word {start stop : Nat} {c : Char} {opens : Bool} (gap : Text.IsGap text offset start)
      (char : text[start]? = some c) (alpha : c.isAlpha = true) (lt : start < stop)
      (all : ∀ i, start ≤ i → i < stop → Text.isAlphanumAt text i = true)
      (right : Text.isAlphanumAt text stop = false) :
      Found text offset
        (.lexeme ⟨.ofWord (String.ofList (text.extract start stop)), start, stop, opens⟩ (text.drop stop))
  | mark {start : Nat} {c : Char} {token : Token} {opens : Bool} (gap : Text.IsGap text offset start)
      (char : text[start]? = some c) (mark : Token.ofPunctuation? c = some token) :
      Found text offset (.lexeme ⟨token, start, start + 1, opens⟩ (text.drop (start + 1)))

variable {text : List Char} {offset start : Nat} {c : Char}

theorem found_atChar (hgap : Text.IsGap text offset start) (hc : text[start]? = some c)
    (hb : Text.isBlank c = false) : Found text offset (atChar start c (text.drop (start + 1))) := by
  unfold atChar
  split
  · next ha =>
    have hstart : start < text.length := (List.getElem?_eq_some_iff.mp hc).1
    obtain ⟨stop, tail⟩ : ∃ stop, Text.IsStretch Char.isAlphanum text (start + 1) stop :=
      Text.exists_isStretch _ hstart
    have hlt : start < stop := tail.le
    have hlength : start + ((text.extract (start + 1) stop).length + 1) = stop := by
      rw [tail.length_extract]
      omega
    have hall : ∀ i, start ≤ i → i < stop → Text.isAlphanumAt text i = true := by
      intro i hi hstop
      rcases Nat.eq_or_lt_of_le hi with rfl | hi
      · rw [Text.isAlphanumAt_of_getElem? hc, Char.isAlphanum, ha, Bool.true_or]
      · exact tail.all i hi hstop
    rw [tail.taken, tail.dropped]
    change Found text offset (found (.ofWord (String.ofList (c :: text.extract (start + 1) stop))) start
      ((text.extract (start + 1) stop).length + 1) (text.drop stop))
    rw [← Text.extract_eq_cons hc hlt, found, hlength]
    exact .word hgap hc ha hlt hall tail.ends
  · next ha =>
    rw [Bool.not_eq_true] at ha
    split
    · next token ht => exact .mark hgap hc ht
    · next ht =>
      refine .unexpected hgap hc hb ha ?_
      rw [← Token.map_label_ofPunctuation?, ht]
      rfl

/-- Every scan from an offset of a text finds one of these. -/
theorem found_next (h : offset ≤ text.length) : Found text offset (next offset (text.drop offset)) := by
  obtain ⟨start, blanks⟩ := Text.exists_isStretch Text.isBlank h
  have hgap : Text.IsGap text offset start := ⟨blanks.le, blanks.all⟩
  have hstart : offset + ((text.drop offset).takeWhile Text.isBlank).length = start := by
    rw [blanks.taken, blanks.length_extract, Nat.add_sub_cancel' blanks.le]
  rw [next, hstart, blanks.dropped]
  cases hc : text[start]? with
  | none =>
    have hlength : start = text.length :=
      Nat.le_antisymm blanks.le_length (List.getElem?_eq_none_iff.mp hc)
    rw [hlength] at hgap ⊢
    rw [List.drop_length]
    exact .finish hgap
  | some c =>
    have hb := blanks.ends
    rw [hc] at hb
    rw [Text.drop_eq_cons hc]
    exact found_atChar hgap hc hb

end Scan

namespace Text.IsRun

variable {text : List Char} {start stop stop' : Nat}

theorem stop_unique (run : IsRun text start stop) (run' : IsRun text start stop') : stop = stop' := by
  rcases Nat.lt_trichotomy stop stop' with hlt | heq | hlt
  · have hin := run'.all stop (Nat.le_of_lt run.lt) hlt
    rw [run.right] at hin
    cases hin
  · exact heq
  · have hin := run.all stop' (Nat.le_of_lt run'.lt) hlt
    rw [run'.right] at hin
    cases hin

theorem not_mark (run : IsRun text start stop) {c : Char} {label : String} (hc : text[start]? = some c)
    (hm : Token.markLabels.lookup c = some label) : False := by
  have hin := run.all start (Nat.le_refl _) run.lt
  rw [isAlphanumAt_of_getElem? hc, (of_lookup_markLabels hm).2] at hin
  cases hin

end Text.IsRun

namespace IsSegment

variable {text : List Char} {s s' : Segment}

theorem start_lt_stop (h : IsSegment text s) : s.start < s.stop := by
  cases h with
  | run run => exact run.lt
  | mark => exact Nat.lt_succ_self _

theorem start_lt_length (h : IsSegment text s) : s.start < text.length := by
  cases h with
  | run run => exact Text.lt_length_of_isAlphanumAt (run.all _ (Nat.le_refl _) run.lt)
  | mark char => exact (List.getElem?_eq_some_iff.mp char).1

theorem isBlankAt_start (h : IsSegment text s) : Text.isBlankAt text s.start = false := by
  cases h with
  | run run =>
    by_contra hb
    rw [Bool.not_eq_false] at hb
    have ha := run.all _ (Nat.le_refl _) run.lt
    rw [Text.isAlphanumAt_of_isBlankAt hb] at ha
    cases ha
  | mark char mark =>
    rw [Text.isBlankAt_of_getElem? char]
    exact (Text.of_lookup_markLabels mark).1

/-- A segment that begins with a letter or digit begins a run. -/
theorem isAlphanumBefore_start (h : IsSegment text s) (ha : Text.isAlphanumAt text s.start = true) :
    Text.isAlphanumBefore text s.start = false := by
  cases h with
  | run run => exact run.left
  | mark char mark =>
    rw [Text.isAlphanumAt_of_getElem? char, (Text.of_lookup_markLabels mark).2] at ha
    cases ha

/-- Segments do not overlap. -/
theorem stop_le_start (h : IsSegment text s) (h' : IsSegment text s') (hlt : s.start < s'.start) :
    s.stop ≤ s'.start := by
  cases h with
  | mark => exact hlt
  | run run =>
    by_contra hover
    rw [Nat.not_le] at hover
    obtain ⟨j, hj⟩ : ∃ j, s'.start = j + 1 := Nat.exists_eq_add_one_of_ne_zero (Nat.ne_zero_of_lt hlt)
    have hbefore := h'.isAlphanumBefore_start (run.all _ (Nat.le_of_lt hlt) hover)
    rw [hj] at hlt hover hbefore
    have hin := run.all j (Nat.le_of_lt_succ hlt) (Nat.lt_of_succ_lt hover)
    rw [Text.isAlphanumBefore, hin] at hbefore
    cases hbefore

theorem eq_of_start_eq (h : IsSegment text s) (h' : IsSegment text s') (heq : s.start = s'.start) :
    s = s' := by
  cases h with
  | run run chars =>
    cases h' with
    | run run' chars' =>
      cases heq
      cases run.stop_unique run'
      cases String.toList_injective (chars.trans chars'.symm)
      rfl
    | mark char mark =>
      cases heq
      exact (run.not_mark char mark).elim
  | mark char mark =>
    cases h' with
    | run run' chars' =>
      cases heq
      exact (run'.not_mark char mark).elim
    | mark char' mark' =>
      cases heq
      cases char.symm.trans char'
      cases mark.symm.trans mark'
      rfl

end IsSegment

namespace Text

variable {text : List Char} {offset start i : Nat}

/-- No word goes over an index. -/
def IsSeam (text : List Char) (i : Nat) : Prop :=
  isAlphanumBefore text i = true → isAlphanumAt text i = false

theorem isSeam_zero (text : List Char) : IsSeam text 0 := by
  intro h
  cases h

/-- From a seam on, the first word after blanks is the whole run. -/
theorem IsSeam.isAlphanumBefore (hseam : IsSeam text offset) (hgap : IsGap text offset start)
    (ha : isAlphanumAt text start = true) : isAlphanumBefore text start = false := by
  rcases Nat.eq_or_lt_of_le hgap.le with rfl | hlt
  · by_contra hb
    rw [Bool.not_eq_false] at hb
    rw [hseam hb] at ha
    cases ha
  · obtain ⟨j, rfl⟩ : ∃ j, start = j + 1 := Nat.exists_eq_add_one_of_ne_zero (Nat.ne_zero_of_lt hlt)
    exact isAlphanumAt_of_isBlankAt (hgap.all j (Nat.le_of_lt_succ hlt) (Nat.lt_succ_self j))

theorem isOffence_of_isAlphanumBefore (ha : isAlphanumAt text i = true)
    (hb : isAlphanumBefore text i = true) : isOffence text i = false := by
  cases hc : text[i]? with
  | none => simp [isOffence, hc]
  | some c =>
    rw [isAlphanumAt_of_getElem? hc] at ha
    simp [isOffence, hc, ha, hb]

/-- A letter is no offence anywhere. -/
theorem isOffence_of_isAlpha {c : Char} (hc : text[i]? = some c) (h : c.isAlpha = true) :
    isOffence text i = false := by
  have hd : c.isDigit = false := by
    by_contra hd
    rw [Bool.not_eq_false] at hd
    have hletter := toNat_of_isAlpha h
    have hdigit := toNat_of_isDigit hd
    omega
  simp [isOffence, hc, Char.isAlphanum, h, hd]

theorem lt_length_of_isOffence (h : isOffence text i = true) : i < text.length := by
  by_contra hi
  rw [isOffence, List.getElem?_eq_none_iff.mpr (Nat.not_lt.mp hi)] at h
  cases h

/-- Whether a character is an offence depends on what comes before it only. -/
theorem isOffence_take {k : Nat} (h : i < k) : isOffence (text.take k) i = isOffence text i := by
  have hbefore : isAlphanumBefore (text.take k) i = isAlphanumBefore text i := by
    cases i with
    | zero => rfl
    | succ j => rw [isAlphanumBefore, isAlphanumBefore, isAlphanumAt, isAlphanumAt,
        List.getElem?_take_of_lt (Nat.lt_of_succ_lt h)]
  rw [isOffence, isOffence, List.getElem?_take_of_lt h, hbefore]

theorem isOffence_take_of_first {k : Nat} (h : ∀ i < k, isOffence text i = false) (i : Nat) :
    isOffence (text.take k) i = false := by
  by_contra hi
  rw [Bool.not_eq_false] at hi
  have hlt := lt_length_of_isOffence hi
  rw [List.length_take] at hlt
  have hik : i < k := by omega
  rw [isOffence_take hik, h i hik] at hi
  cases hi

theorem isOffence_of_mark {c : Char} {label : String} (hc : text[i]? = some c)
    (hm : Token.markLabels.lookup c = some label) : isOffence text i = false := by
  have ha := (of_lookup_markLabels hm).2
  rw [Char.isAlphanum, Bool.or_eq_false_iff] at ha
  simp [isOffence, hc, hm, ha.2]

end Text

theorem IsSegment.isSeam_stop {text : List Char} {s : Segment} (h : IsSegment text s) :
    Text.IsSeam text s.stop := by
  intro hb
  cases h with
  | run run => exact run.right
  | mark char mark =>
    have ha : Text.isAlphanumAt text _ = true := hb
    rw [Text.isAlphanumAt_of_getElem? char, (Text.of_lookup_markLabels mark).2] at ha
    cases ha

/-- Where a scan finds a lexeme or an ending. -/
def Scan.start : Scan → Nat
  | .lexeme l _ => l.start
  | .ending (.finish k) => k
  | .ending (.unexpected _ k) => k

namespace Scan.Found

variable {text rest : List Char} {offset k : Nat} {c : Char} {l : Lexeme}

/-- A scan passes over blanks only. -/
theorem isGap {scan : Scan} (h : Found text offset scan) : Text.IsGap text offset scan.start := by
  cases h with
  | finish gap => exact gap
  | unexpected gap => exact gap
  | word gap => exact gap
  | mark gap => exact gap

theorem isOffence_of_unexpected (h : Found text offset (.ending (.unexpected c k)))
    (hseam : Text.IsSeam text offset) : Text.isOffence text k = true := by
  cases h with
  | unexpected gap char blank alpha mark =>
    have hdigit : c.isDigit = true → Text.isAlphanumBefore text k = false := by
      intro hd
      refine hseam.isAlphanumBefore gap ?_
      rw [Text.isAlphanumAt_of_getElem? char, Char.isAlphanum, hd, Bool.or_true]
    cases hd : c.isDigit with
    | false => simp [Text.isOffence, char, blank, mark, Char.isAlphanum, alpha, hd]
    | true => simp [Text.isOffence, char, hd, hdigit hd]

theorem isSegment_of_lexeme (h : Found text offset (.lexeme l rest)) (hseam : Text.IsSeam text offset) :
    IsSegment text l.segment := by
  cases h with
  | @word start stop c opens gap char alpha lt all right =>
    have hleft := hseam.isAlphanumBefore gap (all start (Nat.le_refl _) lt)
    have hsegment := IsSegment.run ⟨lt, all, hleft, right⟩ String.toList_ofList
    rw [← Token.label_ofWord] at hsegment
    rw [Lexeme.segment, Token.text_ofWord]
    exact hsegment
  | @mark start c token opens gap char mark =>
    rw [Lexeme.segment, Token.text_of_ofPunctuation? mark]
    exact .mark char (Token.lookup_markLabels mark)

theorem isOffence_of_lexeme (h : Found text offset (.lexeme l rest)) :
    ∀ i, l.start ≤ i → i < l.stop → Text.isOffence text i = false := by
  intro i hi hstop
  cases h with
  | word gap char alpha lt all right =>
    rcases Nat.eq_or_lt_of_le hi with rfl | hlt
    · exact Text.isOffence_of_isAlpha char alpha
    · obtain ⟨j, rfl⟩ : ∃ j, i = j + 1 := Nat.exists_eq_add_one_of_ne_zero (Nat.ne_zero_of_lt hlt)
      exact Text.isOffence_of_isAlphanumBefore (all _ hi hstop)
        (all j (Nat.le_of_lt_succ hlt) (Nat.lt_of_succ_lt hstop))
  | mark gap char mark =>
    obtain rfl : i = _ := Nat.le_antisymm (Nat.le_of_lt_succ hstop) hi
    exact Text.isOffence_of_mark char (Token.lookup_markLabels mark)

/-- A lexeme takes the characters of its token from the text, and the next scan goes on right after them. -/
theorem advances (h : Found text offset (.lexeme l rest)) :
    l.start < l.stop ∧ l.stop ≤ text.length ∧ rest = text.drop l.stop ∧
      l.token.text.toList = text.extract l.start l.stop := by
  cases h with
  | @word start stop c opens gap char alpha lt all right =>
    refine ⟨lt, ?_, rfl, ?_⟩
    · have hlast := Text.lt_length_of_isAlphanumAt (all (stop - 1) (by omega) (by omega))
      exact Nat.le_of_pred_lt hlast
    · rw [Token.text_ofWord, String.toList_ofList]
  | @mark start c token opens gap char mark =>
    refine ⟨Nat.lt_succ_self _, (List.getElem?_eq_some_iff.mp char).1, rfl, ?_⟩
    rw [Token.text_of_ofPunctuation? mark, Text.extract_eq_cons char (Nat.lt_succ_self _)]
    simp

end Scan.Found

/-- Segments that are all those of a text which start between two offsets, in order. Between them nothing is
left but blanks. -/
structure Segmented (text : List Char) (lo hi : Nat) (segments : List Segment) : Prop where
  ordered : segments.Pairwise fun s s' => s.stop ≤ s'.start
  mem_iff : ∀ s, s ∈ segments ↔ IsSegment text s ∧ lo ≤ s.start ∧ s.start < hi
  covers : ∀ i, lo ≤ i → i < hi →
    Text.isBlankAt text i = true ∨ ∃ s ∈ segments, s.start ≤ i ∧ i < s.stop

namespace Segmented

variable {text : List Char} {lo hi : Nat} {s : Segment} {segments : List Segment}

theorem nil (hgap : Text.IsGap text lo hi) : Segmented text lo hi [] where
  ordered := List.Pairwise.nil
  mem_iff s := by
    refine ⟨fun h => absurd h List.not_mem_nil, ?_⟩
    rintro ⟨hs, hlo, hhi⟩
    have hblank := hgap.all s.start hlo hhi
    rw [hs.isBlankAt_start] at hblank
    cases hblank
  covers i hlo hhi := .inl (hgap.all i hlo hhi)

theorem cons (hgap : Text.IsGap text lo s.start) (hs : IsSegment text s) (hle : s.stop ≤ hi)
    (h : Segmented text s.stop hi segments) : Segmented text lo hi (s :: segments) where
  ordered := by
    refine List.pairwise_cons.mpr ⟨fun s' hs' => ?_, h.ordered⟩
    exact ((h.mem_iff s').mp hs').2.1
  mem_iff s' := by
    have hlt := hs.start_lt_stop
    have hle' := hgap.le
    rw [List.mem_cons, h.mem_iff]
    constructor
    · rintro (rfl | ⟨hs', hlo, hhi⟩)
      · exact ⟨hs, hle', by omega⟩
      · exact ⟨hs', by omega, hhi⟩
    · rintro ⟨hs', hlo, hhi⟩
      rcases Nat.lt_trichotomy s'.start s.start with hbefore | heq | hafter
      · have hblank := hgap.all s'.start hlo hbefore
        rw [hs'.isBlankAt_start] at hblank
        cases hblank
      · exact .inl (hs'.eq_of_start_eq hs heq)
      · exact .inr ⟨hs', hs.stop_le_start hs' hafter, hhi⟩
  covers i hlo hhi := by
    rcases Nat.lt_or_ge i s.start with hbefore | hin
    · exact .inl (hgap.all i hlo hbefore)
    · rcases Nat.lt_or_ge i s.stop with hin' | hafter
      · exact .inr ⟨s, List.mem_cons_self, hin, hin'⟩
      · refine (h.covers i hafter hhi).imp_right ?_
        rintro ⟨s', hs', hi'⟩
        exact ⟨s', List.mem_cons_of_mem s hs', hi'⟩

end Segmented

namespace Stream

/-- How the scan of a text ends: at its end, or at an offence. -/
inductive Stops (text : List Char) : Ending → Nat → Prop
  | finish : Stops text (.finish text.length) text.length
  | unexpected {c : Char} {k : Nat} (char : text[k]? = some c) (offence : Text.isOffence text k = true) :
      Stops text (.unexpected c k) k

/-- From a seam on, the lexemes are the segments of the text up to where the scan stops, which is the first
offence or the end. -/
theorem segmented_ofOffset {text cs : List Char} {offset : Nat} (hcs : cs = text.drop offset)
    (hle : offset ≤ text.length) (hseam : Text.IsSeam text offset) :
    ∃ k, Stops text (ofOffset offset cs).ending k ∧ offset ≤ k ∧
      (∀ i, offset ≤ i → i < k → Text.isOffence text i = false) ∧
      Segmented text offset k ((ofOffset offset cs).lexemes.map Lexeme.segment) := by
  induction offset, cs using scan_induction with
  | ending offset cs e hn =>
    have hfound := Scan.found_next hle
    rw [← hcs, hn] at hfound
    rw [ofOffset_of_ending hn]
    have hclean {k : Nat} (hgap : Text.IsGap text offset k) :
        ∀ i, offset ≤ i → i < k → Text.isOffence text i = false := by
      intro i hi hk
      exact Text.isOffence_of_isBlankAt (hgap.all i hi hk)
    cases e with
    | finish k =>
      cases hfound with
      | finish gap => exact ⟨_, .finish, gap.le, hclean gap, .nil gap⟩
    | unexpected c k =>
      have hoffence := hfound.isOffence_of_unexpected hseam
      cases hfound with
      | unexpected gap char => exact ⟨k, .unexpected char hoffence, gap.le, hclean gap, .nil gap⟩
  | lexeme offset cs l rest hn ih =>
    have hfound := Scan.found_next hle
    rw [← hcs, hn] at hfound
    obtain ⟨hlt, hstop, hrest, -⟩ := hfound.advances
    have hsegment := hfound.isSegment_of_lexeme hseam
    have hgap : Text.IsGap text offset l.start := hfound.isGap
    obtain ⟨k, hstops, hk, hclean, hsegments⟩ := ih hrest hstop hsegment.isSeam_stop
    rw [ofOffset_of_lexeme hn]
    have hle' := hgap.le
    refine ⟨k, hstops, by omega, fun i hi hik => ?_, .cons hgap hsegment hk hsegments⟩
    rcases Nat.lt_or_ge i l.start with hbefore | hin
    · exact Text.isOffence_of_isBlankAt (hgap.all i hi hbefore)
    · rcases Nat.lt_or_ge i l.stop with hin' | hafter
      · exact hfound.isOffence_of_lexeme i hin hin'
      · exact hclean i hafter hik

/-- The lexemes of a text are its segments up to the first offence or the end. -/
theorem segmented_ofChars (text : List Char) :
    ∃ ls e k, ofChars text = ⟨ls, e⟩ ∧ Stops text e k ∧ (∀ i < k, Text.isOffence text i = false) ∧
      Segmented text 0 k (ls.map Lexeme.segment) := by
  obtain ⟨k, hstops, -, hclean, hsegments⟩ :=
    segmented_ofOffset (List.drop_zero (l := text)).symm (Nat.zero_le _) (Text.isSeam_zero text)
  exact ⟨_, _, k, rfl, hstops, fun i hi => hclean i (Nat.zero_le i) hi, hsegments⟩

theorem ofChars_of_no_offence {text : List Char} (h : ∀ i, Text.isOffence text i = false) :
    ∃ ls, ofChars text = ⟨ls, .finish text.length⟩ ∧
      Segmented text 0 text.length (ls.map Lexeme.segment) := by
  obtain ⟨ls, e, k, hstream, hstops, -, hsegments⟩ := segmented_ofChars text
  cases hstops with
  | finish => exact ⟨ls, hstream, hsegments⟩
  | unexpected char offence =>
    rw [h] at offence
    cases offence

/-- The scan stops at the first offence. -/
theorem ofChars_of_first_offence {text : List Char} {k : Nat} (hk : Text.isOffence text k = true)
    (hfirst : ∀ i < k, Text.isOffence text i = false) :
    ∃ c ls, text[k]? = some c ∧ ofChars text = ⟨ls, .unexpected c k⟩ := by
  obtain ⟨ls, e, k', hstream, hstops, hclean, -⟩ := segmented_ofChars text
  have hle : k' ≤ k := by
    by_contra hlt
    rw [hclean k (Nat.not_le.mp hlt)] at hk
    cases hk
  cases hstops with
  | finish => exact absurd (Text.lt_length_of_isOffence hk) (Nat.not_lt.mpr hle)
  | @unexpected c k' char offence =>
    obtain rfl : k' = k := by
      by_contra hne
      rw [hfirst k' (Nat.lt_of_le_of_ne hle hne)] at offence
      cases offence
    exact ⟨c, ls, char, hstream⟩

theorem head?_ne_of_unexpected {k : Nat} {cs : List Char} {c : Char}
    (h : (ofOffset k cs).ending = .unexpected c k) : cs.head? ≠ some '(' := by
  intro hopen
  obtain ⟨tail, rfl⟩ := List.head?_eq_some_iff.mp hopen
  rw [ofOffset_mark rfl] at h
  exact absurd (le_of_unexpected h) (Nat.not_succ_le_self k)

/-- What comes before an unexpected character has the same lexemes alone. -/
theorem ofOffset_take {offset k : Nat} {cs : List Char} {ls : List Lexeme} {c : Char}
    (h : ofOffset offset cs = ⟨ls, .unexpected c k⟩) :
    ofOffset offset (cs.take (k - offset)) = ⟨ls, .finish k⟩ := by
  induction offset, cs using scan_induction generalizing ls with
  | ending offset cs e hn =>
    rw [ofOffset_of_ending hn] at h
    cases h
    have hk := Scan.eq_of_unexpected hn
    have htake : cs.take (k - offset) = cs.takeWhile Text.isBlank := by
      rw [hk, Nat.add_sub_cancel_left]
      exact (List.prefix_iff_eq_take.mp (List.takeWhile_prefix Text.isBlank)).symm
    rw [htake, ofOffset_of_blanks List.all_takeWhile, ← hk]
  | lexeme offset cs l rest hn ih =>
    obtain ⟨front, -, hcs, hstop, hnext⟩ := Scan.exists_front_of_next hn
    rw [ofOffset_of_lexeme hn] at h
    have hls : l :: (ofOffset l.stop rest).lexemes = ls := congrArg lexemes h
    have hending : (ofOffset l.stop rest).ending = .unexpected c k := congrArg ending h
    have hrest : ofOffset l.stop rest = ⟨(ofOffset l.stop rest).lexemes, .unexpected c k⟩ := by
      rw [← hending]
    have hle := le_of_unexpected hending
    have htake : cs.take (k - offset) = front ++ rest.take (k - l.stop) := by
      rw [hcs, List.take_append, List.take_of_length_le (by omega)]
      congr 2
      omega
    have hopens := Scan.opens_of_next hn
    have hnext' : Scan.next offset (front ++ rest.take (k - l.stop)) =
        .lexeme l (rest.take (k - l.stop)) := by
      rcases Nat.eq_or_lt_of_le hle with heq | hlt
      · -- The lexeme comes last, and in the whole text no parenthesis opens after it either.
        rw [heq] at hending
        rw [beq_eq_false_iff_ne.mpr (head?_ne_of_unexpected hending)] at hopens
        have hlast : (([] : List Char).head? == some '(') = l.opens := hopens.symm
        rw [heq, Nat.sub_self, List.take_zero, hnext [] (.inl rfl), hlast]
      · have hhead : (rest.take (k - l.stop)).head? = rest.head? := by
          rw [List.head?_take, if_neg (by omega)]
        rw [hnext _ (.inr hhead), hhead, ← hopens]
    rw [htake, ofOffset_of_lexeme hnext', ih hrest, ← hls]
    rfl

/-- The lexemes of a text, from its characters. Without an offence they are its maximal runs of letters and
digits and its marks, in order and each with its own label and text, and then comes the end; every other
character is blank, and none is in two of them. With a first offence they are those of what comes before it,
and then the offence is refused. Every scan passes over blanks only, and a lexeme takes characters, which no
later scan comes back to. -/
theorem ofChars_exact (text : List Char) :
    ((∀ i, Text.isOffence text i = false) → ∃ ls, ofChars text = ⟨ls, .finish text.length⟩ ∧
      (ls.Pairwise fun l l' => l.stop ≤ l'.start) ∧
      (∀ s, s ∈ ls.map Lexeme.segment ↔ IsSegment text s) ∧
      ∀ i < text.length, Text.isBlankAt text i = true ∨ ∃ l ∈ ls, l.start ≤ i ∧ i < l.stop) ∧
    (∀ k, Text.isOffence text k = true → (∀ i < k, Text.isOffence text i = false) → ∃ c ls,
      text[k]? = some c ∧ (∀ i, Text.isOffence (text.take k) i = false) ∧
      ofChars (text.take k) = ⟨ls, .finish k⟩ ∧ ofChars text = ⟨ls, .unexpected c k⟩ ∧
      CommandLine.checkEnding text (ofChars text).ending =
        .error (.read (.locate text (.unexpectedChar c) k))) ∧
    ∀ offset ≤ text.length,
      let scan := Scan.next offset (text.drop offset)
      Text.IsGap text offset scan.start ∧ ∀ l rest, scan = .lexeme l rest →
        l.start < l.stop ∧ l.stop ≤ text.length ∧ rest = text.drop l.stop ∧
          l.token.text.toList = text.extract l.start l.stop := by
  refine ⟨fun hnone => ?_, fun k hk hfirst => ?_, fun offset hle => ?_⟩
  · obtain ⟨ls, hstream, hsegments⟩ := ofChars_of_no_offence hnone
    refine ⟨ls, hstream, List.pairwise_map.mp hsegments.ordered, fun s => ?_, fun i hi => ?_⟩
    · rw [hsegments.mem_iff]
      exact ⟨fun h => h.1, fun h => ⟨h, Nat.zero_le _, h.start_lt_length⟩⟩
    · refine (hsegments.covers i (Nat.zero_le i) hi).imp_right ?_
      rintro ⟨s, hs, hi⟩
      obtain ⟨l, hl, rfl⟩ := List.mem_map.mp hs
      exact ⟨l, hl, hi⟩
  · obtain ⟨c, ls, hc, hstream⟩ := ofChars_of_first_offence hk hfirst
    refine ⟨c, ls, hc, Text.isOffence_take_of_first hfirst, ofOffset_take hstream, hstream, ?_⟩
    rw [hstream]
    rfl
  · have hfound := Scan.found_next hle
    refine ⟨hfound.isGap, fun l rest hn => ?_⟩
    rw [hn] at hfound
    exact hfound.advances

/-- A word that begins with a keyword, a blank beyond ASCII, a digit in a word, and a keyword right before a
letter that no word can have. -/
theorem ofChars_exact_keywords :
    let text := "elseIf\u2003s2,zé".toList
    let ls : List Lexeme := [⟨.ident "elseIf", 0, 6, false⟩, ⟨.ident "s2", 7, 9, false⟩,
      ⟨.comma, 9, 10, false⟩, ⟨.zero, 10, 11, false⟩]
    Text.isOffence text 11 = true ∧ (∀ i < 11, Text.isOffence text i = false) ∧
      ofChars (text.take 11) = ⟨ls, .finish 11⟩ ∧ ofChars text = ⟨ls, .unexpected 'é' 11⟩ ∧
      ∀ s, s ∈ ls.map Lexeme.segment ↔ IsSegment (text.take 11) s := by
  intro text ls
  have hk : Text.isOffence text 11 = true := by decide +kernel
  have hbefore : ∀ i < 11, Text.isOffence text i = false := by decide +kernel
  have hscan : ofChars text = ⟨ls, .unexpected 'é' 11⟩ := by decide +kernel
  obtain ⟨c, ls', -, hclean, hfront, hwhole, -⟩ := (ofChars_exact text).2.1 11 hk hbefore
  obtain rfl : ls = ls' := congrArg lexemes (hscan.symm.trans hwhole)
  obtain ⟨ls', hfront', -, hmem, -⟩ := (ofChars_exact (text.take 11)).1 hclean
  obtain rfl : ls = ls' := congrArg lexemes (hfront.symm.trans hfront')
  exact ⟨hk, hbefore, hfront, hscan, hmem⟩

end Stream

end Unary
