import Mathlib.Tactic.Common
import Unary.Proofs.Grammar

/-!
The lexemes of a text, one after the other: what a lexeme is read from, and what the lexemes of a text
say of each other.
-/

namespace Unary

/-- Whether a text is one word: a letter, then letters and digits. -/
def isWord : List Char → Bool
  | [] => false
  | c :: cs => c.isAlpha && cs.all Char.isAlphanum

/-- Whether no word goes on into a text. -/
def isBoundary : List Char → Bool
  | [] => true
  | c :: _ => !c.isAlphanum

theorem Text.toNat_of_isAlpha {c : Char} (h : c.isAlpha = true) :
    65 ≤ c.toNat ∧ c.toNat ≤ 90 ∨ 97 ≤ c.toNat ∧ c.toNat ≤ 122 := by
  rcases Bool.or_eq_true_iff.mp h with hu | hl
  · exact .inl (of_decide_eq_true hu)
  · obtain ⟨ha, hz⟩ := Bool.and_eq_true_iff.mp hl
    exact .inr ⟨of_decide_eq_true ha, of_decide_eq_true hz⟩

theorem Text.toNat_of_isDigit {c : Char} (h : c.isDigit = true) : 48 ≤ c.toNat ∧ c.toNat ≤ 57 := by
  rw [Char.isDigit, Bool.and_eq_true] at h
  exact ⟨of_decide_eq_true h.1, of_decide_eq_true h.2⟩

theorem Text.isBlank_of_isAlpha {c : Char} (h : c.isAlpha = true) : isBlank c = false := by
  have hr := toNat_of_isAlpha h
  simp only [isBlank, Bool.or_eq_false_iff, Bool.and_eq_false_iff, decide_eq_false_iff_not,
    beq_eq_false_iff_ne]
  omega

theorem takeWhile_of_isBoundary {cs : List Char} (h : isBoundary cs = true) :
    cs.takeWhile Char.isAlphanum = [] ∧ cs.dropWhile Char.isAlphanum = cs := by
  cases cs with
  | nil => exact ⟨rfl, rfl⟩
  | cons c cs =>
    have hc : c.isAlphanum = false := by simpa [isBoundary] using h
    simp [hc]

namespace Scan

theorem next_blank {c : Char} (hc : Text.isBlank c = true) (offset : Nat) (cs : List Char) :
    next offset (c :: cs) = next (offset + 1) cs := by
  unfold next
  rw [List.takeWhile_cons_of_pos hc, List.dropWhile_cons_of_pos hc, List.length_cons,
    Nat.add_right_comm, Nat.add_assoc]

theorem next_char {c : Char} (hc : Text.isBlank c = false) (offset : Nat) (cs : List Char) :
    next offset (c :: cs) = atChar offset c cs := by
  simp [next, hc]

/-- A lexeme is read from a character that is not blank, after blanks. -/
theorem of_next {offset : Nat} {cs rest : List Char} {l : Lexeme}
    (h : next offset cs = .lexeme l rest) :
    ∃ blanks c tail, cs = blanks ++ c :: tail ∧ Text.isBlank c = false ∧
      atChar (offset + blanks.length) c tail = .lexeme l rest := by
  unfold next at h
  simp only at h
  split at h
  · cases h
  · next c tail hd =>
    refine ⟨cs.takeWhile Text.isBlank, c, tail, ?_, ?_, h⟩
    · rw [← hd, List.takeWhile_append_dropWhile]
    · have hh := List.head?_dropWhile_not Text.isBlank cs
      rw [hd] at hh
      exact hh

/-- A lexeme that starts at a character is a word or a mark of punctuation. -/
theorem of_atChar {start : Nat} {c : Char} {cs rest : List Char} {l : Lexeme}
    (h : atChar start c cs = .lexeme l rest) :
    l.start = start ∧ l.opens = (rest.head? == some '(') ∧
      (c.isAlpha = true ∧ l.token = .ofWord (String.ofList (c :: cs.takeWhile Char.isAlphanum)) ∨
        Token.ofPunctuation? c = some l.token) := by
  unfold atChar at h
  split at h
  · next hc =>
    simp only [found, lexeme.injEq] at h
    obtain ⟨rfl, rfl⟩ := h
    exact ⟨rfl, rfl, .inl ⟨hc, rfl⟩⟩
  · split at h
    · next token ht =>
      simp only [found, lexeme.injEq] at h
      obtain ⟨rfl, rfl⟩ := h
      exact ⟨rfl, rfl, .inr ht⟩
    · cases h

/-- A lexeme says whether a parenthesis opens right after it. -/
theorem opens_of_next {offset : Nat} {cs rest : List Char} {l : Lexeme}
    (h : next offset cs = .lexeme l rest) : l.opens = (rest.head? == some '(') := by
  obtain ⟨_, _, _, -, -, ha⟩ := of_next h
  exact (of_atChar ha).2.1

end Scan

namespace Token

theorem eq_lparen_of_ofPunctuation? {c : Char} (h : ofPunctuation? c = some .lparen) : c = '(' := by
  unfold ofPunctuation? at h
  split at h
  · assumption
  · repeat' split at h
    all_goals simp at h

theorem not_blank_of_ofPunctuation? {c : Char} {t : Token} (h : ofPunctuation? c = some t) :
    Text.isBlank c = false ∧ c.isAlpha = false := by
  unfold ofPunctuation? at h
  split_ifs at h with h₁ h₂ h₃ h₄
  all_goals subst c; decide

theorem ofWord_ne_lparen {c : Char} (hc : c.isAlpha = true) (cs : List Char) :
    ofWord (String.ofList (c :: cs)) ≠ .lparen := by
  intro h
  have ht := text_ofWord (String.ofList (c :: cs))
  rw [h] at ht
  have hp : ['('] = c :: cs := by simpa [text] using congrArg String.toList ht
  cases hp
  exact absurd hc (by decide)

end Token

namespace Stream

/-- The lexemes of a text that starts at an offset. -/
def ofOffset (offset : Nat) (cs : List Char) : Stream :=
  extend [] offset cs

/-- Put lexemes before a stream. -/
def prepend (ls : List Lexeme) (stream : Stream) : Stream :=
  ⟨ls ++ stream.lexemes, stream.ending⟩

/-- Induction along the lexemes of a text. -/
theorem scan_induction {motive : Nat → List Char → Prop}
    (ending : ∀ offset cs e, Scan.next offset cs = .ending e → motive offset cs)
    (lexeme : ∀ offset cs l rest, Scan.next offset cs = .lexeme l rest → motive l.stop rest →
      motive offset cs)
    (offset : Nat) (cs : List Char) : motive offset cs := by
  induction hk : cs.length using Nat.strongRecOn generalizing offset cs with
  | ind k ih =>
    cases hn : Scan.next offset cs with
    | ending e => exact ending offset cs e hn
    | lexeme l rest =>
      have hlt : rest.length < k := hk ▸ Scan.next_length_lt hn
      exact lexeme offset cs l rest hn (ih rest.length hlt l.stop rest rfl)

theorem extend_of_lexeme {offset : Nat} {cs rest : List Char} {l : Lexeme}
    (h : Scan.next offset cs = .lexeme l rest) (read : List Lexeme) :
    extend read offset cs = extend (l :: read) l.stop rest := by
  rw [extend]
  split <;> simp_all

theorem extend_of_ending {offset : Nat} {cs : List Char} {e : Ending}
    (h : Scan.next offset cs = .ending e) (read : List Lexeme) :
    extend read offset cs = ⟨read.reverse, e⟩ := by
  rw [extend]
  split <;> simp_all

theorem extend_eq (read : List Lexeme) (offset : Nat) (cs : List Char) :
    extend read offset cs = prepend read.reverse (ofOffset offset cs) := by
  induction offset, cs using scan_induction generalizing read with
  | ending offset cs e h =>
    rw [ofOffset, extend_of_ending h, extend_of_ending h]
    simp [prepend]
  | lexeme offset cs l rest h ih =>
    rw [ofOffset, extend_of_lexeme h, extend_of_lexeme h, ih, ih [l]]
    simp [prepend]

theorem ofOffset_of_lexeme {offset : Nat} {cs rest : List Char} {l : Lexeme}
    (h : Scan.next offset cs = .lexeme l rest) :
    ofOffset offset cs = prepend [l] (ofOffset l.stop rest) := by
  rw [ofOffset, extend_of_lexeme h, extend_eq]
  rfl

theorem ofOffset_of_ending {offset : Nat} {cs : List Char} {e : Ending}
    (h : Scan.next offset cs = .ending e) : ofOffset offset cs = ⟨[], e⟩ :=
  extend_of_ending h []

theorem ofOffset_nil (offset : Nat) : ofOffset offset [] = ⟨[], .finish offset⟩ :=
  ofOffset_of_ending rfl

theorem ofOffset_blank {c : Char} (hc : Text.isBlank c = true) (offset : Nat) (cs : List Char) :
    ofOffset offset (c :: cs) = ofOffset (offset + 1) cs := by
  have hb := Scan.next_blank hc offset cs
  cases hn : Scan.next (offset + 1) cs with
  | ending e => rw [ofOffset_of_ending (hb.trans hn), ofOffset_of_ending hn]
  | lexeme l rest => rw [ofOffset_of_lexeme (hb.trans hn), ofOffset_of_lexeme hn]

theorem ofOffset_mark {c : Char} {t : Token} (hc : Token.ofPunctuation? c = some t) (offset : Nat)
    (cs : List Char) :
    ofOffset offset (c :: cs) =
      prepend [⟨t, offset, offset + 1, cs.head? == some '('⟩] (ofOffset (offset + 1) cs) := by
  obtain ⟨hb, ha⟩ := Token.not_blank_of_ofPunctuation? hc
  have hn : Scan.next offset (c :: cs) = Scan.found t offset 1 cs := by
    rw [Scan.next_char hb, Scan.atChar, ha, hc]
    rfl
  exact ofOffset_of_lexeme hn

theorem ofOffset_word {word cs : List Char} (hw : isWord word = true)
    (hb : isBoundary cs = true) (offset : Nat) :
    ofOffset offset (word ++ cs) =
      prepend [⟨.ofWord (String.ofList word), offset, offset + word.length, cs.head? == some '('⟩]
        (ofOffset (offset + word.length) cs) := by
  obtain - | ⟨c, tail⟩ := word
  · cases hw
  obtain ⟨hc, ht⟩ : c.isAlpha = true ∧ ∀ a ∈ tail, a.isAlphanum = true := by
    simpa [isWord] using hw
  obtain ⟨htake, hdrop⟩ := takeWhile_of_isBoundary hb
  have hn : Scan.next offset (c :: tail ++ cs) =
      Scan.found (.ofWord (String.ofList (c :: tail))) offset (tail.length + 1) cs := by
    rw [List.cons_append, Scan.next_char (Text.isBlank_of_isAlpha hc), Scan.atChar, if_pos hc,
      List.takeWhile_append_of_pos ht, List.dropWhile_append_of_pos ht, htake, hdrop,
      List.append_nil]
  exact ofOffset_of_lexeme hn

/-- What holds of every lexeme when it is read holds of all lexemes of a text. -/
theorem forall_mem_ofOffset {P : Lexeme → Prop}
    (h : ∀ offset cs l rest, Scan.next offset cs = .lexeme l rest → P l) (offset : Nat)
    (cs : List Char) : ∀ l ∈ (ofOffset offset cs).lexemes, P l := by
  induction offset, cs using scan_induction with
  | ending offset cs e hn => simp [ofOffset_of_ending hn]
  | lexeme offset cs l rest hn ih =>
    intro l' hl'
    rw [ofOffset_of_lexeme hn] at hl'
    rcases List.mem_cons.mp hl' with rfl | hl'
    · exact h offset cs l' rest hn
    · exact ih l' hl'

/-- A parenthesis opens at the offset of a text exactly when it is the first character. -/
theorem opens_iff (offset : Nat) (cs : List Char) :
    (∃ p ∈ (ofOffset offset cs).lexemes.head?, p.token = .lparen ∧ p.start = offset) ↔
      cs.head? = some '(' := by
  constructor
  · rintro ⟨p, hp, ht, hs⟩
    cases hn : Scan.next offset cs with
    | ending e =>
      rw [ofOffset_of_ending hn] at hp
      cases hp
    | lexeme l rest =>
      rw [ofOffset_of_lexeme hn] at hp
      obtain rfl : l = p := by simpa [prepend] using hp
      obtain ⟨blanks, c, tail, rfl, -, ha⟩ := Scan.of_next hn
      obtain ⟨hs', -, hw | hc⟩ := Scan.of_atChar ha
      · exact absurd (hw.2.symm.trans ht) (Token.ofWord_ne_lparen hw.1 _)
      · rw [ht] at hc
        have hb : blanks = [] := List.eq_nil_of_length_eq_zero (by omega)
        rw [hb, Token.eq_lparen_of_ofPunctuation? hc]
        rfl
  · intro h
    obtain - | ⟨c, tail⟩ := cs
    · cases h
    obtain rfl : c = '(' := by simpa using h
    rw [ofOffset_mark rfl]
    exact ⟨_, rfl, rfl, rfl⟩

/-- The lexemes of a text say rightly where a parenthesis opens. -/
theorem linked_ofOffset (offset : Nat) (cs : List Char) :
    Linked (ofOffset offset cs).lexemes := by
  induction offset, cs using scan_induction with
  | ending offset cs e hn =>
    rw [ofOffset_of_ending hn]
    exact trivial
  | lexeme offset cs l rest hn ih =>
    rw [ofOffset_of_lexeme hn]
    refine ⟨?_, ih⟩
    rw [Scan.opens_of_next hn, beq_iff_eq]
    exact (opens_iff l.stop rest).symm

end Stream

end Unary
