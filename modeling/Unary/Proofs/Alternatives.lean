import Unary.Proofs.Segmentation

/-!
Lexemes by ordered alternatives.

A lexeme can also be found by trying patterns one after the other at its first character: each keyword, if no
letter or digit follows it, each mark, and at last a letter with all the letters and digits after it. The first
pattern that matches comes to the same as the longest word at that place, told to be a keyword or not when it is
complete, and where none matches no lexeme starts.
-/

namespace Unary

/-- A piece of a pattern. -/
inductive Piece
  | literal (text : List Char)
  /-- No characters, where neither a letter nor a digit comes next. -/
  | wordEnd
  | letter
  /-- All the letters and digits that come next. -/
  | run
deriving DecidableEq

namespace Piece

/-- How many characters of a text, from its start, a piece matches. -/
def length? : Piece → List Char → Option Nat
  | literal text, cs => if text.isPrefixOf cs then some text.length else none
  | wordEnd, cs => if isBoundary cs then some 0 else none
  | letter, cs => if cs.head?.any Char.isAlpha then some 1 else none
  | run, cs => some (cs.takeWhile Char.isAlphanum).length

/-- How many characters pieces match that stand one after the other. -/
def lengthAll? : List Piece → List Char → Option Nat
  | [], _ => some 0
  | piece :: pieces, cs => do
    let m ← piece.length? cs
    let n ← lengthAll? pieces (cs.drop m)
    return m + n

/-- A keyword matches where it is the whole of the letters and digits that come next. -/
theorem lengthAll?_keyword {word : List Char} (hword : word.all Char.isAlphanum = true) (cs : List Char) :
    lengthAll? [literal word, wordEnd] cs =
      if cs.takeWhile Char.isAlphanum = word then some word.length else none := by
  simp only [lengthAll?, length?, List.isPrefixOf_iff_prefix]
  split
  next hprefix =>
    obtain ⟨rest, rfl⟩ := hprefix
    have htake : (word ++ rest).takeWhile Char.isAlphanum = word ++ rest.takeWhile Char.isAlphanum :=
      List.takeWhile_append_of_pos (List.all_eq_true.mp hword)
    rw [htake]
    cases hrest : isBoundary rest with
    | true => simp [hrest, takeWhile_of_isBoundary hrest]
    | false =>
      obtain ⟨c, tail, rfl⟩ : ∃ c tail, rest = c :: tail := by
        cases rest with
        | nil => cases hrest
        | cons c tail => exact ⟨c, tail, rfl⟩
      have hc : c.isAlphanum = true := by simpa [isBoundary] using hrest
      simp [hrest, hc]
  next hprefix =>
    rw [if_neg]
    · rfl
    · rintro rfl
      exact hprefix (List.takeWhile_prefix _)

theorem lengthAll?_mark (mark c : Char) (cs : List Char) :
    lengthAll? [literal [mark]] (c :: cs) = if c = mark then some 1 else none := by
  by_cases h : c = mark
  · simp [lengthAll?, length?, h]
  · simp [lengthAll?, length?, h, Ne.symm h]

theorem lengthAll?_name (c : Char) (cs : List Char) :
    lengthAll? [letter, run] (c :: cs) =
      if c.isAlpha then some (1 + (cs.takeWhile Char.isAlphanum).length) else none := by
  cases h : c.isAlpha <;> simp [lengthAll?, length?, h]

end Piece

/-- A pattern, with the label of the tokens that it is for. -/
structure Alternative where
  label : String
  pieces : List Piece
deriving DecidableEq

namespace Alternative

/-- The alternatives in the order in which they are tried. -/
def all : List Alternative :=
  Token.keywordLabels.map (fun entry => ⟨entry.2, [.literal entry.1.toList, .wordEnd]⟩) ++
    Token.markLabels.map (fun entry => ⟨entry.2, [.literal [entry.1]]⟩) ++
    [⟨"ident", [.letter, .run]⟩]

/-- The label of the first alternative that matches, and how many characters it matches. -/
def first? (cs : List Char) : Option (String × Nat) :=
  all.findSome? fun a => (Piece.lengthAll? a.pieces cs).map (a.label, ·)

/-- Where an entry is found by its key alone, the first one that is found is the one of a look-up. -/
theorem findSome?_eq_lookup {α β : Type} [DecidableEq α] {key : α} {n : Nat} {entries : List (α × β)}
    {find : α × β → Option Nat} (h : ∀ entry ∈ entries, find entry = if key = entry.1 then some n else none) :
    entries.findSome? (fun entry => (find entry).map (entry.2, ·)) = (entries.lookup key).map (·, n) := by
  induction entries with
  | nil => rfl
  | cons entry entries ih =>
    obtain ⟨key', value⟩ := entry
    obtain ⟨hentry, hentries⟩ := List.forall_mem_cons.mp h
    rw [List.findSome?_cons, hentry, List.lookup_cons]
    by_cases hkey : key = key'
    · simp [hkey]
    · simp [hkey, ih hentries, beq_false_of_ne hkey]

theorem findSome?_keywords (cs : List Char) :
    Token.keywordLabels.findSome? (fun entry =>
        (Piece.lengthAll? [.literal entry.1.toList, .wordEnd] cs).map (entry.2, ·)) =
      (Token.keywordLabels.lookup (String.ofList (cs.takeWhile Char.isAlphanum))).map
        (·, (cs.takeWhile Char.isAlphanum).length) := by
  have hall : ∀ entry ∈ Token.keywordLabels, entry.1.toList.all Char.isAlphanum = true := by decide
  refine findSome?_eq_lookup fun entry hentry => ?_
  rw [Piece.lengthAll?_keyword (hall entry hentry)]
  by_cases h : cs.takeWhile Char.isAlphanum = entry.1.toList
  · rw [if_pos h, if_pos (by rw [h, String.ofList_toList]), h]
  · rw [if_neg h, if_neg]
    intro hword
    rw [← hword, String.toList_ofList] at h
    exact h rfl

theorem findSome?_marks (c : Char) (cs : List Char) :
    Token.markLabels.findSome? (fun entry =>
        (Piece.lengthAll? [.literal [entry.1]] (c :: cs)).map (entry.2, ·)) =
      (Token.markLabels.lookup c).map (·, 1) :=
  findSome?_eq_lookup fun entry _ => Piece.lengthAll?_mark entry.1 c cs

/-- Keywords are words, so no keyword matches at a character that is no letter. -/
theorem lookup_keywordLabels {c : Char} (hc : c.isAlpha = false) (cs : List Char) :
    Token.keywordLabels.lookup (String.ofList ((c :: cs).takeWhile Char.isAlphanum)) = none := by
  have hall : ∀ entry ∈ Token.keywordLabels, isWord entry.1.toList = true := by decide
  rw [List.lookup_eq_none_iff]
  intro entry hentry
  rw [bne_iff_ne]
  intro hword
  have hisWord := hall entry hentry
  rw [← hword, String.toList_ofList, List.takeWhile_cons] at hisWord
  split at hisWord
  next => simp [isWord, hc] at hisWord
  next => cases hisWord

/-- What the first alternative matches: a whole word if there is one, else a mark. -/
theorem first?_cons (c : Char) (cs : List Char) :
    first? (c :: cs) =
      if c.isAlpha then
        let word := c :: cs.takeWhile Char.isAlphanum
        some ((Token.keywordLabels.lookup (String.ofList word)).getD "ident", word.length)
      else (Token.markLabels.lookup c).map (·, 1) := by
  rw [first?, all, List.findSome?_append, List.findSome?_append, List.findSome?_map, List.findSome?_map]
  simp only [Function.comp_def, findSome?_keywords, findSome?_marks, List.findSome?_singleton,
    Piece.lengthAll?_name]
  cases hc : c.isAlpha with
  | false => simp [lookup_keywordLabels hc]
  | true =>
    have hmark : Token.markLabels.lookup c = none := by
      cases hm : Token.ofPunctuation? c with
      | none => rw [← Token.map_label_ofPunctuation?, hm]; rfl
      | some t => exact absurd (Token.not_blank_of_ofPunctuation? hm).2 (by rw [hc]; decide)
    have hword : (c :: cs).takeWhile Char.isAlphanum = c :: cs.takeWhile Char.isAlphanum := by
      simp [Char.isAlphanum, hc]
    rw [hmark, hword]
    cases Token.keywordLabels.lookup (String.ofList (c :: cs.takeWhile Char.isAlphanum)) <;>
      simp [Nat.add_comm]

theorem first?_nil : first? [] = none := by decide

end Alternative

namespace Scan

/-- The segment of the lexeme that was read and what comes after it, if one was read. -/
def segment? : Scan → Option (Segment × List Char)
  | .lexeme l rest => some (l.segment, rest)
  | .ending _ => none

/-- The lexeme at a character is what the first alternative matches. -/
theorem segment?_atChar (start : Nat) (c : Char) (cs : List Char) :
    (atChar start c cs).segment? = (Alternative.first? (c :: cs)).map fun (label, n) =>
      (⟨start, start + n, label, String.ofList ((c :: cs).take n)⟩, (c :: cs).drop n) := by
  rw [Alternative.first?_cons, atChar]
  cases hc : c.isAlpha with
  | true =>
    let word := c :: cs.takeWhile Char.isAlphanum
    have hsplit : c :: cs = word ++ cs.dropWhile Char.isAlphanum := by
      rw [List.cons_append, List.takeWhile_append_dropWhile]
    have htake : (c :: cs).take word.length = word := by rw [hsplit, List.take_left]
    have hdrop : (c :: cs).drop word.length = cs.dropWhile Char.isAlphanum := by
      rw [hsplit, List.drop_left]
    simp only [if_true, Option.map_some]
    rw [htake, hdrop, ← Token.label_ofWord, found, segment?, Lexeme.segment, Token.text_ofWord]
    rfl
  | false =>
    rw [← Token.map_label_ofPunctuation?]
    cases hmark : Token.ofPunctuation? c with
    | none => rfl
    | some t =>
      simp [found, segment?, Lexeme.segment, Token.text_of_ofPunctuation? hmark]

/-- The next lexeme is what the first alternative matches after the blanks. Where none matches, the text ends
there or a character stands there that starts no lexeme. -/
theorem next_eq_alternatives (offset : Nat) (cs : List Char) :
    let start := offset + (cs.takeWhile Text.isBlank).length
    let text := cs.dropWhile Text.isBlank
    ((next offset cs).segment? = (Alternative.first? text).map fun (label, n) =>
      (⟨start, start + n, label, String.ofList (text.take n)⟩, text.drop n)) ∧
    (Alternative.first? text = none → next offset cs =
      .ending (text.head?.elim (.finish start) fun c => .unexpected c start)) := by
  intro start text
  cases htext : cs.dropWhile Text.isBlank with
  | nil =>
    have hnext : next offset cs = .ending (.finish start) := by rw [next, htext]
    rw [hnext, show text = [] from htext, Alternative.first?_nil]
    exact ⟨rfl, fun _ => rfl⟩
  | cons c tail =>
    have hnext : next offset cs = atChar start c tail := by rw [next, htext]
    rw [hnext, show text = c :: tail from htext]
    refine ⟨segment?_atChar start c tail, fun hnone => ?_⟩
    have hsegment := segment?_atChar start c tail
    rw [hnone] at hsegment
    cases hscan : atChar start c tail with
    | lexeme l rest =>
      rw [hscan] at hsegment
      cases hsegment
    | ending ending => rw [(ending_of_atChar hscan).1]; rfl

/-- A keyword before a letter that no word has, and one that a word goes on after. -/
example : Alternative.first? "zé".toList = some ("zero", 1) ∧
    Alternative.first? "elseIf(".toList = some ("ident", 6) ∧
    Alternative.first? "2".toList = none := by decide

end Scan

end Unary
