import Unary.Text.Blank

/-!
Lexemes: words and punctuation, each with the offsets where it starts and stops.

A word is a maximal run of ASCII letters and digits that starts with a letter. Seven words are
keywords and every other word is an identifier.
-/

namespace Unary

inductive Token
  | define
  | equate
  | zero
  | succ
  | cond
  | yes
  | no
  | lparen
  | rparen
  | equals
  | comma
  | ident (name : String)
deriving DecidableEq

namespace Token

/-- The token as it is written. -/
def text : Token → String
  | define => "def"
  | equate => "eq"
  | zero => "z"
  | succ => "s"
  | cond => "if"
  | yes => "then"
  | no => "else"
  | lparen => "("
  | rparen => ")"
  | equals => "="
  | comma => ","
  | ident name => name

/-- The name of the token's class in a token listing. -/
def label : Token → String
  | define => "def"
  | equate => "eq"
  | zero => "zero"
  | succ => "succ"
  | cond => "if"
  | yes => "then"
  | no => "else"
  | lparen => "lparen"
  | rparen => "rparen"
  | equals => "equals"
  | comma => "comma"
  | ident _ => "ident"

/-- The token of a word: a keyword only when the whole word is one. -/
def ofWord (word : String) : Token :=
  if word = "def" then define
  else if word = "eq" then equate
  else if word = "z" then zero
  else if word = "s" then succ
  else if word = "if" then cond
  else if word = "then" then yes
  else if word = "else" then no
  else ident word

def ofPunctuation? (c : Char) : Option Token :=
  if c = '(' then some lparen
  else if c = ')' then some rparen
  else if c = '=' then some equals
  else if c = ',' then some comma
  else none

theorem text_ofWord (word : String) : (ofWord word).text = word := by
  unfold ofWord
  repeat' split
  all_goals simp_all [text]

end Token

structure Lexeme where
  token : Token
  start : Nat
  stop : Nat
  /-- Whether an opening parenthesis follows with nothing in between. -/
  opens : Bool
deriving DecidableEq

/-- How a text ends after its last lexeme: at its end, or at a character that starts no lexeme. -/
inductive Ending
  | finish (offset : Nat)
  | unexpected (char : Char) (offset : Nat)
deriving DecidableEq

/-- The outcome of reading one lexeme: the lexeme and the text after it, or the ending. -/
inductive Scan
  | lexeme (lexeme : Lexeme) (rest : List Char)
  | ending (ending : Ending)
deriving DecidableEq

namespace Scan

/-- The lexeme that takes the given number of characters from its start, before the given rest. -/
def found (token : Token) (start length : Nat) (rest : List Char) : Scan :=
  .lexeme ⟨token, start, start + length, rest.head? == some '('⟩ rest

/-- Read the lexeme that starts with the first character. -/
def atChar (start : Nat) (c : Char) (cs : List Char) : Scan :=
  if c.isAlpha then
    let tail := cs.takeWhile Char.isAlphanum
    found (.ofWord (String.ofList (c :: tail))) start (tail.length + 1)
      (cs.dropWhile Char.isAlphanum)
  else
    match Token.ofPunctuation? c with
    | some token => found token start 1 cs
    | none => .ending (.unexpected c start)

/-- Read one lexeme of the text that starts at an offset, skipping blanks before it. -/
def next (offset : Nat) (cs : List Char) : Scan :=
  let start := offset + (cs.takeWhile Text.isBlank).length
  match cs.dropWhile Text.isBlank with
  | [] => .ending (.finish start)
  | c :: rest => atChar start c rest

theorem atChar_length_le {start : Nat} {c : Char} {cs rest : List Char} {l : Lexeme}
    (h : atChar start c cs = .lexeme l rest) : rest.length ≤ cs.length := by
  unfold atChar at h
  split at h
  · simp only [found, lexeme.injEq] at h
    rw [← h.2]
    exact (List.dropWhile_sublist _).length_le
  · split at h
    · simp only [found, lexeme.injEq] at h
      simp [h.2]
    · simp at h

/-- Every lexeme takes a character, so reading on comes to an end. -/
theorem next_length_lt {offset : Nat} {cs rest : List Char} {l : Lexeme}
    (h : next offset cs = .lexeme l rest) : rest.length < cs.length := by
  unfold next at h
  simp only at h
  split at h
  · simp at h
  · next c tail hd =>
    have hlen := (List.dropWhile_sublist Text.isBlank (l := cs)).length_le
    rw [hd, List.length_cons] at hlen
    have := atChar_length_le h
    omega

end Scan

/-- All lexemes of a text in order, and how the text ends after them. -/
structure Stream where
  lexemes : List Lexeme
  ending : Ending
deriving DecidableEq

namespace Stream

/-- Put the lexemes of `read`, which is in reverse order, before the lexemes of the rest. -/
def extend (read : List Lexeme) (offset : Nat) (cs : List Char) : Stream :=
  match _h : Scan.next offset cs with
  | .lexeme l rest => extend (l :: read) l.stop rest
  | .ending ending => ⟨read.reverse, ending⟩
termination_by cs.length
decreasing_by exact Scan.next_length_lt _h

def ofChars (source : List Char) : Stream :=
  extend [] 0 source

end Stream

/-- Whether an offset is one that a scan can be asked for: a signed number of 64 bits. -/
def isOffset (offset : Int) : Bool :=
  -0x8000000000000000 ≤ offset && offset < 0x8000000000000000

/-- An offset moved into a text. -/
def clampOffset (source : List Char) (offset : Int) : Nat :=
  min offset.toNat source.length

/-- The offset of the first character at or after the given offset that is not blank. The offset is
first moved into the text. -/
def skipBlank? (source : List Char) (offset : Int) : Option Nat :=
  if isOffset offset then
    let start := clampOffset source offset
    some (start + ((source.drop start).takeWhile Text.isBlank).length)
  else none

/-- Read one lexeme from an offset, which is first moved into the text. -/
def scanAt? (source : List Char) (offset : Int) : Option Scan :=
  if isOffset offset then
    let start := clampOffset source offset
    some (Scan.next start (source.drop start))
  else none

end Unary
