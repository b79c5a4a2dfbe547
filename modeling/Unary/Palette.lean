import Unary.Bounds
import Unary.Colour
import Unary.Text.Nested

/-!
How the parts of a program are written: keywords, constructors and names, each coloured or not.

Writing a tree takes frames for its nesting, which a limit can bound.
-/

namespace Unary

/-- Why a tree is not written: nesting beyond the limit, or a node that has no written form. -/
inductive FormatError
  | tooDeep
  | notWritable (shown : String)
deriving DecidableEq

namespace FormatError

def message : FormatError → String
  | tooDeep => "tree nesting too deep"
  | notWritable shown => "Cannot format " ++ shown

/-- Ask for so many frames in all. -/
def check (limit : Option Nat) (depth : Nat) : Except FormatError Unit :=
  if exceeds limit depth then .error .tooDeep else .ok ()

@[simp]
theorem check_none (depth : Nat) : check none depth = .ok () := rfl

section Check

variable (limit : Option Nat)

theorem check_bind {α : Type} (depth : Nat) (next : Except FormatError α) :
    (check limit depth >>= fun _ => next) = if exceeds limit depth then .error .tooDeep else next := by
  rw [check]
  cases exceeds limit depth <;> rfl

/-- What asks for two depths asks for the greater one. -/
theorem check_check {α : Type} (m n : Nat) (next : Except FormatError α) :
    (check limit m >>= fun _ => check limit n >>= fun _ => next) =
      check limit (max m n) >>= fun _ => next := by
  simp only [check_bind]
  cases limit with
  | none => rfl
  | some k =>
    simp only [exceeds_some, decide_eq_true_eq]
    by_cases hm : k < m
    · rw [if_pos hm, if_pos (by omega)]
    · have hmax : k < n ↔ k < max m n := by omega
      simp only [if_neg hm, hmax]

theorem check_ok (depth : Nat) : (check limit depth >>= fun _ => .ok ()) = check limit depth := by
  rw [check_bind, check]

theorem check_max (m n : Nat) :
    (check limit m >>= fun _ => check limit n) = check limit (max m n) := by
  rw [← check_ok limit n, check_check, check_ok]

end Check

end FormatError

/-- How the words of a part are written, and how many frames that takes. -/
structure Pen where
  write : String → List Char
  frames : Nat

namespace Pen

/-- The pen that writes a word as it is. -/
def plain : Pen := ⟨String.toList, 2⟩

/-- The pen of a painter in a colour, which is forced. -/
def ofPainter (painter : Painter) (colour : Colour) : Pen :=
  ⟨fun word => painter.paint true ⟨some colour, false⟩ word.toList, plain.frames + painter.frames⟩

end Pen

/-- How each part of a program is written. -/
structure Palette where
  keywords : Pen
  constructors : Pen
  names : Pen

namespace Palette

def plain : Palette := ⟨.plain, .plain, .plain⟩

/-- Which parts of a program are coloured. -/
structure Choice where
  keywords : Bool
  constructors : Bool
  names : Bool
deriving DecidableEq

/-- The palette in which a painter colours the chosen parts. -/
def ofPainter (painter : Painter) (choice : Choice) : Palette where
  keywords := if choice.keywords then .ofPainter painter .lightBlue else .plain
  constructors := if choice.constructors then .ofPainter painter .lightGreen else .plain
  names := if choice.names then .ofPainter painter .lightMagenta else .plain

def keyword (p : Palette) (word : String) : List Char :=
  p.keywords.write word

def constructor (p : Palette) (word : String) : List Char :=
  p.constructors.write word

def name (p : Palette) (word : String) : List Char :=
  p.names.write word

/-- The openings of `n` successors before what follows. -/
def openSucc (p : Palette) (n : Nat) (rest : List Char) : List Char :=
  (List.replicate n (p.constructor "s" ++ ['('])).flatten ++ rest

/-- The closing parentheses of `n` successors before what follows. -/
def closeSucc (n : Nat) (rest : List Char) : List Char :=
  List.replicate n ')' ++ rest

/-- The numeral of a number. -/
def numeral (p : Palette) (n : Nat) : List Char :=
  Text.nested n (p.constructor "s" ++ ['(']) (p.constructor "z")

/-- What is defined, up to the body of the definition. -/
def definition (p : Palette) (head : List Char) : List Char :=
  p.keyword "def" ++ ' ' :: head ++ " = ".toList

/-- The head of the definition of a function. -/
def signature (p : Palette) (name : String) (params : List String) : List Char :=
  p.name name ++ '(' :: Text.commaSeparated (params.map p.name) ++ [')']

end Palette

end Unary
