import Unary.Decimal.Shortest
import Unary.Failure

/-!
Values offered where a natural number is wanted. Only a number that is ready or an integer that is not
negative is taken, and every other value is refused by showing it.
-/

namespace Unary

inductive Argument
  | nat (n : Nat)
  | int (i : Int)
  /-- A number with a point or an exponent, in the precision of binary numbers. -/
  | real (negative : Bool) (size : Decimal)
  | infinite (negative : Bool)
  | notNumber
  | bool (b : Bool)
  | null
  | text (s : String)
  | list (items : List Argument)
  | record (fields : List (String × Argument))

namespace Argument

def signText (negative : Bool) : List Char :=
  if negative then ['-'] else []

mutual

/-- A value as a message shows it. -/
def spellChars : Argument → List Char
  | nat n => Text.nested n ['s', '('] ['z']
  | int i => (toString i).toList
  | real negative size => signText negative ++ size.text
  | infinite negative => signText negative ++ Decimal.infinityText
  | notNumber => "nan".toList
  | bool true => "True".toList
  | bool false => "False".toList
  | null => "None".toList
  | text s => Text.quoteChars s.toList
  | list items => '[' :: Text.commaSeparated (spellAll items) ++ [']']
  | record fields => '\x7b' :: Text.commaSeparated (spellFields fields) ++ ['\x7d']

def spellAll : List Argument → List (List Char)
  | [] => []
  | a :: as => spellChars a :: spellAll as

def spellFields : List (String × Argument) → List (List Char)
  | [] => []
  | (name, a) :: fields =>
    (Text.quoteChars name.toList ++ ": ".toList ++ spellChars a) :: spellFields fields

end

/-- The number a value stands for. -/
def toNat : Argument → Except Failure Nat
  | nat n => .ok n
  | int (.ofNat n) => .ok n
  | a => .error (.notNatural (String.ofList a.spellChars))

/-- The numbers of values, up to the first that is refused. -/
def toNats : List Argument → Except Failure (List Nat)
  | [] => .ok []
  | a :: as => do
    let n ← a.toNat
    let ns ← toNats as
    return n :: ns

end Argument

end Unary
