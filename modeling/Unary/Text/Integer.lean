import Unary.Text.Digit

/-!
Integers as they are written in a setting: an optional sign, then decimal digits of any script, with
single underscores allowed between digits.
-/

namespace Unary.Text

/-- The most digits that a written integer may have, leading zeros included. -/
def maxDigits : Nat := 4300

/-- Read digits after the digits of `value`, of which there are `count`. Every underscore stands between
two digits. -/
def readDigits (value count : Nat) : List Char → Option Nat
  | [] => if count ≤ maxDigits then some value else none
  | '_' :: c :: cs => (digitValue? c).bind fun d => readDigits (value * 10 + d) (count + 1) cs
  | c :: cs => (digitValue? c).bind fun d => readDigits (value * 10 + d) (count + 1) cs

/-- Read a number that starts with a digit. -/
def readNat? : List Char → Option Nat
  | [] => none
  | c :: cs => (digitValue? c).bind fun d => readDigits d 1 cs

def readInt? : List Char → Option Int
  | '+' :: cs => (readNat? cs).map fun n => (n : Int)
  | '-' :: cs => (readNat? cs).map fun n => -(n : Int)
  | cs => (readNat? cs).map fun n => (n : Int)

end Unary.Text
