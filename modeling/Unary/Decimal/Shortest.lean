import Unary.Decimal.Nearest

/-!
The shortest decimal number that reads back as a binary number, and its text.

Grids of one digit, two digits and so on are tried in turn. On each the two neighbours of the number are
tested, and the first grid with a neighbour that reads back decides.
-/

namespace Unary

namespace Binary

/-- The exponent of the leading decimal digit of a quotient that is not zero. -/
def leadingDigit (num den : Nat) : Int :=
  if den ≤ num then ((Nat.toDigits 10 (num / den)).length : Int) - 1
  else
    match (List.range 400).find? fun n => den ≤ num * Nat.pow 10 (n + 1) with
    | some n => -((n : Int) + 1)
    | none => -400

/-- Of two neighbours on a grid the nearer one that reads back. Of two equally near ones it is the even
one. -/
def choose (b : Binary) (num den : Nat) (low high : Decimal) : Option Decimal :=
  match decide (low.digits ≠ 0 ∧ low.nearest? = some b), decide (high.nearest? = some b) with
  | true, false => some low
  | false, true => some high
  | false, false => none
  | true, true =>
    let (a, c) := Decimal.scale 10 (-low.exponent) num den
    let twice := 2 * a
    let middle := (low.digits + high.digits) * c
    if twice < middle ∨ (twice = middle ∧ low.digits % 2 = 0) then some low else some high

/-- The decimal number with so many digits that reads back, if there is one. -/
def withDigits (b : Binary) (count : Nat) : Option Decimal :=
  let (num, den) := b.quotient
  let exponent := leadingDigit num den - count + 1
  let (a, c) := Decimal.scale 10 (-exponent) num den
  choose b num den ⟨a / c, exponent⟩ ⟨a / c + 1, exponent⟩

/-- The shortest decimal number that reads back. Seventeen digits are enough for every number. -/
def shortest (b : Binary) : Decimal :=
  ((List.range 17).findSome? fun count => b.withDigits (count + 1)).getD ⟨0, 0⟩

end Binary

namespace Decimal

/-- The digits of a decimal number without the zeros at the end. -/
def trimmedDigits (d : Decimal) : List Char :=
  ((Nat.toDigits 10 d.digits).reverse.dropWhile (· == '0')).reverse

/-- The exponent of the leading digit. -/
def leadingExponent (d : Decimal) : Int :=
  d.exponent + (Nat.toDigits 10 d.digits).length - 1

/-- The exponents of the leading digit of a number that is written out: from the first to below the
second. -/
def positionalRange : Int × Int := (-4, 16)

/-- Digits with a point after so many of them, and at least one digit after the point. -/
def pointAfter (digits : List Char) (count : Nat) : List Char :=
  let whole := digits.take count
  let fraction := digits.drop count
  whole ++ List.replicate (count - whole.length) '0' ++ '.' ::
    if fraction.isEmpty then ['0'] else fraction

/-- Digits written out with their point. -/
def positional (digits : List Char) (leading : Int) : List Char :=
  match leading with
  | .ofNat n => pointAfter digits (n + 1)
  | .negSucc n => '0' :: '.' :: List.replicate n '0' ++ digits

/-- Digits with an exponent, which has a sign and at least two digits. -/
def scientific (digits : List Char) (leading : Int) : List Char :=
  digits.take 1 ++ (if digits.length ≤ 1 then [] else '.' :: digits.drop 1) ++ 'e' ::
    (if leading < 0 then '-' else '+') :: (Nat.toDigits 10 leading.natAbs).leftpad 2 '0'

/-- The text of a decimal number that is not zero. -/
def layout (d : Decimal) : List Char :=
  let leading := d.leadingExponent
  if positionalRange.1 ≤ leading && leading < positionalRange.2 then
    positional d.trimmedDigits leading
  else scientific d.trimmedDigits leading

/-- The text of a number beyond all binary numbers. -/
def infinityText : List Char := "inf".toList

/-- The text of the binary number nearest to a decimal number, in the fewest digits that read back. A
number beyond all binary numbers is infinite. -/
def text (d : Decimal) : List Char :=
  if d.digits = 0 ∨ d.leadingExponent < -400 then "0.0".toList
  else if 400 < d.leadingExponent then infinityText
  else
    match d.nearest? with
    | none => infinityText
    | some b => if b.significand = 0 then "0.0".toList else b.shortest.layout

end Decimal

end Unary
