/-!
Binary numbers of 53 bits and the one that is nearest to a decimal number, of two equally near ones the
one that is even. All arithmetic is exact.
-/

namespace Unary

/-- The number `digits` times ten to the power of `exponent`. -/
structure Decimal where
  digits : Nat
  exponent : Int
deriving DecidableEq

/-- The number `significand` times two to the power of `exponent`. -/
structure Binary where
  significand : Nat
  exponent : Int
deriving DecidableEq

namespace Decimal

/-- The quotient of two numbers rounded to a whole number, a half to the even neighbour. -/
def roundQuotient (num den : Nat) : Nat :=
  let low := num / den
  let rest := 2 * (num % den)
  if rest < den ∨ (rest = den ∧ low % 2 = 0) then low else low + 1

/-- The quotient of `num * base ^ exponent` and `den` as one of whole numbers. -/
def scale (base : Nat) (exponent : Int) (num den : Nat) : Nat × Nat :=
  match exponent with
  | .ofNat n => (num * Nat.pow base n, den)
  | .negSucc n => (num, den * Nat.pow base (n + 1))

end Decimal

namespace Binary

/-- The least exponent of a binary number. -/
def leastExponent : Int := -1074

/-- The greatest exponent of a binary number with all its bits. -/
def greatestExponent : Int := 971

/-- The exponent of the leading bit of a quotient that is not zero. -/
def leadingBit (num den : Nat) : Int :=
  let guess : Int := (Nat.log2 num : Int) - Nat.log2 den
  let (a, b) := Decimal.scale 2 (-guess) num den
  if b ≤ a then guess else guess - 1

/-- Keep a significand within 53 bits after rounding. -/
def carry (significand : Nat) (exponent : Int) : Binary :=
  if significand = 0x20000000000000 then ⟨0x10000000000000, exponent + 1⟩ else ⟨significand, exponent⟩

/-- The nearest binary number to a quotient that is not zero, if there is one in range. -/
def nearest? (num den : Nat) : Option Binary :=
  let exponent := max leastExponent (leadingBit num den - 52)
  let (a, b) := Decimal.scale 2 (-exponent) num den
  let result := carry (Decimal.roundQuotient a b) exponent
  if greatestExponent < result.exponent then none else some result

/-- A binary number as a quotient. -/
def quotient (b : Binary) : Nat × Nat :=
  Decimal.scale 2 b.exponent b.significand 1

end Binary

namespace Decimal

/-- The nearest binary number to a decimal number that is not zero. -/
def nearest? (d : Decimal) : Option Binary :=
  let (num, den) := scale 10 d.exponent d.digits 1
  Binary.nearest? num den

end Decimal

end Unary
