/-!
Unary numbers as cells that share parts. The first cell is zero, and every other cell wraps a cell that is
older than itself.

A cell is known by its index. Two cells may stand for one number, and `same` tells cells apart where `eq`
tells numbers apart.
-/

namespace Unary

/-- The cells after zero, each with the index of the cell it wraps. -/
structure Store where
  wrapped : Array Nat
deriving DecidableEq

namespace Store

/-- A store in which there is nothing but zero. -/
def empty : Store := ⟨#[]⟩

/-- The index of the cell that is zero. -/
def zero : Nat := 0

/-- Make a new cell around a cell. -/
def succ (s : Store) (cell : Nat) : Store × Nat :=
  let fresh := s.wrapped.size + 1
  (⟨s.wrapped.push cell⟩, fresh)

/-- The cell that a cell wraps. Zero wraps none. -/
def pred? (s : Store) : Nat → Option Nat
  | 0 => none
  | cell + 1 => s.wrapped[cell]?

/-- Put `n` new cells around a cell. -/
def addSucc (s : Store) (cell : Nat) : Nat → Store × Nat
  | 0 => (s, cell)
  | n + 1 =>
    let (s, cell) := s.succ cell
    s.addSucc cell n

/-- Make the cells of a number. Zero is the cell that is there. -/
def ofNat (s : Store) (n : Nat) : Store × Nat :=
  s.addSucc zero n

/-- Count the cells from a cell to zero on top of `count`. The walk ends because every cell wraps an older
one. -/
def countFrom (s : Store) (count cell : Nat) : Nat :=
  match s.pred? cell with
  | none => count
  | some inner => if inner < cell then s.countFrom (count + 1) inner else count
termination_by cell

/-- The number a cell stands for. -/
def toNat (s : Store) (cell : Nat) : Nat :=
  s.countFrom 0 cell

/-- Whether two cells stand for one number. The walk stops at the first cell that both share, or where one
of them is zero. -/
def eq (s : Store) (a b : Nat) : Bool :=
  if a = b then true
  else
    match s.pred? a, s.pred? b with
    | some a', some b' => if a' < a then s.eq a' b' else false
    | _, _ => false
termination_by a

/-- Whether two indices are one cell. -/
def same (a b : Nat) : Bool :=
  a == b

/-- What a hash of a cell is made from. -/
def hashKey (s : Store) (cell : Nat) : Nat :=
  s.toNat cell

end Store

end Unary
