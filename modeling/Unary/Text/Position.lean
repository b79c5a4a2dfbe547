/-!
Lines and columns. Offsets count characters from zero, lines and columns count from one, and only a
newline ends a line.
-/

namespace Unary.Text

structure Position where
  line : Nat
  column : Nat
deriving DecidableEq

namespace Position

/-- The position of the first character. -/
def origin : Position := ⟨1, 1⟩

/-- The position just after a character. -/
def next (p : Position) (c : Char) : Position :=
  if c = '\n' then ⟨p.line + 1, 1⟩ else ⟨p.line, p.column + 1⟩

@[simp]
theorem next_newline (p : Position) : p.next '\n' = ⟨p.line + 1, 1⟩ := rfl

theorem next_of_ne (p : Position) {c : Char} (h : c ≠ '\n') :
    p.next c = ⟨p.line, p.column + 1⟩ := by
  simp [next, h]

/-- The position of an offset. An offset before the text counts as its start, and one past the text
as its end. -/
def ofOffset (source : List Char) (offset : Int) : Position :=
  (source.take offset.toNat).foldl next origin

theorem ofOffset_of_nonpos (source : List Char) {offset : Int} (h : offset ≤ 0) :
    ofOffset source offset = origin := by
  simp [ofOffset, Int.toNat_of_nonpos h]

end Position

end Unary.Text
