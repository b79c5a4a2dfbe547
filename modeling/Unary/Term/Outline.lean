import Unary.Term.Depth

/-!
Outlines: what is left of a term without the names of its constructors. Terms that are the same have the
same outline, and a few others have it too, such as a variable and the successor of a text.
-/

namespace Unary

/-- A mark of an outline: where a group begins or ends, or a text. -/
inductive Mark
  | opening
  | closing
  | text (content : String)
deriving DecidableEq

namespace Term

mutual

/-- The outline of a term before the marks that follow it. A name is a text of the group of its node, and
the arguments of a call, like the sides of a compared pair, are a group of their own. -/
def outlineBefore : Term → List Mark → List Mark
  | zero, rest => .opening :: .closing :: rest
  | succ a, rest => .opening :: outlineBefore a (.closing :: rest)
  | var x, rest => .opening :: .text x :: .closing :: rest
  | call f as, rest =>
    .opening :: .text f :: .opening :: outlineAll as (.closing :: .closing :: rest)
  | cond a b c d, rest =>
    .opening :: .opening :: outlineBefore a (outlineBefore b (.closing ::
      outlineBefore c (outlineBefore d (.closing :: rest))))
  | equation a b, rest => .opening :: outlineBefore a (outlineBefore b (.closing :: rest))
  | text s, rest => .text s :: rest

def outlineAll : List Term → List Mark → List Mark
  | [], rest => rest
  | a :: as, rest => outlineBefore a (outlineAll as rest)

end

def outline (t : Term) : List Mark :=
  t.outlineBefore []

end Term

namespace Lambda

/-- What a hash of a function is made from. -/
def hashKey (f : Lambda) : List String × List Mark :=
  (f.params, f.body.outline)

/-- What a hash of a function is made from, if its body can be hashed within a limit. -/
def hashKey? (limit : Option Nat) (f : Lambda) : Option (List String × List Mark) :=
  if f.body.fits .hashing limit then some f.hashKey else none

end Lambda

end Unary
