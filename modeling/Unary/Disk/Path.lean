/-!
Paths without what does not change them: empty components and single dots are dropped, double dots stay.
-/

namespace Unary

structure Path where
  /-- The slashes before the first component of an absolute path, otherwise nothing. -/
  root : String
  parts : List String
deriving DecidableEq

namespace Path

/-- The components of a text between slashes, single dots and empty ones left out. -/
def components (cs : List Char) : List String :=
  ((cs.splitOn '/').map String.ofList).filter fun part => part ≠ "" && part ≠ "."

/-- Two leading slashes are a root of their own, and any other number of them is one. -/
def rootOf : List Char → String
  | '/' :: '/' :: '/' :: _ => "/"
  | '/' :: '/' :: _ => "//"
  | '/' :: _ => "/"
  | _ => ""

def ofString (s : String) : Path :=
  ⟨rootOf s.toList, components s.toList⟩

/-- The text of a path, a single dot if it has no component. -/
def text (p : Path) : String :=
  if p.root = "" && p.parts.isEmpty then "." else p.root ++ "/".intercalate p.parts

/-- The path without its last component. -/
def parent (p : Path) : Path :=
  ⟨p.root, p.parts.dropLast⟩

def join (p : Path) (name : String) : Path :=
  ⟨p.root, p.parts ++ [name]⟩

end Path

end Unary
