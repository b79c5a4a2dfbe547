import Unary.Expr.Depth
import Unary.Palette
import Unary.Script

/-!
Expressions, definitions and scripts written as program text.

`writeInside p n e rest` writes `e` inside `n` successors before `rest`, so that a tree is written in one
pass, and a run of successors needs no recursion.
-/

namespace Unary

namespace Expr

mutual

/-- Write a tree inside `n` successors before what follows. A node without a written form is left out. -/
def writeInside (p : Palette) (n : Nat) : Expr → List Char → List Char
  | succ a, rest => writeInside p (n + 1) a rest
  | zero, rest => p.openSucc n (p.constructor "z" ++ Palette.closeSucc n rest)
  | var x, rest => p.openSucc n (p.name x ++ Palette.closeSucc n rest)
  | call f as, rest =>
    p.openSucc n (p.name f ++ '(' :: writeArgs p as (')' :: Palette.closeSucc n rest))
  | cond a b c d, rest =>
    p.openSucc n (p.keyword "if" ++ '(' :: p.keyword "eq" ++ '(' ::
      writeInside p 0 a (", ".toList ++
        writeInside p 0 b (")) ".toList ++ p.keyword "then" ++ ' ' ::
          writeInside p 0 c (' ' :: p.keyword "else" ++ ' ' ::
            writeInside p 0 d (Palette.closeSucc n rest)))))
  | equation _ _, rest => rest
  | text _, rest => rest

/-- Write the arguments of a call before what follows. -/
def writeArgs (p : Palette) : List Expr → List Char → List Char
  | [], rest => rest
  | [a], rest => writeInside p 0 a rest
  | a :: as, rest => writeInside p 0 a (", ".toList ++ writeArgs p as rest)

end

/-- The text of an expression. -/
def write (p : Palette) (e : Expr) : List Char :=
  e.writeInside p 0 []

/-- Why a node at a depth is not written if it has no written form. It is spelled out, unless that leads
beyond the limit. -/
def refusal (limit : Option Nat) (depth : Nat) (node : Expr) : FormatError :=
  if exceeds limit (node.depthFrom .spelling depth) then .tooDeep else .notWritable node.spell

mutual

/-- Whether a tree at a depth can be written. The first node that cannot be decides. -/
def checkWrite (limit : Option Nat) (p : Palette) (depth : Nat) : Expr → Except FormatError Unit
  | succ a => do
    FormatError.check limit (depth + p.constructors.frames)
    checkWrite limit p (depth + 1) a
  | zero => FormatError.check limit (depth + p.constructors.frames)
  | var _ => FormatError.check limit (depth + p.names.frames)
  | call _ as => do
    checkWriteAll limit p (depth + 2) as
    FormatError.check limit (depth + 1 + p.names.frames)
  | cond a b c d => do
    checkWrite limit p (depth + 1) a
    checkWrite limit p (depth + 1) b
    checkWrite limit p (depth + 1) c
    checkWrite limit p (depth + 1) d
    FormatError.check limit (depth + 1 + p.keywords.frames)
  | equation a b => .error (refusal limit depth (equation a b))
  | text s => .error (refusal limit depth (text s))

def checkWriteAll (limit : Option Nat) (p : Palette) (depth : Nat) : List Expr → Except FormatError Unit
  | [] => .ok ()
  | a :: as => do
    checkWrite limit p depth a
    checkWriteAll limit p depth as

end

/-- The text of an expression, if it has one within the limit. A tree is come to in a second frame. -/
def format (limit : Option Nat) (p : Palette) (e : Expr) : Except FormatError String := do
  e.checkWrite limit p 2
  return String.ofList (e.write p)

end Expr

namespace Definition

/-- The text of a definition on one line. -/
def write (p : Palette) : Definition → List Char
  | value name body => p.definition (p.name name) ++ body.write p
  | function name params body => p.definition (p.signature name params) ++ body.write p

/-- The text of a definition, if it has one within the limit. Its body is come to in a third frame. -/
def format (limit : Option Nat) (p : Palette) (d : Definition) : Except FormatError String := do
  d.body.checkWrite limit p 3
  return String.ofList (d.write p)

end Definition

namespace Script

/-- The text of a script: each definition on a line, then the final expression. -/
def write (p : Palette) (s : Script) : List Char :=
  ['\n'].intercalate (s.definitions.map (·.write p) ++ (s.result.map (·.write p)).toList)

/-- Whether the parts of a script can be written, in order. The definitions are two frames deeper than the
final expression. -/
def checkWrite (limit : Option Nat) (p : Palette) (s : Script) : Except FormatError Unit := do
  Expr.checkWriteAll limit p 4 (s.definitions.map Definition.body)
  Expr.checkWriteAll limit p 2 s.result.toList

def format (limit : Option Nat) (p : Palette) (s : Script) : Except FormatError String := do
  s.checkWrite limit p
  return String.ofList (s.write p)

end Script

end Unary
