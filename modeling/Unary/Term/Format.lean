import Unary.Term.Depth
import Unary.Palette
import Unary.Program

/-!
Terms and programs written as program text: the functions, the values as numerals, and the final term.
-/

namespace Unary

namespace Term

mutual

/-- Write a term inside `n` successors before what follows. A node without a written form is left out. -/
def writeInside (p : Palette) (n : Nat) : Term → List Char → List Char
  | succ a, rest => writeInside p (n + 1) a rest
  | zero, rest => p.openSucc n (p.constructor "z" ++ Palette.closeSucc n rest)
  | var x, rest => p.openSucc n (p.name x ++ Palette.closeSucc n rest)
  | call f as, rest =>
    p.openSucc n (p.name f ++ '(' :: writeArgs p as (')' :: Palette.closeSucc n rest))
  | cond a b c d, rest =>
    p.openSucc n (p.keyword "if" ++ '(' :: p.keyword "eq" ++ '(' ::
      writeInside p 0 a (", ".toList ++
        writeInside p 0 b (")) ".toList ++ p.keyword "then" ++ ' ' ::
          writeInside p 0 c (' ' :: p.keyword "else" ++ ' ' ::
            writeInside p 0 d (Palette.closeSucc n rest)))))
  | equation _ _, rest => rest
  | text _, rest => rest

/-- Write the arguments of a call before what follows. -/
def writeArgs (p : Palette) : List Term → List Char → List Char
  | [], rest => rest
  | [a], rest => writeInside p 0 a rest
  | a :: as, rest => writeInside p 0 a (", ".toList ++ writeArgs p as rest)

end

/-- The text of a term. -/
def write (p : Palette) (t : Term) : List Char :=
  t.writeInside p 0 []

/-- Why a node at a depth is not written if it has no written form. It is spelled out, unless that leads
beyond the limit. -/
def refusal (limit : Option Nat) (depth : Nat) (node : Term) : FormatError :=
  if exceeds limit (node.depthFrom .spelling depth) then .tooDeep else .notWritable node.spell

mutual

/-- Whether a term at a depth can be written. The first node that cannot be decides. -/
def checkWrite (limit : Option Nat) (p : Palette) (depth : Nat) : Term → Except FormatError Unit
  | succ a => do
    FormatError.check limit (depth + p.constructors.frames)
    checkWrite limit p (depth + 1) a
  | zero => FormatError.check limit (depth + p.constructors.frames)
  | var _ => FormatError.check limit (depth + p.names.frames)
  | call _ as => do
    checkWriteAll limit p (depth + 2) as
    FormatError.check limit (depth + 1 + p.names.frames)
  | cond a b c d => do
    checkWrite limit p (depth + 1) a
    checkWrite limit p (depth + 1) b
    checkWrite limit p (depth + 1) c
    checkWrite limit p (depth + 1) d
    FormatError.check limit (depth + 1 + p.keywords.frames)
  | equation a b => .error (refusal limit depth (equation a b))
  | text s => .error (refusal limit depth (text s))

def checkWriteAll (limit : Option Nat) (p : Palette) (depth : Nat) : List Term → Except FormatError Unit
  | [] => .ok ()
  | a :: as => do
    checkWrite limit p depth a
    checkWriteAll limit p depth as

end

/-- The text of a term, if it has one within the limit. A term is come to in a second frame. -/
def format (limit : Option Nat) (p : Palette) (t : Term) : Except FormatError String := do
  t.checkWrite limit p 2
  return String.ofList (t.write p)

end Term

namespace Program

/-- The line of a function. -/
def writeFunction (p : Palette) (name : String) (f : Lambda) : List Char :=
  p.definition (p.signature name f.params) ++ f.body.write p

/-- The line of a value. -/
def writeValue (p : Palette) (name : String) (n : Nat) : List Char :=
  p.definition (p.name name) ++ p.numeral n

/-- The text of a program: the functions, the values, and the final term, each on a line. -/
def write (p : Palette) (program : Program) : List Char :=
  ['\n'].intercalate
    (program.functions.entries.map (fun entry => writeFunction p entry.1 entry.2) ++
      program.values.entries.map (fun entry => writeValue p entry.1 entry.2) ++
      (program.result.map (·.write p)).toList)

/-- Whether the terms of a program can be written, in order. -/
def checkWrite (limit : Option Nat) (p : Palette) (program : Program) : Except FormatError Unit :=
  Term.checkWriteAll limit p 2
    (program.functions.entries.map (fun entry => entry.2.body) ++ program.result.toList)

def format (limit : Option Nat) (p : Palette) (program : Program) : Except FormatError String := do
  program.checkWrite limit p
  return String.ofList (program.write p)

end Program

end Unary
