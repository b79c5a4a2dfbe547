import Unary.Program
import Unary.Settings

/-!
The prelude: definitions that a session starts with. The standard one does arithmetic by counting.
-/

namespace Unary

namespace Prelude

/-- The name of the file of a prelude. -/
def fileName : String := "std.peano"

/-- The text of the standard prelude. -/
def standard : String :=
  "def predIt(p, x) = if(eq(s(p), x)) then p else predIt(s(p), x)\n" ++
  "def pred(x) = if(eq(x, z)) then z else predIt(z, x)\n" ++
  "def add(a, b) = if(eq(a, z)) then b else add(pred(a), s(b))\n" ++
  "def sub(a, b) = if(eq(b, z)) then a else sub(pred(a), pred(b))\n" ++
  "def mulAcc(a, b, acc) = if(eq(a, z)) then acc else mulAcc(pred(a), b, add(b, acc))\n" ++
  "def mul(a, b) = mulAcc(a, b, z)\n" ++
  "def max(a, b) = if(eq(sub(a, b), z)) then b else a\n"

end Prelude

/-- Where a prelude was found: built in, or in a file. -/
inductive PreludeOrigin
  | builtin
  | file (path : Path)
deriving DecidableEq

/-- The prelude in a directory, if there is one. -/
def PreludeRoot.find? (disk : Disk) : PreludeRoot → Except FileError (Option PreludeOrigin)
  | .builtin => .ok (some .builtin)
  | .directory path => do
    let candidate := path.join Prelude.fileName
    let isFile ← disk.isFile candidate.text
    return if isFile then some (.file candidate) else none

namespace Prelude

def readOrigin (disk : Disk) : Option PreludeOrigin → Except FileError String
  | none => .error .noPrelude
  | some .builtin => .ok standard
  | some (.file path) => disk.readText path.text

/-- The text of the prelude that is set. -/
def readText (env : Environment) (disk : Disk) : Except FileError String := do
  let root ← env.preludeRoot disk
  let origin ← root.find? disk
  readOrigin disk origin

/-- The definitions in a text. A final expression does not count. -/
def ofText (bounds : Bounds) (text : String) : Except Failure Script :=
  Script.withoutResult <$> Script.read (bounds.inside 1) text

/-- The definitions of the prelude that is set. -/
def load (bounds : Bounds) (env : Environment) (disk : Disk) : Except Failure Script := do
  let text ← (readText env disk).mapError .file
  ofText bounds text

end Prelude

end Unary
