import Unary.Disk
import Unary.Disk.Path
import Unary.Environment
import Unary.Mode
import Unary.Text.Blank
import Unary.Text.Integer

/-!
Settings taken from the environment. Blanks around a setting do not count, and a setting that cannot be
read is as good as none.
-/

namespace Unary.Environment

/-- The characters of a setting without the blanks around them. -/
def setting (value : Option String) : List Char :=
  Text.trim (value.getD "").toList

/-- The settings, in lower case, that turn strict mode on. -/
def strictWords : List String := ["1", "true", "yes", "on"]

/-- Strict mode if the setting is one of the words, letters of either case. -/
def mode (env : Environment) : Mode :=
  if strictWords.contains (String.ofList ((setting env.strict).map Char.toLower)) then .strict
  else .lenient

def defaultRecursionLimit : Nat := 10000

/-- The limit on nesting that is set, if it is a positive number. -/
def nestingLimit (env : Environment) : Nat :=
  match Text.readInt? (setting env.recursionLimit) with
  | some (.ofNat (n + 1)) => n + 1
  | _ => defaultRecursionLimit

end Unary.Environment

namespace Unary

/-- The directory of a prelude: the built-in one, or one on the disk. -/
inductive PreludeRoot
  | builtin
  | directory (path : Path)
deriving DecidableEq

/-- The directory that is set. A path that is no directory stands for the directory that holds it. -/
def Environment.preludeRoot (env : Environment) (disk : Disk) : Except FileError PreludeRoot :=
  match setting env.preludePath with
  | [] => .ok .builtin
  | raw => do
    let path := Path.ofString (String.ofList raw)
    let isDirectory ← disk.isDirectory path.text
    return .directory (if isDirectory then path else path.parent)

end Unary
