import Unary.Argument
import Unary.Prelude

/-!
Sessions: definitions that stay from one source to the next.

Evaluating a source is an action on the session. It takes the new definitions and the program at the end, when
nothing can fail any more. Compiling and calling only look at the session.
-/

namespace Unary

/-- The definitions kept so far, and the program they make with the last source. -/
structure Session where
  mode : Mode
  definitions : List Definition
  program : Program
deriving DecidableEq

/-- The prelude that a session starts with. -/
inductive PreludeChoice
  | none
  | configured
  | text (source : String)
deriving DecidableEq

/-- The prelude that a text chooses: the one that is set if the text is "auto", otherwise the text. -/
def PreludeChoice.ofText (source : String) : PreludeChoice :=
  if source = "auto" then configured else text source

namespace Session

def preludeDefinitions (bounds : Bounds) (env : Environment) (disk : Disk) :
    PreludeChoice → Except Failure (List Definition)
  | .none => .ok []
  | .configured => Script.definitions <$> Prelude.load bounds env disk
  | .text source => Script.definitions <$> Prelude.ofText bounds source

/-- The session that has these definitions and no source yet. -/
def ofDefinitions (bounds : Bounds) (mode : Mode) : List Definition → Except Failure Session
  | [] => .ok ⟨mode, [], .empty⟩
  | defs => do
    let program ← Program.ofScript bounds mode ⟨defs, none⟩
    return ⟨mode, defs, program⟩

/-- Start a session, which is made in a second frame. -/
def start (bounds : Bounds) (mode : Mode) (choice : PreludeChoice) (env : Environment)
    (disk : Disk) : Except Failure Session := do
  let defs ← preludeDefinitions (bounds.inside 2) env disk choice
  ofDefinitions (bounds.inside 2) mode defs

/-- The script of a source after the definitions of the session. -/
def extend (bounds : Bounds) (s : Session) (source : String) : Except Failure Script :=
  Script.after s.definitions <$> Script.read bounds source

/-- The program of a source together with the definitions of the session. -/
def compile (bounds : Bounds) (s : Session) (source : String) : Except Failure Program := do
  let script ← s.extend (bounds.inside 1) source
  Program.ofScript (bounds.inside 1) s.mode script

/-- What is done with a session at hand. Whatever it did to the session before it failed stays done. -/
abbrev Action (α : Type) := ExceptT Failure (StateM Session) α

/-- Evaluate a source: the value of its final expression, if there is one. -/
def evalAction (bounds : Bounds) (source : String) : Action (Option Nat) := do
  let s ← get
  let script ← ofExcept (s.extend (bounds.inside 1) source)
  let program ← ofExcept (Program.ofScript (bounds.inside 1) s.mode script)
  let value ← ofExcept (program.run (bounds.inside 1) s.mode)
  modify fun s => { s with definitions := script.definitions }
  modify fun s => { s with program := program }
  return value

/-- Evaluate the source in a file. -/
def runFileAction (bounds : Bounds) (disk : Disk) (path : String) : Action (Option Nat) := do
  let source ← ofExcept ((disk.readText (Path.ofString path).text).mapError .file)
  evalAction (bounds.inside 1) source

/-- The value of a source, and the session after it. -/
def eval (bounds : Bounds) (s : Session) (source : String) : Except Failure (Option Nat) × Session :=
  (evalAction bounds source).run.run s

/-- The value of the source in a file, and the session after it. -/
def runFile (bounds : Bounds) (disk : Disk) (s : Session) (path : String) :
    Except Failure (Option Nat) × Session :=
  (runFileAction bounds disk path).run.run s

/-- Call a function of the session. The arguments of a function that is not defined are not looked at. -/
def call (bounds : Bounds) (s : Session) (name : String) (args : List Argument) : Except Failure Nat := do
  match ← (s.program.functions.lookup s.mode name).mapError .eval with
  | none => return 0
  | some f =>
    let args ← Argument.toNats args
    (f.apply bounds.fuel s.mode args s.program.functions).toExcept (bounds.inside 2).depth

end Session

end Unary
