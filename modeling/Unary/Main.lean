import Unary.Colour.Escape
import Unary.CommandLine

/-!
The program: the command line over the environment and the disk of the machine it runs on.
-/

namespace Unary.Main

/-- More moves than any machine can make. -/
def fuel : Nat := 0x4000000000000000

/-- The machine paints by escape sequences, and the command line is called from its outermost frame. -/
def host : CommandLine.Host := ⟨.escaping, 1⟩

/-- What is at a path of the machine's disk. -/
def probe (path : String) : IO (Except PathFault Entry) := do
  try
    return .ok (.file (← IO.FS.readBinFile path))
  catch error =>
    match error with
    | .inappropriateType _ 21 _ => return .ok .directory
    | .inappropriateType .. => return .error .notDirectory
    | .permissionDenied .. => return .error .denied
    | .invalidArgument .. => return .error .nameTooLong
    | _ => return .error .missing

def readEnvironment : IO Environment := do
  return {
    strict := ← IO.getEnv "PEANO_STRICT"
    preludePath := ← IO.getEnv "PEANO_PRELUDE_PATH"
    recursionLimit := ← IO.getEnv "PEANO_RECURSION_LIMIT"
    noColor := ← IO.getEnv "NO_COLOR"
    forceColor := ← IO.getEnv "FORCE_COLOR"
    ansiColorsDisabled := ← IO.getEnv "ANSI_COLORS_DISABLED" }

/-- The paths where a prelude may be looked for. -/
def preludePaths (env : Environment) : List String :=
  let path := Path.ofString (String.ofList (Environment.setting env.preludePath))
  [path.text, (path.join Prelude.fileName).text, (path.parent.join Prelude.fileName).text]

/-- The paths that a run may ask about. -/
def askedPaths (env : Environment) (arguments : List String) : List String :=
  match CommandLine.parseArguments arguments with
  | .ok (.run options) =>
    options.file :: if options.has .prelude then preludePaths env else []
  | _ => []

/-- The part of the machine's disk that the given paths show. -/
def readDisk (paths : List String) : IO Disk := do
  let found ← paths.mapM fun path => return (path, ← probe path)
  return ⟨fun path => ((found.find? (·.1 == path)).map (·.2)).getD (.error .missing)⟩

end Unary.Main

open Unary Unary.Main in
def main (arguments : List String) : IO UInt32 := do
  let env ← readEnvironment
  let disk ← readDisk (askedPaths env arguments)
  let result := CommandLine.run host fuel env disk arguments
  IO.print result.output
  IO.eprint result.errors
  match result.status with
  | .exit code => return code.toUInt32
  | .failure failure =>
    IO.eprintln failure.message
    return 1
  | .limitTooLarge =>
    IO.eprintln "PEANO_RECURSION_LIMIT is too large"
    return 1
