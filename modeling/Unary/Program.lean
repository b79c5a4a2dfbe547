import Unary.Failure

/-!
Programs ready to run: the table of functions, the values of the defined names, and the final term.

Functions come first, so a value may use a function defined after it. Values are found in the order of
their definitions, each with the values before it.
-/

namespace Unary

structure Program where
  functions : Functions
  values : Values
  result : Option Term
deriving DecidableEq

namespace Program

def empty : Program := ⟨.empty, .empty, none⟩

/-- The term of an expression that stands in a script. -/
def lowerExpr (limit : Option Nat) (e : Expr) : Except Failure Term :=
  (e.lower limit).mapError .ofLowering

/-- Put the functions among the definitions into a table. -/
def lowerFunctions (limit : Option Nat) : Functions → List Definition → Except Failure Functions
  | functions, [] => .ok functions
  | functions, .value .. :: defs => lowerFunctions limit functions defs
  | functions, .function name params body :: defs => do
    let body ← lowerExpr limit body
    lowerFunctions limit (functions.insert name ⟨params, body⟩) defs

/-- Put the values among the definitions into a table. -/
def lowerValues (bounds : Bounds) (mode : Mode) (functions : Functions) :
    Values → List Definition → Except Failure Values
  | values, [] => .ok values
  | values, .function .. :: defs => lowerValues bounds mode functions values defs
  | values, .value name body :: defs => do
    let body ← lowerExpr bounds.depth body
    let n ← (evaluate bounds.fuel mode body values functions).toExcept bounds.depth
    lowerValues bounds mode functions (values.insert name n) defs

def lowerResult (limit : Option Nat) : Option Expr → Except Failure (Option Term)
  | none => .ok none
  | some e => some <$> lowerExpr limit e

/-- Make a script ready to run. The body of a function is two frames deeper than a value. -/
def ofScript (bounds : Bounds) (mode : Mode) (script : Script) : Except Failure Program := do
  let functions ← lowerFunctions (bounds.inside 3).depth .empty script.definitions
  let values ← lowerValues (bounds.inside 1) mode functions .empty script.definitions
  let result ← lowerResult (bounds.inside 1).depth script.result
  return ⟨functions, values, result⟩

/-- The value of the final term, if there is one. -/
def run (bounds : Bounds) (mode : Mode) (program : Program) : Except Failure (Option Nat) :=
  match program.result with
  | none => .ok none
  | some term =>
    some <$> (evaluate bounds.fuel mode term program.values program.functions).toExcept bounds.depth

end Program

namespace Script

/-- The frames that reading takes besides what nesting takes. -/
def readingFrames : Nat := 8

/-- Read a script, with the failures of a program. -/
def read (bounds : Bounds) (source : String) : Except Failure Script :=
  if exceeds bounds.depth readingFrames then .error .tooDeep
  else (parse (bounds.inside readingFrames).depth source).mapError .ofParse

end Script

end Unary
