import Unary.Disk
import Unary.Expr.Depth
import Unary.Machine
import Unary.Lowering
import Unary.Reading
import Unary.Term.Depth

/-!
What can keep a program from giving its answer, from reading its file to evaluating it.
-/

namespace Unary

inductive Failure
  | read (error : ReadError)
  | tooDeep
  | notExpr (node : Expr)
  | eval (fault : Fault)
  | notNatural (shown : String)
  | file (error : FileError)
  | stuck
  | unfinished
deriving DecidableEq

namespace Failure

def message : Failure → String
  | read error => error.message
  | tooDeep => "program nesting too deep (raise PEANO_RECURSION_LIMIT)"
  | notExpr node => "Cannot lower " ++ node.spell
  | eval fault => fault.message
  | notNatural shown => "only natural numbers supported, got " ++ shown
  | file error => error.message
  | stuck => "the machine is stuck"
  | unfinished => "the machine has not finished"

def ofParse : ParseError → Failure
  | .read error => read error
  | .tooDeep => tooDeep

def ofLowering : Lowering.Error → Failure
  | .notExpr node => notExpr node
  | .tooDeep => tooDeep
  | .underflow => stuck

/-- The failure that a fault is. A message that shows a term takes the frames of spelling it out. -/
def ofFault (limit : Option Nat) : Fault → Failure
  | .notTerm node => if node.fits .spelling limit then eval (.notTerm node) else tooDeep
  | fault => eval fault

end Failure

namespace Machine.Outcome

/-- The outcome of an evaluation under a limit. It takes a frame, and goes no deeper but to show a term. -/
def toExcept (limit : Option Nat) : Outcome → Except Failure Nat
  | .value n => .ok n
  | .fault cause => .error (.ofFault (remaining limit 1) cause)
  | .stuck => .error .stuck
  | .unfinished => .error .unfinished

end Machine.Outcome

end Unary
