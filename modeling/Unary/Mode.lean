import Unary.Term

/-!
The two modes of evaluation, which differ in what becomes of missing things, and the faults of strict
mode. A call passes values for the parameters of a function and nothing else.
-/

namespace Unary

/-- What becomes of missing things: zero, or an error. -/
inductive Mode
  | lenient
  | strict
deriving DecidableEq

/-- Why a term has no value. A call by name says which function it calls. -/
inductive Fault
  | unbound (name : String)
  | unknownFunction (name : String)
  | arity (callee : Option String) (expected got : Nat)
  | notTerm (node : Term)
deriving DecidableEq

namespace Fault

/-- The name of the kind of error that a fault is. -/
def label : Fault → String
  | unbound _ => "PeanoUnboundSymbol"
  | unknownFunction _ => "PeanoUnknownFunction"
  | arity .. => "PeanoArityError"
  | notTerm _ => "TypeError"

def message : Fault → String
  | unbound name => "Cannot lookup unbound symbol " ++ name
  | unknownFunction name => "Cannot call undefined function " ++ name
  | arity (some callee) expected got =>
    callee ++ " expects " ++ toString expected ++ " argument(s), got " ++ toString got
  | arity none expected got =>
    "expected " ++ toString expected ++ " argument(s), got " ++ toString got
  | notTerm node => "Cannot evaluate " ++ node.spell

end Fault

namespace Values

/-- The value of a name. A name without a value is zero, or an error in strict mode. -/
def lookup (values : Values) (mode : Mode) (name : String) : Except Fault Nat :=
  match values.get? name, mode with
  | some n, _ => .ok n
  | none, .lenient => .ok 0
  | none, .strict => .error (.unbound name)

end Values

namespace Functions

/-- The function of a name. In strict mode it is an error that there is none. -/
def lookup (functions : Functions) (mode : Mode) (name : String) : Except Fault (Option Lambda) :=
  match functions.get? name, mode with
  | some f, _ => .ok (some f)
  | none, .lenient => .ok none
  | none, .strict => .error (.unknownFunction name)

end Functions

namespace Lambda

/-- Pair every parameter with its argument, or with zero if there is none. -/
def pairArgs : List String → List Nat → List (String × Nat)
  | [], _ => []
  | param :: params, [] => (param, 0) :: pairArgs params []
  | param :: params, arg :: args => (param, arg) :: pairArgs params args

/-- The values a body sees: the parameters and nothing else. A repeated parameter takes the value of its
last position. -/
def bind (f : Lambda) (args : List Nat) : Values :=
  .ofList (pairArgs f.params args)

/-- Whether a call with so many arguments is refused. -/
def refuses (f : Lambda) (mode : Mode) (got : Nat) : Bool :=
  mode = .strict && got != f.arity

end Lambda

end Unary
