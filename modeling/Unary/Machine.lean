import Unary.Mode

/-!
Evaluation by a machine with two stacks: the work still to do and the numbers already found.

A call takes its frame off the work and puts the body of the function in its place, so a tail call needs
no further room. `step` is one move of the machine and `run` makes moves while its fuel lasts.
-/

namespace Unary

namespace Machine

inductive Frame
  | eval (term : Term) (env : Values)
  | succ
  | branch (yes no : Term) (env : Values)
  | apply (f : Lambda) (count : Nat)
deriving DecidableEq

structure Config where
  work : List Frame
  values : List Nat
deriving DecidableEq

/-- The outcome of one move. A machine is stuck when a frame does not find the numbers it needs. -/
inductive Step
  | next (config : Config)
  | halt (value : Nat)
  | fault (fault : Fault)
  | stuck
deriving DecidableEq

/-- Begin to evaluate a term. The arguments of a call that no parameter takes are not evaluated, and
neither are those of a function that is not defined. -/
def eval (mode : Mode) (functions : Functions) (env : Values) (work : List Frame)
    (values : List Nat) : Term → Step
  | .zero => .next ⟨work, 0 :: values⟩
  | .succ arg => .next ⟨.eval arg env :: .succ :: work, values⟩
  | .var name =>
    match env.lookup mode name with
    | .ok n => .next ⟨work, n :: values⟩
    | .error fault => .fault fault
  | .cond left right yes no =>
    .next ⟨.eval left env :: .eval right env :: .branch yes no env :: work, values⟩
  | .call callee args =>
    match functions.lookup mode callee with
    | .error fault => .fault fault
    | .ok none => .next ⟨work, 0 :: values⟩
    | .ok (some f) =>
      if f.refuses mode args.length then .fault (.arity (some callee) f.arity args.length)
      else
        let supplied := args.take f.arity
        .next ⟨supplied.map (.eval · env) ++ .apply f supplied.length :: work, values⟩
  | .equation left right => .fault (.notTerm (.equation left right))
  | .text content => .fault (.notTerm (.text content))

/-- One move of the machine. -/
def step (mode : Mode) (functions : Functions) : Config → Step
  | ⟨[], values⟩ =>
    match values with
    | n :: _ => .halt n
    | [] => .stuck
  | ⟨.eval term env :: work, values⟩ => eval mode functions env work values term
  | ⟨.succ :: work, values⟩ =>
    match values with
    | n :: values => .next ⟨work, (n + 1) :: values⟩
    | [] => .stuck
  | ⟨.branch yes no env :: work, values⟩ =>
    match values with
    | right :: left :: values =>
      .next ⟨.eval (if left = right then yes else no) env :: work, values⟩
    | _ => .stuck
  | ⟨.apply f count :: work, values⟩ =>
    let args := values.take count
    if args.length = count then
      .next ⟨.eval f.body (f.bind args.reverse) :: work, values.drop count⟩
    else .stuck

/-- The outcome of a run. It is unfinished when the fuel gave out first. -/
inductive Outcome
  | value (n : Nat)
  | fault (fault : Fault)
  | stuck
  | unfinished
deriving DecidableEq

/-- Make moves until the machine halts, at most as many as there is fuel. -/
def run (mode : Mode) (functions : Functions) : Nat → Config → Outcome
  | 0, _ => .unfinished
  | fuel + 1, c =>
    match step mode functions c with
    | .next c' => run mode functions fuel c'
    | .halt n => .value n
    | .fault fault => .fault fault
    | .stuck => .stuck

end Machine

/-- Evaluate a term with the given values and functions. -/
def evaluate (fuel : Nat) (mode : Mode) (term : Term) (values : Values) (functions : Functions) :
    Machine.Outcome :=
  Machine.run mode functions fuel ⟨[.eval term values], []⟩

/-- Call a function with numbers. Missing arguments are zero and surplus ones are dropped, unless the mode
is strict. -/
def Lambda.apply (fuel : Nat) (mode : Mode) (f : Lambda) (args : List Nat) (functions : Functions) :
    Machine.Outcome :=
  if f.refuses mode args.length then .fault (.arity none f.arity args.length)
  else evaluate fuel mode f.body (f.bind (args.take f.arity)) functions

end Unary
