import Unary.Expr.Depth
import Unary.Term

/-!
Lowering expressions to terms with a stack of tasks and a stack of finished terms, so that deep nesting
needs no deep recursion. A tree that is no expression is refused at its first bad node, which the message shows.
That is the one thing that takes frames.
-/

namespace Unary.Lowering

inductive Task
  | visit (e : Expr)
  | succ
  | call (callee : String) (count : Nat)
  | cond
deriving DecidableEq

/-- Why there is no term: a node that is no expression, or one that the limit does not let a message show.
Underflow is a task that does not find the terms it needs. -/
inductive Error
  | notExpr (node : Expr)
  | tooDeep
  | underflow
deriving DecidableEq

/-- Refuse a node, which the message shows if the limit lets it. -/
def refusal (limit : Option Nat) (node : Expr) : Error :=
  if node.fits .spelling limit then .notExpr node else .tooDeep

/-- A bound on the moves a task still causes: a node is visited once and built once. -/
def Task.weight : Task → Nat
  | .visit e => 2 * e.size
  | _ => 1

def weight : List Task → Nat
  | [] => 0
  | task :: work => task.weight + weight work

@[simp]
theorem weight_append (as bs : List Task) : weight (as ++ bs) = weight as + weight bs := by
  induction as with
  | nil => simp [weight]
  | cons task as ih => simp [weight, ih, Nat.add_assoc]

@[simp]
theorem weight_map_visit (es : List Expr) : weight (es.map .visit) = 2 * Expr.sizeAll es := by
  induction es with
  | nil => rfl
  | cons e es ih =>
    simp only [List.map_cons, weight, ih, Task.weight, Expr.sizeAll]
    omega

/-- Do the tasks in order, the terms of the finished parts being in reverse order. -/
def run (limit : Option Nat) : List Task → List Term → Except Error Term
  | [], done =>
    match done with
    | t :: _ => .ok t
    | [] => .error .underflow
  | .visit .zero :: work, done => run limit work (.zero :: done)
  | .visit (.var x) :: work, done => run limit work (.var x :: done)
  | .visit (.succ a) :: work, done => run limit (.visit a :: .succ :: work) done
  | .visit (.call f as) :: work, done => run limit (as.map .visit ++ .call f as.length :: work) done
  | .visit (.cond a b c d) :: work, done =>
    run limit (.visit a :: .visit b :: .visit c :: .visit d :: .cond :: work) done
  | .visit (.equation a b) :: _, _ => .error (refusal limit (.equation a b))
  | .visit (.text s) :: _, _ => .error (refusal limit (.text s))
  | .succ :: work, done =>
    match done with
    | t :: done => run limit work (.succ t :: done)
    | [] => .error .underflow
  | .call f count :: work, done =>
    let args := done.take count
    if args.length = count then run limit work (.call f args.reverse :: done.drop count)
    else .error .underflow
  | .cond :: work, done =>
    match done with
    | d :: c :: b :: a :: done => run limit work (.cond a b c d :: done)
    | _ => .error .underflow
termination_by work _ => weight work
decreasing_by
  all_goals simp [weight, Task.weight, Expr.size]
  all_goals omega

end Unary.Lowering

namespace Unary.Expr

/-- The term of an expression. Lowering takes a frame of its own. -/
def lower (limit : Option Nat) (e : Expr) : Except Lowering.Error Term :=
  Lowering.run (remaining limit 1) [.visit e] []

end Unary.Expr
