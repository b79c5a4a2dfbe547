import Unary.Bounds
import Unary.Script

/-!
The depth that a walk down an expression reaches, or one down all expressions of a script.
-/

namespace Unary.Expr

mutual

/-- The greatest depth of a walk that comes to a tree at a depth. -/
def depthFrom (walk : Descent) (depth : Nat) : Expr → Nat
  | succ a => depthFrom walk (depth + walk.succ) a
  | zero => depth + walk.zero
  | var _ => depth + walk.name
  | call _ as => depthAll walk (depth + walk.argument) (depth + walk.callee) as
  | cond a b c d =>
    Nat.max (Nat.max (depthFrom walk (depth + walk.operand) a) (depthFrom walk (depth + walk.operand) b))
      (Nat.max (depthFrom walk (depth + walk.branch) c) (depthFrom walk (depth + walk.branch) d))
  | equation a b =>
    Nat.max (depthFrom walk (depth + walk.side) a) (depthFrom walk (depth + walk.side) b)
  | text _ => depth + walk.text

/-- The greatest depth of a walk that comes to each of the trees at a depth, if it has been at another
depth before. -/
def depthAll (walk : Descent) (depth reached : Nat) : List Expr → Nat
  | [] => reached
  | a :: as => depthAll walk depth (Nat.max reached (depthFrom walk depth a)) as

end

/-- Whether a walk that starts with a tree stays within a limit. -/
def fits (walk : Descent) (limit : Option Nat) (e : Expr) : Bool :=
  !exceeds limit (e.depthFrom walk 0)

end Unary.Expr

namespace Unary.Script

/-- Whether a walk stays within a limit on every expression of a script. -/
def fits (walk : Descent) (limit : Option Nat) (s : Script) : Bool :=
  (s.definitions.map Definition.body ++ s.result.toList).all (·.fits walk limit)

end Unary.Script
