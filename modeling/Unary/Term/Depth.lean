import Unary.Bounds
import Unary.Term

/-!
The depth that a walk down a term reaches.
-/

namespace Unary.Term

mutual

/-- The greatest depth of a walk that comes to a term at a depth. -/
def depthFrom (walk : Descent) (depth : Nat) : Term → Nat
  | succ a => depthFrom walk (depth + walk.succ) a
  | zero => depth + walk.zero
  | var _ => depth + walk.name
  | call _ as => depthAll walk (depth + walk.argument) (depth + walk.callee) as
  | cond a b c d =>
    Nat.max (Nat.max (depthFrom walk (depth + walk.operand) a) (depthFrom walk (depth + walk.operand) b))
      (Nat.max (depthFrom walk (depth + walk.branch) c) (depthFrom walk (depth + walk.branch) d))
  | equation a b =>
    Nat.max (depthFrom walk (depth + walk.side) a) (depthFrom walk (depth + walk.side) b)
  | text _ => depth + walk.text

/-- The greatest depth of a walk that comes to each of the terms at a depth, if it has been at another
depth before. -/
def depthAll (walk : Descent) (depth reached : Nat) : List Term → Nat
  | [] => reached
  | a :: as => depthAll walk depth (Nat.max reached (depthFrom walk depth a)) as

end

/-- Whether a walk that starts with a term stays within a limit. -/
def fits (walk : Descent) (limit : Option Nat) (t : Term) : Bool :=
  !exceeds limit (t.depthFrom walk 0)

end Unary.Term

namespace Unary.Lambda

/-- The function as a message shows it, if its body can be spelled out within a limit. -/
def spell? (limit : Option Nat) (f : Lambda) : Option String :=
  if f.body.fits .spelling limit then some f.spell else none

end Unary.Lambda
