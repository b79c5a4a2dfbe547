/-!
Bounds on what a program may use: how deep it may nest, and how many moves an evaluation may make.

Nesting is bounded by the host's stack. Every call that is open takes a frame of it, so a call hands on fewer
frames than it was given, and a walk down a tree opens calls at each node. How many depends on what the walk
is for.
-/

namespace Unary

/-- The depth is how many frames are free; without it nesting is not bounded. The fuel bounds the moves of one
evaluation. -/
structure Bounds where
  depth : Option Nat
  fuel : Nat
deriving DecidableEq

/-- Whether a depth is beyond a limit. Without a limit none is. -/
def exceeds (limit : Option Nat) (depth : Nat) : Bool :=
  limit.any (· < depth)

@[simp]
theorem exceeds_none (depth : Nat) : exceeds none depth = false := rfl

@[simp]
theorem exceeds_some (limit depth : Nat) : exceeds (some limit) depth = decide (limit < depth) := rfl

theorem exceeds_zero (limit : Option Nat) : exceeds limit 0 = false := by
  cases limit <;> rfl

/-- What is within a limit leaves what is less within it. -/
theorem exceeds_eq_false_of_le {limit : Option Nat} {m n : Nat} (hle : m ≤ n)
    (h : exceeds limit n = false) : exceeds limit m = false := by
  cases limit with
  | none => rfl
  | some k =>
    simp only [exceeds_some, decide_eq_false_iff_not] at h ⊢
    omega

/-- What is left of a limit when so many frames are taken. -/
def remaining (limit : Option Nat) (frames : Nat) : Option Nat :=
  limit.map (· - frames)

@[simp]
theorem remaining_none (frames : Nat) : remaining none frames = none := rfl

@[simp]
theorem remaining_some (limit frames : Nat) : remaining (some limit) frames = some (limit - frames) := rfl

/-- What is left is exceeded where the limit is, for whatever takes a frame at all. -/
theorem exceeds_remaining (limit : Option Nat) (frames : Nat) {depth : Nat} (h : 0 < depth) :
    exceeds (remaining limit frames) depth = exceeds limit (frames + depth) := by
  cases limit with
  | none => rfl
  | some limit =>
    simp only [remaining_some, exceeds_some, decide_eq_decide]
    omega

namespace Bounds

/-- The bounds inside so many open calls. -/
def inside (bounds : Bounds) (frames : Nat) : Bounds :=
  ⟨remaining bounds.depth frames, bounds.fuel⟩

@[simp]
theorem depth_inside (bounds : Bounds) (frames : Nat) :
    (bounds.inside frames).depth = remaining bounds.depth frames := rfl

@[simp]
theorem fuel_inside (bounds : Bounds) (frames : Nat) : (bounds.inside frames).fuel = bounds.fuel := rfl

theorem inside_inside (bounds : Bounds) (m n : Nat) : (bounds.inside m).inside n = bounds.inside (m + n) := by
  obtain ⟨_ | limit, fuel⟩ := bounds
  · rfl
  · simp [inside, Nat.sub_sub]

end Bounds

/-- How many frames a walk takes at a node without children, and how much deeper it is in a child of a node
than where it came to the node. -/
structure Descent where
  zero : Nat
  name : Nat
  /-- At a call, besides what its arguments take. -/
  callee : Nat
  text : Nat
  succ : Nat
  /-- In an argument of a call. -/
  argument : Nat
  /-- In what a conditional compares. -/
  operand : Nat
  /-- In what a conditional chooses from. -/
  branch : Nat
  /-- In a side of an equation that stands by itself. -/
  side : Nat
deriving DecidableEq

namespace Descent

/-- The walk that spells out a tree. -/
def spelling : Descent := ⟨3, 4, 4, 1, 3, 4, 6, 3, 3⟩

/-- The walk that compares a tree with one that is the same. -/
def comparing : Descent := ⟨3, 3, 3, 1, 3, 4, 6, 3, 3⟩

/-- The walk that hashes a tree. -/
def hashing : Descent := ⟨3, 3, 3, 1, 2, 2, 4, 2, 2⟩

end Descent

end Unary
