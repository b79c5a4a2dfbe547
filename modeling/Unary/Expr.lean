import Unary.Text.Nested
import Unary.Text.Quoted

/-!
Expressions as they are written in a program.
-/

namespace Unary

/-- A tree over the grammar's expressions. The last two constructors are no expressions: they stand for
what a hand-built tree may hold in an expression's place. -/
inductive Expr
  | zero
  | succ (arg : Expr)
  | var (name : String)
  | call (callee : String) (args : List Expr)
  | cond (left right yes no : Expr)
  | equation (left right : Expr)
  | text (content : String)

namespace Expr

/-- What opens a successor when a tree is spelled out. -/
def succHead : List Char := "Succ(arg=".toList

mutual

/-- Whether two trees are the same. -/
def same : Expr → Expr → Bool
  | zero, zero => true
  | succ a, succ b => same a b
  | var x, var y => x == y
  | call f as, call g bs => f == g && sameAll as bs
  | cond a b c d, cond a' b' c' d' => same a a' && same b b' && same c c' && same d d'
  | equation a b, equation a' b' => same a a' && same b b'
  | text s, text t => s == t
  | _, _ => false

def sameAll : List Expr → List Expr → Bool
  | [], [] => true
  | a :: as, b :: bs => same a b && sameAll as bs
  | _, _ => false

end

mutual

theorem same_iff : ∀ a b : Expr, same a b = true ↔ a = b
  | zero, b => by cases b <;> simp [same]
  | succ a, b => by cases b <;> simp [same, same_iff a]
  | var x, b => by cases b <;> simp [same]
  | call f as, b => by cases b <;> simp [same, sameAll_iff as]
  | cond a₁ a₂ a₃ a₄, b => by
    cases b <;> simp [same, same_iff a₁, same_iff a₂, same_iff a₃, same_iff a₄, and_assoc]
  | equation a₁ a₂, b => by cases b <;> simp [same, same_iff a₁, same_iff a₂]
  | text s, b => by cases b <;> simp [same]

theorem sameAll_iff : ∀ as bs : List Expr, sameAll as bs = true ↔ as = bs
  | [], bs => by cases bs <;> simp [sameAll]
  | a :: as, bs => by cases bs <;> simp [sameAll, same_iff a, sameAll_iff as]

end

instance : DecidableEq Expr := fun a b => decidable_of_iff _ (same_iff a b)

mutual

/-- The number of nodes of a tree. -/
def size : Expr → Nat
  | zero => 1
  | succ a => size a + 1
  | var _ => 1
  | call _ as => sizeAll as + 1
  | cond a b c d => size a + size b + size c + size d + 1
  | equation a b => size a + size b + 1
  | text _ => 1

def sizeAll : List Expr → Nat
  | [] => 0
  | a :: as => size a + sizeAll as

end

theorem size_pos (e : Expr) : 0 < e.size := by
  cases e <;> simp [size]

/-- Put `n` successors around a tree. -/
def addSucc : Nat → Expr → Expr
  | 0, e => e
  | n + 1, e => addSucc n (succ e)

/-- The written numeral of a number. -/
def numeral (n : Nat) : Expr :=
  addSucc n zero

mutual

/-- The tree inside `n` successors as its constructors spell it. -/
def spellChars (n : Nat) : Expr → List Char
  | succ a => spellChars (n + 1) a
  | zero => Text.nested n succHead "Zero()".toList
  | var x => Text.nested n succHead ("Var(ident=".toList ++ Text.quoteChars x.toList ++ [')'])
  | call f as =>
    Text.nested n succHead ("FuncCall(ident=".toList ++ Text.quoteChars f.toList ++
      ", args=".toList ++ Text.tuple (spellAll as) ++ [')'])
  | cond a b c d =>
    Text.nested n succHead ("Cond(cond=EqCond(arg1=".toList ++ spellChars 0 a ++
      ", arg2=".toList ++ spellChars 0 b ++ "), then_exp=".toList ++ spellChars 0 c ++
      ", else_exp=".toList ++ spellChars 0 d ++ [')'])
  | equation a b =>
    Text.nested n succHead ("EqCond(arg1=".toList ++ spellChars 0 a ++
      ", arg2=".toList ++ spellChars 0 b ++ [')'])
  | text s => Text.nested n succHead (Text.quoteChars s.toList)

def spellAll : List Expr → List (List Char)
  | [] => []
  | a :: as => spellChars 0 a :: spellAll as

end

/-- The tree as its constructors spell it, for messages about trees. -/
def spell (e : Expr) : String :=
  String.ofList (e.spellChars 0)

end Expr

end Unary
