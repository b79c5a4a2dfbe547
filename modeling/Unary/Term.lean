import Unary.Table
import Unary.Text.Nested
import Unary.Text.Quoted

/-!
Terms: the form of an expression that is evaluated. Functions are parameters and a body, and a body sees
nothing but its parameters and the table of functions.
-/

namespace Unary

/-- A tree over the terms. As with expressions, the last two constructors are no terms. -/
inductive Term
  | zero
  | succ (arg : Term)
  | var (name : String)
  | call (callee : String) (args : List Term)
  | cond (left right yes no : Term)
  | equation (left right : Term)
  | text (content : String)

namespace Term

/-- What opens a successor when a term is spelled out. -/
def succHead : List Char := "STerm(arg=".toList

mutual

/-- Whether two terms are the same. -/
def same : Term → Term → Bool
  | zero, zero => true
  | succ a, succ b => same a b
  | var x, var y => x == y
  | call f as, call g bs => f == g && sameAll as bs
  | cond a b c d, cond a' b' c' d' => same a a' && same b b' && same c c' && same d d'
  | equation a b, equation a' b' => same a a' && same b b'
  | text s, text t => s == t
  | _, _ => false

def sameAll : List Term → List Term → Bool
  | [], [] => true
  | a :: as, b :: bs => same a b && sameAll as bs
  | _, _ => false

end

mutual

theorem same_iff : ∀ a b : Term, same a b = true ↔ a = b
  | zero, b => by cases b <;> simp [same]
  | succ a, b => by cases b <;> simp [same, same_iff a]
  | var x, b => by cases b <;> simp [same]
  | call f as, b => by cases b <;> simp [same, sameAll_iff as]
  | cond a₁ a₂ a₃ a₄, b => by
    cases b <;> simp [same, same_iff a₁, same_iff a₂, same_iff a₃, same_iff a₄, and_assoc]
  | equation a₁ a₂, b => by cases b <;> simp [same, same_iff a₁, same_iff a₂]
  | text s, b => by cases b <;> simp [same]

theorem sameAll_iff : ∀ as bs : List Term, sameAll as bs = true ↔ as = bs
  | [], bs => by cases bs <;> simp [sameAll]
  | a :: as, bs => by cases bs <;> simp [sameAll, same_iff a, sameAll_iff as]

end

instance : DecidableEq Term := fun a b => decidable_of_iff _ (same_iff a b)

mutual

/-- The term inside `n` successors as its constructors spell it. -/
def spellChars (n : Nat) : Term → List Char
  | succ a => spellChars (n + 1) a
  | zero => Text.nested n succHead "ZTerm()".toList
  | var x => Text.nested n succHead ("Var(sym=".toList ++ Text.quoteChars x.toList ++ [')'])
  | call f as =>
    Text.nested n succHead ("Term(sym=".toList ++ Text.quoteChars f.toList ++
      ", args=".toList ++ Text.tuple (spellAll as) ++ [')'])
  | cond a b c d =>
    Text.nested n succHead ("Cond(cond=EqExp(arg1=".toList ++ spellChars 0 a ++
      ", arg2=".toList ++ spellChars 0 b ++ "), if_exp=".toList ++ spellChars 0 c ++
      ", else_exp=".toList ++ spellChars 0 d ++ [')'])
  | equation a b =>
    Text.nested n succHead ("EqExp(arg1=".toList ++ spellChars 0 a ++
      ", arg2=".toList ++ spellChars 0 b ++ [')'])
  | text s => Text.nested n succHead (Text.quoteChars s.toList)

def spellAll : List Term → List (List Char)
  | [] => []
  | a :: as => spellChars 0 a :: spellAll as

end

/-- The term as its constructors spell it, for messages about terms. -/
def spell (t : Term) : String :=
  String.ofList (t.spellChars 0)

end Term

/-- A function: the names of its parameters in order, and its body. -/
structure Lambda where
  params : List String
  body : Term
deriving DecidableEq

namespace Lambda

def arity (f : Lambda) : Nat :=
  f.params.length

/-- The function as a message shows it. -/
def spell (f : Lambda) : String :=
  "(λ (" ++ ", ".intercalate f.params ++ ") " ++ f.body.spell ++ ")"

end Lambda

abbrev Values := Table Nat

abbrev Functions := Table Lambda

/-- The names with their values between braces. -/
def Values.spell (values : Values) : String :=
  "\x7b" ++ ", ".intercalate (values.entries.map fun entry => entry.1 ++ ": " ++ toString entry.2) ++
    "\x7d"

/-- The table of values as a message shows it. -/
def Values.describe (values : Values) : String :=
  "<VarEnv " ++ values.spell ++ ">"

/-- The table of functions as a message shows it: the names alone. -/
def Functions.describe (functions : Functions) : String :=
  "<FuncEnv " ++ ", ".intercalate functions.names ++ ">"

end Unary
