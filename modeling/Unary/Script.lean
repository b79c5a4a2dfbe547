import Unary.Expr

/-!
Scripts: programs as they are written.
-/

namespace Unary

inductive Definition
  | value (name : String) (body : Expr)
  | function (name : String) (params : List String) (body : Expr)
deriving DecidableEq

/-- The expression that a definition gives a name to. -/
def Definition.body : Definition → Expr
  | value _ body => body
  | function _ _ body => body

/-- Definitions and then, perhaps, one final expression. -/
structure Script where
  definitions : List Definition
  result : Option Expr
deriving DecidableEq

namespace Script

/-- The definitions of a script without its final expression. -/
def withoutResult (s : Script) : Script :=
  ⟨s.definitions, none⟩

/-- A script that follows other definitions. -/
def after (earlier : List Definition) (s : Script) : Script :=
  ⟨earlier ++ s.definitions, s.result⟩

end Script

end Unary
