import Unary.Lexeme
import Unary.Script

/-!
The grammar of scripts as rules over lexemes.
-/

namespace Unary

namespace Grammar

mutual

/-- The rules for expressions. The parenthesis of a call starts where the name of the function stops, and
every other one may stand anywhere after what comes before it. -/
inductive Expression : List Lexeme → Expr → Prop
  | zero {l : Lexeme} : l.token = .zero → Expression [l] .zero
  | succ {l p q : Lexeme} {inner : List Lexeme} {e : Expr} :
      l.token = .succ → p.token = .lparen → Expression inner e → q.token = .rparen →
      Expression (l :: p :: (inner ++ [q])) (.succ e)
  | cond {i p q r comma close close' yes no : Lexeme} {as bs cs ds : List Lexeme}
      {a b c d : Expr} :
      i.token = .cond → p.token = .lparen → q.token = .equate → r.token = .lparen →
      Expression as a → comma.token = .comma → Expression bs b →
      close.token = .rparen → close'.token = .rparen →
      yes.token = .yes → Expression cs c → no.token = .no → Expression ds d →
      Expression (i :: p :: q :: r :: (as ++ comma :: (bs ++ close :: close' :: yes ::
        (cs ++ no :: ds)))) (.cond a b c d)
  | var {l : Lexeme} {name : String} : l.token = .ident name → Expression [l] (.var name)
  | call {l p q : Lexeme} {name : String} {inner : List Lexeme} {args : List Expr} :
      l.token = .ident name → p.token = .lparen → p.start = l.stop → Arguments inner args →
      q.token = .rparen → Expression (l :: p :: (inner ++ [q])) (.call name args)

/-- The rules for the arguments of a call, of which there is at least one. -/
inductive Arguments : List Lexeme → List Expr → Prop
  | one {ls : List Lexeme} {e : Expr} : Expression ls e → Arguments ls [e]
  | more {ls rest : List Lexeme} {comma : Lexeme} {e : Expr} {es : List Expr} :
      Expression ls e → comma.token = .comma → Arguments rest es →
      Arguments (ls ++ comma :: rest) (e :: es)

end

/-- The rules for the parameters of a function, of which there is at least one. -/
inductive Parameters : List Lexeme → List String → Prop
  | one {l : Lexeme} {name : String} : l.token = .ident name → Parameters [l] [name]
  | more {l comma : Lexeme} {rest : List Lexeme} {name : String} {names : List String} :
      l.token = .ident name → comma.token = .comma → Parameters rest names →
      Parameters (l :: comma :: rest) (name :: names)

/-- The rules for one definition. -/
inductive Defines : List Lexeme → Definition → Prop
  | value {d n q : Lexeme} {name : String} {body : List Lexeme} {e : Expr} :
      d.token = .define → n.token = .ident name → q.token = .equals → Expression body e →
      Defines (d :: n :: q :: body) (.value name e)
  | function {d n p r q : Lexeme} {name : String} {params : List String}
      {inner body : List Lexeme} {e : Expr} :
      d.token = .define → n.token = .ident name → p.token = .lparen →
      Parameters inner params → r.token = .rparen → q.token = .equals → Expression body e →
      Defines (d :: n :: p :: (inner ++ r :: q :: body)) (.function name params e)

/-- Definitions one after the other, with nothing between them. -/
inductive DefinesAll : List Lexeme → List Definition → Prop
  | nil : DefinesAll [] []
  | cons {ls rest : List Lexeme} {d : Definition} {ds : List Definition} :
      Defines ls d → DefinesAll rest ds → DefinesAll (ls ++ rest) (d :: ds)

/-- A program is definitions and then, perhaps, one expression. -/
inductive Program : List Lexeme → Script → Prop
  | definitions {ls : List Lexeme} {ds : List Definition} :
      DefinesAll ls ds → Program ls ⟨ds, none⟩
  | result {ls rest : List Lexeme} {ds : List Definition} {e : Expr} :
      DefinesAll ls ds → Expression rest e → Program (ls ++ rest) ⟨ds, some e⟩

theorem Program.cons {ls ls' : List Lexeme} {d : Definition} {s : Script} (hd : Defines ls d)
    (hs : Program ls' s) : Program (ls ++ ls') (s.after [d]) := by
  cases hs with
  | definitions hds => exact .definitions (.cons hd hds)
  | result hds he =>
    rw [← List.append_assoc]
    exact .result (.cons hd hds) he

theorem Expression.head_ne_define {ls : List Lexeme} {e : Expr} (h : Expression ls e) :
    ∃ l rest, ls = l :: rest ∧ l.token ≠ .define := by
  cases h with
  | zero ht => exact ⟨_, _, rfl, by simp [ht]⟩
  | succ ht => exact ⟨_, _, rfl, by simp [ht]⟩
  | cond ht => exact ⟨_, _, rfl, by simp [ht]⟩
  | var ht => exact ⟨_, _, rfl, by simp [ht]⟩
  | call ht => exact ⟨_, _, rfl, by simp [ht]⟩

end Grammar

/-- Whether every lexeme says rightly if a parenthesis opens where it stops. -/
def Linked : List Lexeme → Prop
  | [] => True
  | l :: ls =>
    (l.opens = true ↔ ∃ p ∈ ls.head?, p.token = .lparen ∧ p.start = l.stop) ∧ Linked ls

theorem Linked.right {as bs : List Lexeme} (h : Linked (as ++ bs)) : Linked bs := by
  induction as with
  | nil => exact h
  | cons a as ih => exact ih h.2

end Unary
