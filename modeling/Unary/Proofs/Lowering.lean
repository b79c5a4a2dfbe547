import Unary.Program
import Unary.Proofs.Evaluation
import Unary.Proofs.WellFormed

/-!
Lowering node for node.

Expressions and terms are the same trees. `Expr.toTerm` and `Term.toExpr` carry one over to the other, and
the two stacks of lowering come to `Expr.toTerm` on every tree that is an expression all through.
-/

namespace Unary

mutual

/-- The same tree as a term. -/
def Expr.toTerm : Expr → Term
  | .zero => .zero
  | .succ arg => .succ arg.toTerm
  | .var name => .var name
  | .call callee args => .call callee (Expr.toTerms args)
  | .cond left right yes no => .cond left.toTerm right.toTerm yes.toTerm no.toTerm
  | .equation left right => .equation left.toTerm right.toTerm
  | .text content => .text content

def Expr.toTerms : List Expr → List Term
  | [] => []
  | e :: es => e.toTerm :: Expr.toTerms es

end

mutual

/-- The same tree as an expression. -/
def Term.toExpr : Term → Expr
  | .zero => .zero
  | .succ arg => .succ arg.toExpr
  | .var name => .var name
  | .call callee args => .call callee (Term.toExprs args)
  | .cond left right yes no => .cond left.toExpr right.toExpr yes.toExpr no.toExpr
  | .equation left right => .equation left.toExpr right.toExpr
  | .text content => .text content

def Term.toExprs : List Term → List Expr
  | [] => []
  | t :: ts => t.toExpr :: Term.toExprs ts

end

mutual

@[simp]
theorem Expr.toExpr_toTerm : ∀ e : Expr, e.toTerm.toExpr = e
  | .zero => rfl
  | .succ arg => by rw [toTerm, Term.toExpr, toExpr_toTerm arg]
  | .var _ => rfl
  | .call _ args => by rw [toTerm, Term.toExpr, toExprs_toTerms args]
  | .cond left right yes no => by
    rw [toTerm, Term.toExpr, toExpr_toTerm left, toExpr_toTerm right, toExpr_toTerm yes,
      toExpr_toTerm no]
  | .equation left right => by rw [toTerm, Term.toExpr, toExpr_toTerm left, toExpr_toTerm right]
  | .text _ => rfl

theorem Expr.toExprs_toTerms : ∀ es : List Expr, Term.toExprs (toTerms es) = es
  | [] => rfl
  | e :: es => by rw [toTerms, Term.toExprs, toExpr_toTerm e, toExprs_toTerms es]

end

mutual

@[simp]
theorem Term.toTerm_toExpr : ∀ t : Term, t.toExpr.toTerm = t
  | .zero => rfl
  | .succ arg => by rw [toExpr, Expr.toTerm, toTerm_toExpr arg]
  | .var _ => rfl
  | .call _ args => by rw [toExpr, Expr.toTerm, toTerms_toExprs args]
  | .cond left right yes no => by
    rw [toExpr, Expr.toTerm, toTerm_toExpr left, toTerm_toExpr right, toTerm_toExpr yes,
      toTerm_toExpr no]
  | .equation left right => by rw [toExpr, Expr.toTerm, toTerm_toExpr left, toTerm_toExpr right]
  | .text _ => rfl

theorem Term.toTerms_toExprs : ∀ ts : List Term, Expr.toTerms (toExprs ts) = ts
  | [] => rfl
  | t :: ts => by rw [toExprs, Expr.toTerms, toTerm_toExpr t, toTerms_toExprs ts]

end

theorem Expr.length_toTerms (es : List Expr) : (toTerms es).length = es.length := by
  induction es with
  | nil => rfl
  | cons e es ih => rw [toTerms, List.length_cons, List.length_cons, ih]

mutual

/-- An expression over names is a term all through. -/
theorem Expr.wellFormed_toTerm : ∀ e : Expr, e.wellFormed = true → e.toTerm.wellFormed = true
  | .zero, _ => rfl
  | .succ arg, he => by
    rw [wellFormed] at he
    rw [toTerm, Term.wellFormed]
    exact wellFormed_toTerm arg he
  | .var _, _ => rfl
  | .call _ args, he => by
    obtain ⟨-, -, has⟩ := wellFormed_call_iff.mp he
    rw [toTerm, Term.wellFormed]
    exact allWellFormed_toTerms args has
  | .cond left right yes no, he => by
    obtain ⟨hl, hr, hy, hn⟩ := wellFormed_cond_iff.mp he
    rw [toTerm, Term.wellFormed_cond_iff]
    exact ⟨wellFormed_toTerm left hl, wellFormed_toTerm right hr, wellFormed_toTerm yes hy,
      wellFormed_toTerm no hn⟩

theorem Expr.allWellFormed_toTerms : ∀ es : List Expr, allWellFormed es = true →
    Term.allWellFormed (toTerms es) = true
  | [], _ => rfl
  | e :: es, hes => by
    obtain ⟨he, hes⟩ := allWellFormed_cons_iff.mp hes
    rw [toTerms, Term.allWellFormed_cons_iff]
    exact ⟨wellFormed_toTerm e he, allWellFormed_toTerms es hes⟩

end

theorem Term.wellFormed_of_toExpr (t : Term) (h : t.toExpr.wellFormed = true) : t.wellFormed = true := by
  have ht := t.toExpr.wellFormed_toTerm h
  rwa [toTerm_toExpr] at ht

namespace Lowering

variable (limit : Option Nat)

/-- The task of a call finds its arguments in reverse order. -/
theorem run_call (callee : String) (args : List Term) (work : List Task) (done : List Term) :
    run limit (.call callee args.length :: work) (args.reverse ++ done) =
      run limit work (.call callee args :: done) := by
  have ht : (args.reverse ++ done).take args.length = args.reverse := by
    rw [← List.length_reverse, List.take_left]
  have hd : (args.reverse ++ done).drop args.length = done := by
    rw [← List.length_reverse, List.drop_left]
  rw [run]
  simp [ht, hd]

mutual

/-- Visiting a tree puts its term on the finished ones and leaves the work below it alone. -/
theorem run_visit : ∀ e : Expr, e.toTerm.wellFormed = true → ∀ (work : List Task)
    (done : List Term), run limit (.visit e :: work) done = run limit work (e.toTerm :: done)
  | .zero, _, work, done => by rw [run, Expr.toTerm]
  | .succ arg, he, work, done => by
    rw [Expr.toTerm, Term.wellFormed] at he
    rw [run, run_visit arg he, run, Expr.toTerm]
  | .var _, _, work, done => by rw [run, Expr.toTerm]
  | .call callee args, he, work, done => by
    rw [Expr.toTerm, Term.wellFormed] at he
    rw [run, run_visits args he, ← Expr.length_toTerms args, run_call, Expr.toTerm]
  | .cond left right yes no, he, work, done => by
    rw [Expr.toTerm, Term.wellFormed_cond_iff] at he
    obtain ⟨hl, hr, hy, hn⟩ := he
    rw [run, run_visit left hl, run_visit right hr, run_visit yes hy, run_visit no hn, run,
      Expr.toTerm]

theorem run_visits : ∀ es : List Expr, Term.allWellFormed (Expr.toTerms es) = true →
    ∀ (work : List Task) (done : List Term),
      run limit (es.map .visit ++ work) done = run limit work ((Expr.toTerms es).reverse ++ done)
  | [], _, work, done => rfl
  | e :: es, hes, work, done => by
    rw [Expr.toTerms, Term.allWellFormed_cons_iff] at hes
    rw [List.map_cons, List.cons_append, run_visit e hes.1, run_visits es hes.2, Expr.toTerms,
      List.reverse_cons, List.append_assoc, List.singleton_append]

end

end Lowering

theorem Expr.lower_eq (limit : Option Nat) (e : Expr) (he : e.toTerm.wellFormed = true) :
    e.lower limit = .ok e.toTerm := by
  rw [lower, Lowering.run_visit _ e he, Lowering.run]

end Unary
