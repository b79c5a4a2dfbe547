import Unary.Mode

/-!
Evaluation by rules. `Evaluates` derives the value of a term or its fault, the first one in the order of
evaluation, and `EvaluatesAll` does so for arguments from left to right.

A term that no rule gives a result to is one whose evaluation goes on forever.
-/

namespace Unary

mutual

/-- Whether a tree is a term all through, with no node in it that stands for something else. -/
def Term.wellFormed : Term → Bool
  | .zero => true
  | .succ arg => arg.wellFormed
  | .var _ => true
  | .call _ args => Term.allWellFormed args
  | .cond left right yes no =>
    left.wellFormed && right.wellFormed && yes.wellFormed && no.wellFormed
  | .equation _ _ => false
  | .text _ => false

def Term.allWellFormed : List Term → Bool
  | [] => true
  | t :: ts => t.wellFormed && Term.allWellFormed ts

end

theorem Term.wellFormed_cond_iff {left right yes no : Term} :
    (cond left right yes no).wellFormed = true ↔ left.wellFormed = true ∧
      right.wellFormed = true ∧ yes.wellFormed = true ∧ no.wellFormed = true := by
  simp only [wellFormed, Bool.and_eq_true, and_assoc]

theorem Term.allWellFormed_cons_iff {t : Term} {ts : List Term} :
    allWellFormed (t :: ts) = true ↔ t.wellFormed = true ∧ allWellFormed ts = true := by
  rw [allWellFormed, Bool.and_eq_true]

/-- Whether the bodies of all functions are terms. -/
def Functions.wellFormed (functions : Functions) : Bool :=
  functions.entries.all fun entry => entry.2.body.wellFormed

/-- Bind parameters from left to right on top of the given values, those without an argument to zero. -/
def bindParams (values : Values) : List String → List Nat → Values
  | [], _ => values
  | param :: params, [] => bindParams (values.insert param 0) params []
  | param :: params, n :: ns => bindParams (values.insert param n) params ns

mutual

/-- The rules of evaluation. The operands of a conditional come first, the left one before the right one,
and then only the chosen branch. A call looks up its function, then compares the number of its arguments,
then evaluates those that have a parameter, and then the body, which sees its parameters alone. -/
inductive Evaluates (mode : Mode) (functions : Functions) :
    Values → Term → Except Fault Nat → Prop
  | zero {env : Values} : Evaluates mode functions env .zero (.ok 0)
  | succ {env : Values} {arg : Term} {n : Nat} :
      Evaluates mode functions env arg (.ok n) →
      Evaluates mode functions env (.succ arg) (.ok (n + 1))
  | succFault {env : Values} {arg : Term} {fault : Fault} :
      Evaluates mode functions env arg (.error fault) →
      Evaluates mode functions env (.succ arg) (.error fault)
  | bound {env : Values} {name : String} {n : Nat} :
      env.get? name = some n → Evaluates mode functions env (.var name) (.ok n)
  | unboundZero {env : Values} {name : String} :
      mode = .lenient → env.get? name = none →
      Evaluates mode functions env (.var name) (.ok 0)
  | unbound {env : Values} {name : String} :
      mode = .strict → env.get? name = none →
      Evaluates mode functions env (.var name) (.error (.unbound name))
  | leftFault {env : Values} {left right yes no : Term} {fault : Fault} :
      Evaluates mode functions env left (.error fault) →
      Evaluates mode functions env (.cond left right yes no) (.error fault)
  | rightFault {env : Values} {left right yes no : Term} {m : Nat} {fault : Fault} :
      Evaluates mode functions env left (.ok m) →
      Evaluates mode functions env right (.error fault) →
      Evaluates mode functions env (.cond left right yes no) (.error fault)
  | equal {env : Values} {left right yes no : Term} {n : Nat} {result : Except Fault Nat} :
      Evaluates mode functions env left (.ok n) →
      Evaluates mode functions env right (.ok n) →
      Evaluates mode functions env yes result →
      Evaluates mode functions env (.cond left right yes no) result
  | unequal {env : Values} {left right yes no : Term} {m n : Nat} {result : Except Fault Nat} :
      Evaluates mode functions env left (.ok m) →
      Evaluates mode functions env right (.ok n) → m ≠ n →
      Evaluates mode functions env no result →
      Evaluates mode functions env (.cond left right yes no) result
  | unknownZero {env : Values} {callee : String} {args : List Term} :
      mode = .lenient → functions.get? callee = none →
      Evaluates mode functions env (.call callee args) (.ok 0)
  | unknown {env : Values} {callee : String} {args : List Term} :
      mode = .strict → functions.get? callee = none →
      Evaluates mode functions env (.call callee args) (.error (.unknownFunction callee))
  | arity {env : Values} {callee : String} {args : List Term} {f : Lambda} :
      mode = .strict → functions.get? callee = some f → args.length ≠ f.params.length →
      Evaluates mode functions env (.call callee args)
        (.error (.arity (some callee) f.params.length args.length))
  | argFault {env : Values} {callee : String} {args : List Term} {f : Lambda} {fault : Fault} :
      functions.get? callee = some f → (mode = .strict → args.length = f.params.length) →
      EvaluatesAll mode functions env (args.take f.params.length) (.error fault) →
      Evaluates mode functions env (.call callee args) (.error fault)
  | call {env : Values} {callee : String} {args : List Term} {f : Lambda} {ns : List Nat}
      {result : Except Fault Nat} :
      functions.get? callee = some f → (mode = .strict → args.length = f.params.length) →
      EvaluatesAll mode functions env (args.take f.params.length) (.ok ns) →
      Evaluates mode functions (bindParams .empty f.params ns) f.body result →
      Evaluates mode functions env (.call callee args) result
  | equation {env : Values} {left right : Term} :
      Evaluates mode functions env (.equation left right)
        (.error (.notTerm (.equation left right)))
  | text {env : Values} {content : String} :
      Evaluates mode functions env (.text content) (.error (.notTerm (.text content)))

/-- The rules for arguments. The first fault ends the evaluation. -/
inductive EvaluatesAll (mode : Mode) (functions : Functions) :
    Values → List Term → Except Fault (List Nat) → Prop
  | nil {env : Values} : EvaluatesAll mode functions env [] (.ok [])
  | headFault {env : Values} {arg : Term} {args : List Term} {fault : Fault} :
      Evaluates mode functions env arg (.error fault) →
      EvaluatesAll mode functions env (arg :: args) (.error fault)
  | tailFault {env : Values} {arg : Term} {args : List Term} {n : Nat} {fault : Fault} :
      Evaluates mode functions env arg (.ok n) →
      EvaluatesAll mode functions env args (.error fault) →
      EvaluatesAll mode functions env (arg :: args) (.error fault)
  | cons {env : Values} {arg : Term} {args : List Term} {n : Nat} {ns : List Nat} :
      Evaluates mode functions env arg (.ok n) →
      EvaluatesAll mode functions env args (.ok ns) →
      EvaluatesAll mode functions env (arg :: args) (.ok (n :: ns))

end

theorem EvaluatesAll.length_eq {mode : Mode} {functions : Functions} {env : Values} {args : List Term}
    {ns : List Nat} (h : EvaluatesAll mode functions env args (.ok ns)) : args.length = ns.length := by
  induction args generalizing ns with
  | nil => cases h; rfl
  | cons arg args ih =>
    cases h with
    | cons _ ht => rw [List.length_cons, List.length_cons, ih ht]

theorem foldl_insert_pairArgs (values : Values) (params : List String) (ns : List Nat) :
    (Lambda.pairArgs params ns).foldl (fun t entry => t.insert entry.1 entry.2) values =
      bindParams values params ns := by
  induction params generalizing values ns with
  | nil => rfl
  | cons param params ih =>
    cases ns with
    | nil => exact ih (values.insert param 0) []
    | cons n ns => exact ih (values.insert param n) ns

/-- The values a body sees are the parameters, bound one after the other. -/
theorem Lambda.bind_eq (f : Lambda) (ns : List Nat) :
    f.bind ns = bindParams .empty f.params ns :=
  foldl_insert_pairArgs .empty f.params ns

end Unary
