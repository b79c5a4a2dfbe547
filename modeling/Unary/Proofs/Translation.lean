import Mathlib.Logic.Relation
import Mathlib.Tactic.Common
import Unary.Proofs.Lowering

/-!
Lowering with two stacks and the translation node for node.

A task takes finished terms off the stack and puts one term there, and what it leaves to do comes to one
term in its place. So no task finds too few terms, and in the end there is one, the term of the whole tree.
A tree with a node that is no expression has no term. The nodes are visited each before its parts and the
parts from left to right, and the first of these nodes is the one that is refused. The message shows the node, so
where the limit leaves no room to spell it out, the tree is refused as too deep.
-/

namespace Unary

namespace Expr

/-- Whether a node is one of the expressions of the grammar, whatever its parts are. -/
def isExpression : Expr → Bool
  | equation _ _ => false
  | text _ => false
  | _ => true

mutual

/-- The nodes of a tree, each before its parts and the parts from left to right. -/
def nodes : Expr → List Expr
  | zero => [zero]
  | succ arg => succ arg :: nodes arg
  | var name => [var name]
  | call callee args => call callee args :: nodesAll args
  | cond left right yes no =>
    cond left right yes no :: (nodes left ++ nodes right ++ nodes yes ++ nodes no)
  | equation left right => equation left right :: (nodes left ++ nodes right)
  | text content => [text content]

def nodesAll : List Expr → List Expr
  | [] => []
  | e :: es => nodes e ++ nodesAll es

end

/-- The first of some nodes that is no expression. -/
def firstMisfit? (nodes : List Expr) : Option Expr :=
  nodes.find? fun node => !node.isExpression

/-- The first node of a tree that is no expression. -/
def misfit? (e : Expr) : Option Expr :=
  firstMisfit? e.nodes

theorem firstMisfit?_append (as bs : List Expr) :
    firstMisfit? (as ++ bs) = (firstMisfit? as).or (firstMisfit? bs) :=
  List.find?_append

theorem firstMisfit?_nodesAll_cons (e : Expr) (es : List Expr) :
    firstMisfit? (nodesAll (e :: es)) = e.misfit?.or (firstMisfit? (nodesAll es)) := by
  rw [nodesAll, firstMisfit?_append, misfit?]

theorem misfit?_succ (arg : Expr) : (succ arg).misfit? = arg.misfit? := rfl

theorem misfit?_call (callee : String) (args : List Expr) :
    (call callee args).misfit? = firstMisfit? (nodesAll args) := rfl

/-- The parts of a conditional are looked at as the arguments of a call are. -/
theorem misfit?_cond (left right yes no : Expr) :
    (cond left right yes no).misfit? = firstMisfit? (nodesAll [left, right, yes, no]) := by
  have hparts : nodesAll [left, right, yes, no] =
      left.nodes ++ right.nodes ++ yes.nodes ++ no.nodes := by
    simp only [nodesAll, List.append_nil, List.append_assoc]
  rw [hparts]
  rfl

mutual

/-- A tree without such a node is a term all through. -/
theorem misfit?_eq_none_iff : ∀ e : Expr, e.misfit? = none ↔ e.toTerm.wellFormed = true
  | zero => by simp [misfit?, nodes, firstMisfit?, isExpression, toTerm, Term.wellFormed]
  | succ arg => by rw [misfit?_succ, toTerm, Term.wellFormed, misfit?_eq_none_iff arg]
  | var _ => by simp [misfit?, nodes, firstMisfit?, isExpression, toTerm, Term.wellFormed]
  | call _ args => by rw [misfit?_call, toTerm, Term.wellFormed, firstMisfit?_eq_none_iff args]
  | cond left right yes no => by
    have hnil : firstMisfit? (nodesAll []) = none := rfl
    simp only [misfit?_cond, firstMisfit?_nodesAll_cons, hnil, Option.or_eq_none_iff, and_true, toTerm,
      Term.wellFormed_cond_iff, misfit?_eq_none_iff left, misfit?_eq_none_iff right,
      misfit?_eq_none_iff yes, misfit?_eq_none_iff no]
  | equation _ _ => by simp [misfit?, nodes, firstMisfit?, isExpression, toTerm, Term.wellFormed]
  | text _ => by simp [misfit?, nodes, firstMisfit?, isExpression, toTerm, Term.wellFormed]

theorem firstMisfit?_eq_none_iff : ∀ es : List Expr,
    firstMisfit? (nodesAll es) = none ↔ Term.allWellFormed (toTerms es) = true
  | [] => by simp [nodesAll, firstMisfit?, toTerms, Term.allWellFormed]
  | e :: es => by
    rw [firstMisfit?_nodesAll_cons, Option.or_eq_none_iff, toTerms, Term.allWellFormed_cons_iff,
      misfit?_eq_none_iff e, firstMisfit?_eq_none_iff es]

end

end Expr

namespace Lowering

variable (limit : Option Nat)

/-- Lowering stops at the first node of a tree that is no expression, whatever else there is to do. -/
def Refuses (e : Expr) : Prop :=
  ∀ node, e.misfit? = some node →
    ∀ work done, run limit (.visit e :: work) done = .error (refusal limit node)

variable {limit} in
theorem run_visits_of_misfit {es : List Expr} (h : ∀ e ∈ es, Refuses limit e) {node : Expr}
    (hnode : Expr.firstMisfit? (Expr.nodesAll es) = some node) (work : List Task) (done : List Term) :
    run limit (es.map .visit ++ work) done = .error (refusal limit node) := by
  induction es generalizing done with
  | nil => cases hnode
  | cons e es ih =>
    obtain ⟨hfirst, hrest⟩ := List.forall_mem_cons.mp h
    rw [Expr.firstMisfit?_nodesAll_cons] at hnode
    rw [List.map_cons, List.cons_append]
    cases he : e.misfit? with
    | some found =>
      rw [he] at hnode
      obtain rfl : found = node := Option.some.inj hnode
      exact hfirst found he _ done
    | none =>
      rw [he] at hnode
      rw [run_visit limit e (e.misfit?_eq_none_iff.mp he)]
      exact ih hrest hnode (e.toTerm :: done)

mutual

theorem refuses : ∀ e : Expr, Refuses limit e
  | .zero => by
    intro node h
    cases h
  | .succ arg => by
    intro node h work done
    rw [run]
    exact refuses arg node h _ done
  | .var _ => by
    intro node h
    cases h
  | .call _ args => by
    intro node h work done
    rw [run]
    exact run_visits_of_misfit (refusesAll args) h _ done
  | .cond left right yes no => by
    intro node h work done
    rw [Expr.misfit?_cond] at h
    have hparts : ∀ e ∈ [left, right, yes, no], Refuses limit e := by
      simp only [List.forall_mem_cons, List.not_mem_nil, false_imp_iff, implies_true, and_true]
      exact ⟨refuses left, refuses right, refuses yes, refuses no⟩
    rw [run]
    exact run_visits_of_misfit hparts h (.cond :: work) done
  | .equation _ _ => by
    intro node h work done
    cases h
    rw [run]
  | .text _ => by
    intro node h work done
    cases h
    rw [run]

theorem refusesAll : ∀ es : List Expr, ∀ e ∈ es, Refuses limit e
  | [] => by simp
  | e :: es => List.forall_mem_cons.mpr ⟨refuses e, refusesAll es⟩

end

/-- The tasks still to do and the terms of the finished parts. -/
structure Config where
  work : List Task
  done : List Term

/-- The outcome of one task: what to go on with, or how lowering ends. -/
inductive Move
  | next (config : Config)
  | stop (result : Except Error Term)

/-- Do one task. -/
def step : Config → Move
  | ⟨[], t :: _⟩ => .stop (.ok t)
  | ⟨[], []⟩ => .stop (.error .underflow)
  | ⟨.visit .zero :: work, done⟩ => .next ⟨work, .zero :: done⟩
  | ⟨.visit (.var x) :: work, done⟩ => .next ⟨work, .var x :: done⟩
  | ⟨.visit (.succ a) :: work, done⟩ => .next ⟨.visit a :: .succ :: work, done⟩
  | ⟨.visit (.call f as) :: work, done⟩ => .next ⟨as.map .visit ++ .call f as.length :: work, done⟩
  | ⟨.visit (.cond a b c d) :: work, done⟩ =>
    .next ⟨[a, b, c, d].map .visit ++ .cond :: work, done⟩
  | ⟨.visit (.equation a b) :: _, _⟩ => .stop (.error (refusal limit (.equation a b)))
  | ⟨.visit (.text s) :: _, _⟩ => .stop (.error (refusal limit (.text s)))
  | ⟨.succ :: work, t :: done⟩ => .next ⟨work, .succ t :: done⟩
  | ⟨.succ :: _, []⟩ => .stop (.error .underflow)
  | ⟨.call f count :: work, done⟩ =>
    if (done.take count).length = count then
      .next ⟨work, .call f (done.take count).reverse :: done.drop count⟩
    else .stop (.error .underflow)
  | ⟨.cond :: work, d :: c :: b :: a :: done⟩ => .next ⟨work, .cond a b c d :: done⟩
  | ⟨.cond :: _, _⟩ => .stop (.error .underflow)

/-- Some tasks lead from one configuration to the other. -/
def Reaches : Config → Config → Prop :=
  Relation.ReflTransGen fun c c' => step limit c = .next c'

variable {limit}

/-- What is left to do after a task has the same outcome. -/
theorem run_eq_step (limit : Option Nat) (c : Config) : run limit c.work c.done =
    match step limit c with
    | .next c' => run limit c'.work c'.done
    | .stop result => result := by
  fun_cases step limit c
  all_goals simp only [run, List.map_cons, List.map_nil, List.cons_append, List.nil_append]
  · next hlen => rw [if_pos hlen]
  · next hlen => rw [if_neg hlen]

theorem run_of_reaches {c c' : Config} (h : Reaches limit c c') :
    run limit c.work c.done = run limit c'.work c'.done := by
  induction h with
  | refl => rfl
  | @tail c₁ c₂ _ hs ih =>
    have hstep := run_eq_step limit c₁
    rw [hs] at hstep
    exact ih.trans hstep

/-- The number of terms that a task takes off the stack. -/
def Task.takes : Task → Nat
  | .visit _ => 0
  | .succ => 1
  | .call _ count => count
  | .cond => 4

/-- What a task does: it puts one term in the place of those it takes, or it leaves trees to visit and a task
that takes their terms. -/
theorem next_cases {task : Task} {work : List Task} {done : List Term} {c : Config}
    (h : step limit ⟨task :: work, done⟩ = .next c) :
    (∃ taken below t, taken.length = task.takes ∧ done = taken ++ below ∧ c = ⟨work, t :: below⟩) ∨
      ∃ (es : List Expr) (last : Task), task.takes = 0 ∧ last.takes = es.length ∧
        weight (es.map .visit ++ [last]) < task.weight ∧
        c = ⟨es.map .visit ++ last :: work, done⟩ := by
  cases task with
  | visit e =>
    cases e with
    | zero =>
      cases h
      exact .inl ⟨[], done, .zero, rfl, rfl, rfl⟩
    | var x =>
      cases h
      exact .inl ⟨[], done, .var x, rfl, rfl, rfl⟩
    | succ a =>
      cases h
      refine .inr ⟨[a], .succ, rfl, rfl, ?_, rfl⟩
      simp only [weight_append, weight_map_visit, Expr.sizeAll, weight, Task.weight, Expr.size]
      omega
    | call f as =>
      cases h
      refine .inr ⟨as, .call f as.length, rfl, rfl, ?_, rfl⟩
      simp only [weight_append, weight_map_visit, weight, Task.weight, Expr.size]
      omega
    | cond a b c d =>
      cases h
      refine .inr ⟨[a, b, c, d], .cond, rfl, rfl, ?_, rfl⟩
      simp only [weight_append, weight_map_visit, Expr.sizeAll, weight, Task.weight, Expr.size]
      omega
    | equation a b => cases h
    | text s => cases h
  | succ =>
    obtain - | ⟨t, done⟩ := done
    · cases h
    cases h
    exact .inl ⟨[t], done, .succ t, rfl, rfl, rfl⟩
  | call f count =>
    by_cases hlen : (done.take count).length = count
    · simp only [step, if_pos hlen, Move.next.injEq] at h
      have hdone : done = done.take count ++ done.drop count := (List.take_append_drop count done).symm
      exact .inl ⟨done.take count, done.drop count, .call f (done.take count).reverse, hlen, hdone, h.symm⟩
    · simp only [step, if_neg hlen] at h
      cases h
  | cond =>
    obtain - | ⟨d, - | ⟨c, - | ⟨b, - | ⟨a, done⟩⟩⟩⟩ := done
    · cases h
    · cases h
    · cases h
    · cases h
    cases h
    exact .inl ⟨[d, c, b, a], done, .cond a b c d, rfl, rfl, rfl⟩

theorem weight_next_lt {c c' : Config} (h : step limit c = .next c') : weight c'.work < weight c.work := by
  obtain ⟨work, done⟩ := c
  obtain - | ⟨task, work⟩ := work
  · cases done <;> cases h
  have hpos : 0 < task.weight := by
    cases task with
    | visit e =>
      have he := e.size_pos
      simp only [Task.weight]
      omega
    | _ => exact Nat.one_pos
  rcases next_cases h with ⟨taken, below, t, -, -, rfl⟩ | ⟨es, last, -, -, hlt, rfl⟩
  · simp only [weight]
    omega
  · simp only [weight_append, weight] at hlt ⊢
    omega

/-- Lowering comes to a task where it stops, and what it stops with is its outcome. -/
theorem exists_stop (limit : Option Nat) (c : Config) :
    ∃ last, Reaches limit c last ∧ step limit last = .stop (run limit c.work c.done) := by
  induction hk : weight c.work using Nat.strongRecOn generalizing c with
  | ind k ih =>
    have hrun := run_eq_step limit c
    cases hs : step limit c with
    | stop result =>
      rw [hs] at hrun
      exact ⟨c, .refl, by rw [hs, hrun]⟩
    | next c' =>
      rw [hs] at hrun
      have hlt : weight c'.work < k := hk ▸ weight_next_lt hs
      obtain ⟨last, hlast, hstop⟩ := ih _ hlt c' rfl
      refine ⟨last, .head hs hlast, ?_⟩
      rw [hrun, hstop]

theorem work_eq_nil_of_stop {c : Config} {t : Term} (h : step limit c = .stop (.ok t)) : c.work = [] := by
  revert h
  fun_cases step limit c
  all_goals simp

/-- Whether every task finds the terms it takes on a stack of a height, each task having left one term in the
place of those it took, and one term is left in the end. -/
def Balanced : List Task → Nat → Prop
  | [], height => height = 1
  | task :: work, height => task.takes ≤ height ∧ Balanced work (height - task.takes + 1)

theorem balanced_visits (es : List Expr) {work : List Task} {height : Nat}
    (h : Balanced work (height + es.length)) : Balanced (es.map .visit ++ work) height := by
  induction es generalizing height with
  | nil => exact h
  | cons e es ih =>
    have hheight : height + (e :: es).length = height + 1 + es.length := by
      rw [List.length_cons]
      omega
    rw [hheight] at h
    exact ⟨Nat.zero_le height, ih h⟩

theorem Balanced.next {c c' : Config} (h : Balanced c.work c.done.length) (hs : step limit c = .next c') :
    Balanced c'.work c'.done.length := by
  obtain ⟨work, done⟩ := c
  obtain - | ⟨task, work⟩ := work
  · cases done <;> cases hs
  obtain ⟨hle, hrest⟩ := h
  rcases next_cases hs with ⟨taken, below, t, htaken, rfl, rfl⟩ | ⟨es, last, htask, hlast, -, rfl⟩
  · have hheight : (taken ++ below).length - task.takes + 1 = below.length + 1 := by
      rw [List.length_append, htaken]
      omega
    rw [hheight] at hrest
    exact hrest
  · refine balanced_visits es ⟨by omega, ?_⟩
    have hheight : done.length + es.length - last.takes + 1 = done.length - task.takes + 1 := by omega
    rw [hheight]
    exact hrest

theorem balanced_of_reaches {e : Expr} {c : Config} (h : Reaches limit ⟨[.visit e], []⟩ c) :
    Balanced c.work c.done.length := by
  induction h with
  | refl => exact ⟨Nat.le_refl 0, rfl⟩
  | tail _ hs ih => exact ih.next hs

end Lowering

namespace Expr

variable {limit : Option Nat}

theorem lower_of_misfit {e node : Expr} (h : e.misfit? = some node) :
    e.lower limit = .error (Lowering.refusal (remaining limit 1) node) :=
  Lowering.refuses _ e node h [] []

theorem lower_of_no_misfit {e : Expr} (h : e.misfit? = none) : e.lower limit = .ok e.toTerm :=
  e.lower_eq limit (e.misfit?_eq_none_iff.mp h)

/-- When nothing is left to do, there is one term, and the tree it is made of is an expression all through. -/
theorem done_of_reaches {e : Expr} {done : List Term}
    (h : Lowering.Reaches (remaining limit 1) ⟨[.visit e], []⟩ ⟨[], done⟩) :
    e.misfit? = none ∧ done = [e.toTerm] := by
  have hb := Lowering.balanced_of_reaches h
  obtain ⟨t, rfl⟩ : ∃ t, done = [t] := List.length_eq_one_iff.mp hb
  have hrun : e.lower limit = .ok t := by
    rw [lower, Lowering.run_of_reaches h, Lowering.run]
  cases hm : e.misfit? with
  | some node =>
    rw [lower_of_misfit hm] at hrun
    cases hrun
  | none =>
    rw [lower_of_no_misfit hm] at hrun
    cases hrun
    exact ⟨rfl, rfl⟩

theorem reaches_of_no_misfit (limit : Option Nat) {e : Expr} (h : e.misfit? = none) :
    Lowering.Reaches (remaining limit 1) ⟨[.visit e], []⟩ ⟨[], [e.toTerm]⟩ := by
  obtain ⟨⟨work, done⟩, hr, hstop⟩ := Lowering.exists_stop (remaining limit 1) ⟨[.visit e], []⟩
  have hlower : Lowering.run (remaining limit 1) [.visit e] [] = .ok e.toTerm := lower_of_no_misfit h
  rw [hlower] at hstop
  obtain rfl : work = [] := Lowering.work_eq_nil_of_stop hstop
  obtain ⟨-, rfl⟩ := done_of_reaches hr
  exact hr

/-- A walk is deeper by its step for each of some successors. -/
theorem depthFrom_addSucc (walk : Descent) (n : Nat) (e : Expr) (depth : Nat) :
    (addSucc n e).depthFrom walk depth = e.depthFrom walk (depth + n * walk.succ) := by
  induction n generalizing e with
  | zero => rw [addSucc, Nat.zero_mul, Nat.add_zero]
  | succ n ih => rw [addSucc, ih, depthFrom, Nat.add_one_mul, Nat.add_assoc]

/-- Lowering with two stacks is the translation node for node. A tree that is an expression all through comes
to its term, which no other such tree comes to. A tree that is not is refused at the first node that is no
expression: with a message that shows this node if the limit leaves room to spell it out, and as too deep if it
does not. On the way no task finds too few finished terms, and when nothing is left to do there is the term of the
tree and nothing else. -/
theorem lower_exact (limit : Option Nat) (e : Expr) :
    let inside := remaining limit 1
    (e.misfit? = none →
      e.lower limit = .ok e.toTerm ∧ Lowering.Reaches inside ⟨[.visit e], []⟩ ⟨[], [e.toTerm]⟩) ∧
    (∀ node, e.misfit? = some node →
      (node.fits .spelling inside = true → e.lower limit = .error (.notExpr node) ∧
        ∃ failure, Program.lowerExpr limit e = .error failure ∧
          failure.message = "Cannot lower " ++ node.spell) ∧
      (node.fits .spelling inside = false → e.lower limit = .error .tooDeep ∧
        Program.lowerExpr limit e = .error .tooDeep)) ∧
    (∀ c, Lowering.Reaches inside ⟨[.visit e], []⟩ c →
      (∀ task work, c.work = task :: work → task.takes ≤ c.done.length) ∧
      (c.work = [] → e.misfit? = none ∧ c.done = [e.toTerm])) ∧
    ∀ e' : Expr, e.misfit? = none → e'.misfit? = none → e.lower limit = e'.lower limit → e = e' := by
  intro inside
  refine ⟨fun h => ⟨lower_of_no_misfit h, reaches_of_no_misfit limit h⟩, ?_, ?_, ?_⟩
  · intro node h
    have hlower : e.lower limit = .error (Lowering.refusal inside node) := lower_of_misfit h
    rw [Program.lowerExpr, hlower, Lowering.refusal]
    refine ⟨fun hfits => ?_, fun hdeep => ?_⟩
    · rw [if_pos hfits]
      exact ⟨rfl, .notExpr node, rfl, rfl⟩
    · rw [if_neg (by simp [hdeep])]
      exact ⟨rfl, rfl⟩
  · rintro ⟨work, done⟩ hr
    constructor
    · intro task rest hwork
      have hb := Lowering.balanced_of_reaches hr
      rw [hwork] at hb
      exact hb.1
    · intro hwork
      have hempty : work = [] := hwork
      rw [hempty] at hr
      exact done_of_reaches hr
  · intro e' h h' hsame
    rw [lower_of_no_misfit h, lower_of_no_misfit h'] at hsame
    have hterm : e.toTerm = e'.toTerm := Except.ok.inj hsame
    rw [← toExpr_toTerm e, hterm, toExpr_toTerm]

/-- A call without arguments before a conditional with two nodes that are no expressions: the first of them is
refused, as too deep if there is no room for its name. With an expression in the place of each there is a term. -/
theorem lower_exact_two_misfits :
    let tree (right yes : Expr) : Expr := .call "f" [.call "g" [], .cond .zero (.succ right) yes (.var "x")]
    let misfits := tree (.equation .zero (.var "one")) (.text "two")
    let fits := tree (.var "y") .zero
    misfits.misfit? = some (.equation .zero (.var "one")) ∧
      misfits.lower (some 8) = .error (.notExpr (.equation .zero (.var "one"))) ∧
      misfits.lower (some 7) = .error .tooDeep ∧
      fits.misfit? = none ∧ fits.lower (some 1) = .ok fits.toTerm ∧
      Lowering.Reaches (some 0) ⟨[.visit fits], []⟩ ⟨[], [fits.toTerm]⟩ := by
  intro tree misfits fits
  have hmisfit : misfits.misfit? = some (.equation .zero (.var "one")) := rfl
  have hfits : fits.misfit? = none := rfl
  exact ⟨hmisfit, (((lower_exact (some 8) misfits).2.1 _ hmisfit).1 (by decide)).1,
    (((lower_exact (some 7) misfits).2.1 _ hmisfit).2 (by decide)).1, hfits,
    (lower_exact (some 1) fits).1 hfits⟩

/-- An equation that stands by itself, with a numeral in it that is too long to be shown: the message about this
node is never made. -/
theorem lower_deep_misfit :
    let node : Expr := .equation (numeral 500) .zero
    node.misfit? = some node ∧ node.lower (some 1000) ≠ .error (.notExpr node) ∧
      Program.lowerExpr (some 1000) node = .error .tooDeep := by
  intro node
  have hmisfit : node.misfit? = some node := rfl
  have hdepth : node.depthFrom .spelling 0 = max 1506 6 := by
    rw [depthFrom, numeral, depthFrom_addSucc]
    rfl
  have hlower : node.lower (some 1000) = .error .tooDeep := by
    rw [lower_of_misfit hmisfit, Lowering.refusal, fits, hdepth]
    rfl
  refine ⟨hmisfit, ?_, ?_⟩
  · rw [hlower]
    simp
  · rw [Program.lowerExpr, hlower]
    rfl

end Expr

end Unary
