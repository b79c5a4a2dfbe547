import Unary.Program
import Unary.Proofs.Parsing

/-!
How deep a script nests, and that a limit on depth asks for nothing else.

`Expr.nestingFrom` is the greatest depth at which an expression is read. An argument and each place of a
conditional lie two deeper than what they are in, and a run of successors lies one deeper however long it is.
A text that is read without a limit is read under a limit as well, unless its script nests deeper than that.
-/

namespace Unary

namespace Expr

mutual

/-- The greatest depth at which a tree is read that begins at a depth, inside a run of successors or not. -/
def nestingFrom (depth : Nat) (inRun : Bool) : Expr → Nat
  | zero => depth
  | succ a => nestingFrom (if inRun then depth else depth + 1) true a
  | var _ => depth
  | call _ as => max depth (nestingAll (depth + 2) as)
  | cond a b c d =>
    max (max (nestingFrom (depth + 2) false a) (nestingFrom (depth + 2) false b))
      (max (nestingFrom (depth + 2) false c) (nestingFrom (depth + 2) false d))
  | equation _ _ => depth
  | text _ => depth

def nestingAll (depth : Nat) : List Expr → Nat
  | [] => 0
  | a :: as => max (nestingFrom depth false a) (nestingAll depth as)

end

theorem le_nestingFrom : ∀ (e : Expr) (depth : Nat) (inRun : Bool), depth ≤ e.nestingFrom depth inRun
  | zero, _, _ | var _, _, _ | equation _ _, _, _ | text _, _, _ => by simp [nestingFrom]
  | succ a, depth, inRun => by
    have ha := le_nestingFrom a (if inRun then depth else depth + 1) true
    rw [nestingFrom]
    cases inRun <;> simp only [if_true, Bool.false_eq_true, if_false] at ha ⊢ <;> omega
  | call _ as, depth, _ => Nat.le_max_left _ _
  | cond a b c d, depth, _ => by
    have ha := le_nestingFrom a (depth + 2) false
    rw [nestingFrom]
    omega

theorem nestingAll_append (depth : Nat) (as bs : List Expr) :
    nestingAll depth (as ++ bs) = max (nestingAll depth as) (nestingAll depth bs) := by
  induction as with
  | nil => simp [nestingAll]
  | cons a as ih => rw [List.cons_append, nestingAll, nestingAll, ih, Nat.max_assoc]

theorem nestingFrom_le_nestingAll {a : Expr} {as : List Expr} (h : a ∈ as) (depth : Nat) :
    a.nestingFrom depth false ≤ nestingAll depth as := by
  induction as with
  | nil => cases h
  | cons first rest ih =>
    rw [nestingAll]
    rcases List.mem_cons.mp h with rfl | h
    · exact Nat.le_max_left _ _
    · exact Nat.le_trans (ih h) (Nat.le_max_right _ _)

/-- A numeral nests no deeper than a run of successors, however large its number is. -/
theorem nestingFrom_addSucc_le (n : Nat) {e : Expr}
    (he : ∀ depth inRun, e.nestingFrom depth inRun ≤ if inRun then depth else depth + 1)
    (depth : Nat) (inRun : Bool) :
    (addSucc n e).nestingFrom depth inRun ≤ if inRun then depth else depth + 1 := by
  induction n generalizing e with
  | zero => exact he depth inRun
  | succ n ih =>
    refine ih fun depth inRun => ?_
    exact he (if inRun then depth else depth + 1) true

theorem nestingFrom_numeral_le (n depth : Nat) : (numeral n).nestingFrom depth false ≤ depth + 1 := by
  refine nestingFrom_addSucc_le n (fun depth inRun => ?_) depth false
  rw [nestingFrom]
  split <;> omega

theorem nestingAll_numerals_le (ns : List Nat) (depth : Nat) :
    nestingAll depth (ns.map numeral) ≤ depth + 1 := by
  induction ns with
  | nil => exact Nat.zero_le _
  | cons n ns ih =>
    rw [List.map_cons, nestingAll]
    exact Nat.max_le.mpr ⟨nestingFrom_numeral_le n depth, ih⟩

end Expr

/-- How deep the expressions of a script nest. -/
def Script.nesting (s : Script) : Nat :=
  Expr.nestingAll 0 (s.definitions.map Definition.body ++ s.result.toList)

namespace Reading

/-- Go on, unless a depth is beyond the limit. -/
def upTo (limit : Option Nat) (depth : Nat) (next : Except Stop Reading) : Except Stop Reading :=
  if exceeds limit depth then .error .tooDeep else next

variable {limit : Option Nat} {defs : List Definition} {target : Target} {depth : Nat} {slots : List Slot}

theorem upTo_upTo (limit : Option Nat) (m n : Nat) (next : Except Stop Reading) :
    upTo limit m (upTo limit n next) = upTo limit (max m n) next := by
  cases limit with
  | none => rfl
  | some k =>
    simp only [upTo, exceeds_some, decide_eq_true_eq]
    by_cases hm : k < m
    · rw [if_pos hm, if_pos (by omega)]
    · rw [if_neg hm]
      exact if_congr (by omega) rfl rfl

@[simp]
theorem upTo_zero (limit : Option Nat) (next : Except Stop Reading) : upTo limit 0 next = next := by
  cases limit <;> rfl

theorem acceptAll_cons {r r' : Reading} {l : Lexeme} (h : r.accept l = some r') (ls : List Lexeme) :
    acceptAll limit r (l :: ls) = upTo limit r'.depth (acceptAll limit r' ls) := by
  rw [acceptAll, h]
  rfl

theorem depth_inside (defs : List Definition) (target : Target) (depth : Nat) (slots : List Slot)
    (want : Want) : (inside defs target depth slots want).depth = depth := rfl

/-- Filling a place leads no deeper. -/
theorem depth_fill_le (defs : List Definition) (target : Target) (depth : Nat) (e : Expr)
    (slots : List Slot) : (fill defs target depth e slots).depth ≤ depth := by
  induction slots generalizing depth e with
  | nil => cases target <;> simp [fill, close, Reading.depth]
  | cons slot slots ih =>
    cases slot with
    | no a b c => exact Nat.le_trans (ih (depth - 2) _) (Nat.sub_le depth 2)
    | _ => simp [fill, Reading.depth]

theorem accept_only {want : Want} {token : Token} {r : Reading}
    (h : only defs target depth slots want = some (token, r)) {l : Lexeme} (hl : l.token = token) :
    (inside defs target depth slots want).accept l = some r := by
  cases want <;> simp only [only, Option.some.injEq, Prod.mk.injEq, reduceCtorEq] at h <;>
    obtain ⟨rfl, rfl⟩ := h <;> simp [accept, acceptInside, hl]

theorem accept_start {l : Lexeme} {r : Reading} (h : start l defs target depth slots = some r) :
    (inside defs target depth slots .expression).accept l = some r := h

/-- Whether the innermost place is inside a run of successors. -/
def inRun : List Slot → Bool
  | .succ _ :: _ => true
  | _ => false

/-- Taking an expression in the innermost place: the limit is met within it, or the place is filled. -/
def Takes (limit : Option Nat) (defs : List Definition) (target : Target) (depth : Nat)
    (slots : List Slot) (e : Expr) (front back : List Lexeme) : Prop :=
  upTo limit depth (acceptAll limit (inside defs target depth slots .expression) (front ++ back)) =
    upTo limit (e.nestingFrom depth (inRun slots)) (acceptAll limit (fill defs target depth e slots) back)

theorem takes_leaf {l : Lexeme} {e : Expr} (h : start l defs target depth slots =
    some (fill defs target depth e slots)) (he : e.nestingFrom depth (inRun slots) = depth)
    (back : List Lexeme) : Takes limit defs target depth slots e [l] back := by
  have hle := depth_fill_le defs target depth e slots
  rw [Takes, List.singleton_append, acceptAll_cons (accept_start h), upTo_upTo, he, Nat.max_eq_left hle]

variable (defs target depth slots) in
/-- A successor is read in a place of its own. It lies deeper if no run of successors is open there, and
otherwise the run gets longer. -/
theorem exists_place_succ : ∃ depth' slots', depth ≤ depth' ∧
    (∀ p, p.token = .lparen → (inside defs target depth slots .succOpen).accept p =
      some (inside defs target depth' slots' .expression)) ∧
    (∀ e q, q.token = .rparen → (fill defs target depth' e slots').accept q =
      some (fill defs target depth (.succ e) slots)) ∧
    ∀ e, (Expr.succ e).nestingFrom depth (inRun slots) = e.nestingFrom depth' (inRun slots') := by
  by_cases h : ∃ count rest, slots = .succ count :: rest
  · obtain ⟨count, rest, rfl⟩ := h
    refine ⟨depth, .succ (count + 1) :: rest, Nat.le_refl depth, fun p hp => ?_, fun e q hq => ?_,
      fun e => rfl⟩
    · simp [accept, acceptInside, hp]
    · simp [fill, accept, acceptInside, hq]
  · have hrun : inRun slots = false := by
      cases slots with
      | nil => rfl
      | cons slot rest =>
        cases slot with
        | succ count => exact absurd ⟨count, rest, rfl⟩ h
        | _ => rfl
    refine ⟨depth + 1, .succ 0 :: slots, Nat.le_succ depth, fun p hp => ?_, fun e q hq => ?_,
      fun e => by rw [hrun]; rfl⟩
    · rw [accept_succOpen (fun count rest hs => h ⟨count, rest, hs⟩), if_pos hp]
      rfl
    · simp [fill, accept, acceptInside, hq]

theorem takes_succ {l p q : Lexeme} {inner back : List Lexeme} {e : Expr} (hl : l.token = .succ)
    (hp : p.token = .lparen) (hq : q.token = .rparen)
    (hi : ∀ depth slots, Takes limit defs target depth slots e inner (q :: back)) :
    Takes limit defs target depth slots (.succ e) (l :: p :: (inner ++ [q])) back := by
  obtain ⟨depth', slots', hle, hopen, hclose, hnesting⟩ := exists_place_succ defs target depth slots
  have hstart : start l defs target depth slots = some (inside defs target depth slots .succOpen) := by
    simp [start, hl]
  have hlist : l :: p :: (inner ++ [q]) ++ back = l :: p :: (inner ++ q :: back) := by simp
  have hinner := hi depth' slots'
  have hdepth := e.le_nestingFrom depth' (inRun slots')
  have hfill := depth_fill_le defs target depth (.succ e) slots
  rw [Takes] at hinner ⊢
  rw [hlist, acceptAll_cons (accept_start hstart), acceptAll_cons (hopen p hp)]
  rw [depth_inside, depth_inside, hinner, acceptAll_cons (hclose e q hq), hnesting]
  simp only [upTo_upTo]
  congr 1
  omega

/-- One token and then an expression in a new place that begins no run of successors. -/
theorem acceptAll_push {r : Reading} {l : Lexeme} {slot : Slot} {e : Expr} {front back : List Lexeme}
    (ha : r.accept l = some (push defs target depth slots slot)) (hslot : slot.weight = 2)
    (he : Takes limit defs target (depth + 2) (slot :: slots) e front back) :
    acceptAll limit r (l :: (front ++ back)) = upTo limit (e.nestingFrom (depth + 2) false)
      (acceptAll limit (fill defs target (depth + 2) e (slot :: slots)) back) := by
  have hrun : inRun (slot :: slots) = false := by
    cases slot with
    | succ count => cases hslot
    | _ => rfl
  rw [Takes, hrun] at he
  rw [acceptAll_cons ha, push, hslot]
  exact he

theorem takes_cond {i p q r comma close close' yes no : Lexeme} {as bs cs ds back : List Lexeme}
    {a b c d : Expr} (hi : i.token = .cond) (hp : p.token = .lparen) (hq : q.token = .equate)
    (hr : r.token = .lparen) (hcomma : comma.token = .comma) (hclose : close.token = .rparen)
    (hclose' : close'.token = .rparen) (hyes : yes.token = .yes) (hno : no.token = .no)
    (ha : Takes limit defs target (depth + 2) (.left :: slots) a as
      (comma :: (bs ++ close :: close' :: yes :: (cs ++ no :: (ds ++ back)))))
    (hb : Takes limit defs target (depth + 2) (.right a :: slots) b bs
      (close :: close' :: yes :: (cs ++ no :: (ds ++ back))))
    (hc : Takes limit defs target (depth + 2) (.yes a b :: slots) c cs (no :: (ds ++ back)))
    (hd : Takes limit defs target (depth + 2) (.no a b c :: slots) d ds back) :
    Takes limit defs target depth slots (.cond a b c d)
      (i :: p :: q :: r :: (as ++ comma :: (bs ++ close :: close' :: yes :: (cs ++ no :: ds)))) back := by
  have hlist : i :: p :: q :: r :: (as ++ comma :: (bs ++ close :: close' :: yes :: (cs ++ no :: ds))) ++
      back = i :: p :: q :: r :: (as ++ comma :: (bs ++ close :: close' :: yes ::
        (cs ++ no :: (ds ++ back)))) := by simp
  have hleft : fill defs target (depth + 2) a (.left :: slots) =
      inside defs target depth slots (.operandEnd a) := rfl
  have hright : fill defs target (depth + 2) b (.right a :: slots) =
      inside defs target depth slots (.equateClose a b) := rfl
  have hthen : fill defs target (depth + 2) c (.yes a b :: slots) =
      inside defs target depth slots (.no a b c) := rfl
  have helse : fill defs target (depth + 2) d (.no a b c :: slots) =
      fill defs target depth (.cond a b c d) slots := rfl
  rw [Takes, hlist, acceptAll_cons (accept_start (start_cond hi)),
    acceptAll_cons (accept_only rfl hp), acceptAll_cons (accept_only rfl hq),
    acceptAll_push (accept_only rfl hr) rfl ha, hleft,
    acceptAll_push (accept_only rfl hcomma) rfl hb, hright,
    acceptAll_cons (accept_only rfl hclose), acceptAll_cons (accept_only rfl hclose'),
    acceptAll_push (accept_only rfl hyes) rfl hc, hthen,
    acceptAll_push (accept_only rfl hno) rfl hd, helse]
  have hle := a.le_nestingFrom (depth + 2) false
  simp only [depth_inside, upTo_upTo, Expr.nestingFrom]
  congr 1
  omega

mutual

/-- Every expression of the grammar is taken as far as the limit allows. What comes after it opens no
parenthesis, which would make a call of a name at its end. -/
theorem takes_expression {front : List Lexeme} {e : Expr} (he : Grammar.Expression front e)
    {back : List Lexeme} (hl : Linked (front ++ back)) (hback : ∀ l ∈ back.head?, l.token ≠ .lparen)
    (limit : Option Nat) (defs : List Definition) (target : Target) (depth : Nat) (slots : List Slot) :
    Takes limit defs target depth slots e front back := by
  match he with
  | .zero ht => exact takes_leaf (by simp [start, ht]) rfl back
  | .succ ht hp hi hq =>
    simp only [List.cons_append, List.append_assoc, List.nil_append] at hl
    refine takes_succ ht hp hq fun depth' slots' => ?_
    exact takes_expression hi hl.2.2 (by simp [hq]) limit defs target depth' slots'
  | .cond hi hp hq hr ha hc hb hcl hcl' hy hcs hno hd =>
    simp only [List.cons_append, List.append_assoc] at hl
    have la := hl.2.2.2.2
    have lb := la.right.2
    have lc := lb.right.2.2.2
    refine takes_cond hi hp hq hr hc hcl hcl' hy hno ?_ ?_ ?_ ?_
    · exact takes_expression ha la (by simp [hc]) limit defs target _ _
    · exact takes_expression hb lb (by simp [hcl]) limit defs target _ _
    · exact takes_expression hcs lc (by simp [hno]) limit defs target _ _
    · exact takes_expression hd lc.right.2 hback limit defs target _ _
  | @Grammar.Expression.var l name ht =>
    have ho : l.opens = false := by
      rw [← Bool.not_eq_true]
      intro ho
      obtain ⟨p, hp, hparen, -⟩ := hl.1.mp ho
      exact hback p hp hparen
    exact takes_leaf (by simp [start, ht, ho]) rfl back
  | @Grammar.Expression.call l p q name inner args ht hp hs ha hq =>
    simp only [List.cons_append, List.append_assoc, List.nil_append] at hl
    have ho := hl.1.mpr ⟨_, rfl, hp, hs⟩
    have hopen : (inside defs target depth slots (.callOpen name)).accept p =
        some (push defs target depth slots (.arg name [])) := accept_only rfl hp
    have hargs := acceptAll_arguments ha hq hl.2.2 limit hopen
    have hfill := depth_fill_le defs target depth (.call name args) slots
    rw [Takes, List.cons_append, List.cons_append, List.append_assoc, List.singleton_append,
      acceptAll_cons (accept_start (start_call ht ho)), hargs]
    simp only [depth_inside, upTo_upTo, Expr.nestingFrom, List.reverse_nil, List.nil_append]
    congr 1
    omega

/-- All arguments of a call are taken after those already taken. -/
theorem acceptAll_arguments {front : List Lexeme} {es : List Expr} (he : Grammar.Arguments front es)
    {q : Lexeme} (hq : q.token = .rparen) {back : List Lexeme} (hl : Linked (front ++ q :: back))
    (limit : Option Nat) {defs : List Definition} {target : Target} {depth : Nat} {slots : List Slot}
    {r : Reading} {l : Lexeme} {callee : String} {done : List Expr}
    (ha : r.accept l = some (push defs target depth slots (.arg callee done))) :
    let call := fill defs target depth (.call callee (done.reverse ++ es)) slots
    acceptAll limit r (l :: (front ++ q :: back)) =
      upTo limit (max (Expr.nestingAll (depth + 2) es) call.depth) (acceptAll limit call back) := by
  match he with
  | @Grammar.Arguments.one ls e hfirst =>
    have hclose : (fill defs target (depth + 2) e (.arg callee done :: slots)).accept q =
        some (fill defs target depth (.call callee (done.reverse ++ [e])) slots) := by
      simp [fill, accept, acceptInside, hq]
    have htakes := takes_expression hfirst hl (by simp [hq]) limit defs target (depth + 2)
      (.arg callee done :: slots)
    rw [acceptAll_push ha rfl htakes, acceptAll_cons hclose, upTo_upTo]
    simp only [Expr.nestingAll, Nat.max_zero]
  | @Grammar.Arguments.more ls rest comma e es hfirst hcomma hrest =>
    simp only [List.append_assoc, List.cons_append] at hl ⊢
    have hnext : (fill defs target (depth + 2) e (.arg callee done :: slots)).accept comma =
        some (push defs target depth slots (.arg callee (e :: done))) := by
      simp [fill, accept, acceptInside, hcomma]
    have htakes := takes_expression hfirst hl (by simp [hcomma]) limit defs target (depth + 2)
      (.arg callee done :: slots)
    have hothers := acceptAll_arguments hrest hq hl.right.2 limit hnext
    rw [acceptAll_push ha rfl htakes, hothers]
    simp only [upTo_upTo, Expr.nestingAll, List.reverse_cons, List.append_assoc, List.singleton_append,
      Nat.max_assoc]

end

theorem acceptAll_parameters {front : List Lexeme} {names : List String}
    (hp : Grammar.Parameters front names) {q : Lexeme} (hq : q.token = .rparen) (back : List Lexeme)
    (limit : Option Nat) (defs : List Definition) (name : String) (params : List String) :
    acceptAll limit (parameter defs name params) (front ++ q :: back) =
      acceptAll limit (equals defs (.function name (params.reverse ++ names))) back := by
  induction hp generalizing params with
  | @one l param hl =>
    have hparam : (parameter defs name params).accept l =
        some (parameterEnd defs name (param :: params)) := by simp [accept, hl]
    have hend : (parameterEnd defs name (param :: params)).accept q =
        some (equals defs (.function name (params.reverse ++ [param]))) := by simp [accept, hq]
    rw [List.singleton_append, acceptAll_cons hparam, acceptAll_cons hend]
    simp only [Reading.depth, upTo_zero]
  | @more l comma rest param names hl hcomma _ ih =>
    have hparam : (parameter defs name params).accept l =
        some (parameterEnd defs name (param :: params)) := by simp [accept, hl]
    have hnext : (parameterEnd defs name (param :: params)).accept comma =
        some (parameter defs name (param :: params)) := by simp [accept, hcomma]
    rw [List.cons_append, List.cons_append, acceptAll_cons hparam, acceptAll_cons hnext, ih]
    simp only [Reading.depth, upTo_zero, List.reverse_cons, List.append_assoc, List.singleton_append]

/-- The body of a definition is read from no depth. -/
theorem acceptAll_body {r : Reading} {l : Lexeme} {front back : List Lexeme} {e : Expr}
    (ha : r.accept l = some (inside defs target 0 [] .expression)) (he : Grammar.Expression front e)
    (hl : Linked (front ++ back)) (hback : ∀ l ∈ back.head?, l.token ≠ .lparen) (limit : Option Nat) :
    acceptAll limit r (l :: (front ++ back)) =
      upTo limit (e.nestingFrom 0 false) (acceptAll limit (close defs e target) back) := by
  rw [acceptAll_cons ha]
  exact takes_expression he hl hback limit defs target 0 []

theorem acceptAll_definition {front : List Lexeme} {d : Definition} (hd : Grammar.Defines front d)
    {back : List Lexeme} (hl : Linked (front ++ back)) (hback : ∀ l ∈ back.head?, l.token ≠ .lparen)
    (limit : Option Nat) (defs : List Definition) :
    acceptAll limit (item defs) (front ++ back) =
      upTo limit (d.body.nestingFrom 0 false) (acceptAll limit (item (d :: defs)) back) := by
  cases hd with
  | @value l n q name body e ht hn hq he =>
    have hdefine : (item defs).accept l = some (definedName defs) := by simp [accept, ht]
    have hname : (definedName defs).accept n = some (head defs name) := by simp [accept, hn]
    have hequals : (head defs name).accept q =
        some (inside defs (.value name) 0 [] .expression) := by simp [accept, hq]
    rw [List.cons_append, List.cons_append, List.cons_append, acceptAll_cons hdefine,
      acceptAll_cons hname, acceptAll_body hequals he hl.2.2.2 hback]
    simp only [Reading.depth, upTo_zero]
    rfl
  | @function l n p r q name params inner body e ht hn hp hps hr hq he =>
    simp only [List.cons_append, List.append_assoc] at hl ⊢
    have hdefine : (item defs).accept l = some (definedName defs) := by simp [accept, ht]
    have hname : (definedName defs).accept n = some (head defs name) := by simp [accept, hn]
    have hopen : (head defs name).accept p = some (parameter defs name []) := by simp [accept, hp]
    have hequals : (equals defs (.function name ([].reverse ++ params))).accept q =
        some (inside defs (.function name params) 0 [] .expression) := by simp [accept, hq]
    rw [acceptAll_cons hdefine, acceptAll_cons hname, acceptAll_cons hopen,
      acceptAll_parameters hps hr, acceptAll_body hequals he hl.2.2.2.right.2.2 hback]
    simp only [Reading.depth, upTo_zero]
    rfl

theorem head_ne_lparen_of_definitions {front back : List Lexeme} {ds : List Definition}
    (hds : Grammar.DefinesAll front ds) (hback : ∀ l ∈ back.head?, l.token ≠ .lparen) :
    ∀ l ∈ (front ++ back).head?, l.token ≠ .lparen := by
  cases hds with
  | nil => exact hback
  | cons hd _ => cases hd <;> simp_all

theorem acceptAll_definitions {front : List Lexeme} {ds : List Definition}
    (hds : Grammar.DefinesAll front ds) {back : List Lexeme} (hl : Linked (front ++ back))
    (hback : ∀ l ∈ back.head?, l.token ≠ .lparen) (limit : Option Nat) (defs : List Definition) :
    acceptAll limit (item defs) (front ++ back) =
      upTo limit (Expr.nestingAll 0 (ds.map Definition.body))
        (acceptAll limit (item (ds.reverse ++ defs)) back) := by
  induction hds generalizing defs with
  | nil => exact (upTo_zero limit _).symm
  | cons hd hrest ih =>
    rw [List.append_assoc] at hl ⊢
    rw [acceptAll_definition hd hl (head_ne_lparen_of_definitions hrest hback), ih hl.right, upTo_upTo]
    simp only [List.map_cons, Expr.nestingAll, List.reverse_cons, List.append_assoc,
      List.singleton_append]

/-- The first lexeme of an expression may come where a definition may, and is no parenthesis. -/
theorem exists_accept_first {front : List Lexeme} {e : Expr} (he : Grammar.Expression front e)
    (defs : List Definition) : ∃ l rest r, front = l :: rest ∧ l.token ≠ .lparen ∧
      (item defs).accept l = some r ∧ (inside defs .result 0 [] .expression).accept l = some r := by
  have hfirst : ∃ l rest, front = l :: rest ∧
      (l.token = .zero ∨ l.token = .succ ∨ l.token = .cond ∨ ∃ name, l.token = .ident name) := by
    cases he with
    | zero ht | succ ht | cond ht | var ht | call ht => exact ⟨_, _, rfl, by simp [ht]⟩
  obtain ⟨l, rest, rfl, hl⟩ := hfirst
  have hstart : ∃ r, start l defs .result 0 [] = some r := by
    rcases hl with hl | hl | hl | ⟨name, hl⟩
    · exact ⟨_, by rw [start, hl]⟩
    · exact ⟨_, by rw [start, hl]⟩
    · exact ⟨_, by rw [start, hl]⟩
    · cases ho : l.opens <;> simp [start, hl, ho]
  have hitem : (item defs).accept l = start l defs .result 0 [] := by
    rcases hl with hl | hl | hl | ⟨name, hl⟩ <;> simp [accept, hl]
  obtain ⟨r, hr⟩ := hstart
  refine ⟨l, rest, r, rfl, ?_, hitem.trans hr, hr⟩
  rcases hl with hl | hl | hl | ⟨name, hl⟩ <;> simp [hl]

theorem acceptAll_result {front : List Lexeme} {e : Expr} (he : Grammar.Expression front e)
    (hl : Linked front) (limit : Option Nat) (defs : List Definition) :
    acceptAll limit (item defs) front = upTo limit (e.nestingFrom 0 false) (.ok (closed defs e)) := by
  obtain ⟨l, rest, r, hfront, -, hitem, hinside⟩ := exists_accept_first he defs
  have hlinked : Linked (front ++ []) := by rwa [List.append_nil]
  have htakes := takes_expression he hlinked (by simp) limit defs .result 0 []
  rw [Takes, upTo_zero, List.append_nil] at htakes
  rw [hfront, acceptAll_cons hitem, ← acceptAll_cons hinside, ← hfront, htakes]
  rfl

/-- A script that the grammar derives is read as far as the limit allows. -/
theorem acceptAll_program {ls : List Lexeme} {s : Script} (h : Grammar.Program ls s) (hl : Linked ls)
    (limit : Option Nat) : ∃ r, r.finish = some s ∧
      acceptAll limit (item []) ls = upTo limit s.nesting (.ok r) := by
  cases h with
  | @definitions _ ds hds =>
    have hlinked : Linked (ls ++ []) := by rwa [List.append_nil]
    have hall := acceptAll_definitions hds hlinked (by simp) limit []
    rw [List.append_nil, List.append_nil] at hall
    refine ⟨item ds.reverse, by simp [finish], ?_⟩
    rw [hall, Script.nesting, Option.toList_none, List.append_nil]
    rfl
  | @result front rest ds e hds he =>
    obtain ⟨l, tail, r, hrest, hne, -⟩ := exists_accept_first he []
    have hall := acceptAll_definitions hds hl (by simp [hrest, hne]) limit []
    refine ⟨closed ds.reverse e, by simp [finish], ?_⟩
    rw [hall, List.append_nil, acceptAll_result he hl.right, upTo_upTo, Script.nesting,
      Expr.nestingAll_append]
    simp only [Option.toList_some, Expr.nestingAll, Nat.max_zero]

end Reading

namespace Script

/-- A limit asks for the nesting of a script and for nothing else. -/
theorem parse_eq_of_parse_none {source : String} {s : Script} (h : parse none source = .ok s)
    (limit : Option Nat) :
    parse limit source = if exceeds limit s.nesting then .error .tooDeep else .ok s := by
  obtain ⟨ls, offset, hstream, hp⟩ := (parse_eq_ok_iff source s).mp h
  have hlinked : Linked (Stream.ofChars source.toList).lexemes := Stream.linked_ofOffset 0 source.toList
  rw [hstream] at hlinked
  obtain ⟨r, hfinish, hall⟩ := Reading.acceptAll_program hp hlinked limit
  rw [parse, ofStream, hstream, hall, Reading.upTo]
  cases exceeds limit s.nesting with
  | true => rfl
  | false => simp [Reading.conclude, hfinish, Except.mapError]

theorem parse_limit_iff (source : String) (s : Script) (limit : Option Nat) :
    parse limit source = .ok s ↔ parse none source = .ok s ∧ exceeds limit s.nesting = false := by
  constructor
  · intro h
    have hnone := parse_none_of_parse h
    rw [parse_eq_of_parse_none hnone] at h
    cases hd : exceeds limit s.nesting with
    | false => exact ⟨hnone, rfl⟩
    | true =>
      rw [hd] at h
      cases h
  · rintro ⟨h, hd⟩
    rw [parse_eq_of_parse_none h, hd]
    rfl

/-- Reading asks for some frames besides. -/
theorem read_eq_of_parse_none {source : String} {s : Script} (h : parse none source = .ok s) (bounds : Bounds) :
    read bounds source =
      if exceeds bounds.depth (readingFrames + s.nesting) then .error .tooDeep else .ok s := by
  rw [read, parse_eq_of_parse_none h, Bounds.depth_inside]
  cases bounds.depth with
  | none => rfl
  | some limit =>
    simp only [remaining_some, exceeds_some, decide_eq_true_eq]
    by_cases hframes : limit < readingFrames
    · rw [if_pos hframes, if_pos (by omega)]
    · rw [if_neg hframes]
      by_cases hdeep : limit < readingFrames + s.nesting
      · rw [if_pos hdeep, if_pos (by omega)]
        rfl
      · rw [if_neg hdeep, if_neg (by omega)]
        rfl

/-- A text is read where there is room for a nesting that its script does not go beyond. -/
theorem read_of_nesting_le {source : String} {s : Script} (h : parse none source = .ok s) {n : Nat}
    (hn : s.nesting ≤ n) {bounds : Bounds} (hroom : exceeds bounds.depth (readingFrames + n) = false) :
    read bounds source = .ok s := by
  rw [read_eq_of_parse_none h, exceeds_eq_false_of_le (Nat.add_le_add_left hn _) hroom]
  rfl

theorem nesting_expression (e : Expr) : (Script.mk [] (some e)).nesting = e.nestingFrom 0 false := by
  simp only [nesting, List.map_nil, List.nil_append, Option.toList_some, Expr.nestingAll, Nat.max_zero]

theorem nesting_numeral_le (n : Nat) : (Script.mk [] (some (.numeral n))).nesting ≤ 1 := by
  rw [nesting_expression]
  exact Expr.nestingFrom_numeral_le n 0

end Script

end Unary
