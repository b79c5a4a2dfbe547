import Mathlib.Tactic.Common
import Unary.Proofs.Grammar
import Unary.Reading

/-!
Reading a script one lexeme at a time takes exactly what the rules of the grammar derive.

`Reading.reads` is the script that a reading makes of the lexemes still to come. A place in an expression
is left alone while the expression for it is read, so what is read is an expression and then whatever may
come after it in that place.
-/

namespace Unary

namespace Reading

/-- The script that a reading makes of the lexemes to come, if they may come and the text may end after
them. -/
def reads : Reading → List Lexeme → Option Script
  | r, [] => r.finish
  | r, l :: ls => (r.accept l).bind fun r' => reads r' ls

/-- The next lexeme is the given token and the rest is read from there. -/
def Expects (token : Token) (r : Reading) (ls : List Lexeme) (s : Script) : Prop :=
  ∃ l rest, ls = l :: rest ∧ l.token = token ∧ r.reads rest = some s

theorem reads_cons {r : Reading} {l : Lexeme} {ls : List Lexeme} {s : Script} :
    r.reads (l :: ls) = some s ↔ ∃ r', r.accept l = some r' ∧ r'.reads ls = some s := by
  rw [reads, Option.bind_eq_some_iff]

theorem reads_iff_expects {r r' : Reading} {token : Token} (hf : r.finish = none)
    (ha : ∀ l, r.accept l = if l.token = token then some r' else none) (ls : List Lexeme)
    (s : Script) : r.reads ls = some s ↔ Expects token r' ls s := by
  cases ls with
  | nil => simp [reads, hf, Expects]
  | cons l ls =>
    rw [reads_cons, ha]
    constructor
    · rintro ⟨next, hn, hr⟩
      split at hn
      · next ht =>
        cases hn
        exact ⟨l, ls, rfl, ht, hr⟩
      · cases hn
    · rintro ⟨l', rest, he, ht, hr⟩
      cases he
      exact ⟨r', if_pos ht, hr⟩

section Places

variable (defs : List Definition) (target : Target) (depth : Nat) (slots : List Slot)

/-- What is wanted where only one token may come, and the reading after it. -/
def only : Want → Option (Token × Reading)
  | .callOpen callee => some (.lparen, push defs target depth slots (.arg callee []))
  | .condOpen => some (.lparen, inside defs target depth slots .equate)
  | .equate => some (.equate, inside defs target depth slots .equateOpen)
  | .equateOpen => some (.lparen, push defs target depth slots .left)
  | .operandEnd a => some (.comma, push defs target depth slots (.right a))
  | .equateClose a b => some (.rparen, inside defs target depth slots (.condClose a b))
  | .condClose a b => some (.rparen, inside defs target depth slots (.yes a b))
  | .yes a b => some (.yes, push defs target depth slots (.yes a b))
  | .no a b c => some (.no, push defs target depth slots (.no a b c))
  | _ => none

variable {defs target depth slots}

theorem reads_only {want : Want} {token : Token} {r : Reading}
    (h : only defs target depth slots want = some (token, r)) (ls : List Lexeme) (s : Script) :
    (inside defs target depth slots want).reads ls = some s ↔ Expects token r ls s := by
  apply reads_iff_expects rfl
  intro l
  cases want <;> simp only [only, Option.some.injEq, Prod.mk.injEq, reduceCtorEq] at h <;>
    obtain ⟨rfl, rfl⟩ := h <;> cases hl : l.token <;> simp [accept, acceptInside, hl]

theorem accept_succOpen (h : ∀ count rest, slots ≠ .succ count :: rest) (l : Lexeme) :
    (inside defs target depth slots .succOpen).accept l =
      if l.token = .lparen then some (push defs target depth slots (.succ 0)) else none := by
  cases slots with
  | nil => cases hl : l.token <;> simp [accept, acceptInside, hl]
  | cons slot rest =>
    cases slot with
    | succ count => exact absurd rfl (h count rest)
    | _ => cases hl : l.token <;> simp [accept, acceptInside, hl]

variable (defs target depth slots) in
/-- A run of successors is read in places of its own. Whichever they are, the expression in them is
closed by one parenthesis and then stands as a successor where the run began. -/
theorem reads_succOpen : ∃ depth' slots',
    (∀ ls s, (inside defs target depth slots .succOpen).reads ls = some s ↔
      Expects .lparen (inside defs target depth' slots' .expression) ls s) ∧
    (∀ e ls s, (fill defs target depth' e slots').reads ls = some s ↔
      Expects .rparen (fill defs target depth (.succ e) slots) ls s) := by
  by_cases h : ∃ count rest, slots = .succ count :: rest
  · obtain ⟨count, rest, rfl⟩ := h
    refine ⟨depth, .succ (count + 1) :: rest, ?_, fun e => ?_⟩
    · apply reads_iff_expects rfl
      intro l
      cases hl : l.token <;> simp [accept, acceptInside, hl]
    · apply reads_iff_expects rfl
      intro l
      cases hl : l.token <;> simp [fill, accept, acceptInside, hl]
  · refine ⟨depth + 1, .succ 0 :: slots, ?_, fun e => ?_⟩
    · apply reads_iff_expects rfl
      exact accept_succOpen fun count rest hs => h ⟨count, rest, hs⟩
    · apply reads_iff_expects rfl
      intro l
      cases hl : l.token <;> simp [fill, accept, acceptInside, hl]

/-- After an argument comes another one, or the end of the call. -/
theorem reads_argEnd {callee : String} {done : List Expr} {e : Expr} {ls : List Lexeme}
    {s : Script} :
    (inside defs target depth slots (.argEnd callee done e)).reads ls = some s ↔
      Expects .comma (push defs target depth slots (.arg callee (e :: done))) ls s ∨
      Expects .rparen (fill defs target depth (.call callee (e :: done).reverse) slots) ls s := by
  cases ls with
  | nil => simp [reads, finish, Expects]
  | cons l ls =>
    rw [reads_cons]
    cases hl : l.token <;> simp [accept, acceptInside, hl, Expects]

/-- The first lexeme of an expression decides how it is read. -/
theorem reads_start {l : Lexeme} {ls : List Lexeme} {s : Script}
    (h : (inside defs target depth slots .expression).reads (l :: ls) = some s) :
    l.token = .zero ∧ (fill defs target depth .zero slots).reads ls = some s ∨
    l.token = .succ ∧ (inside defs target depth slots .succOpen).reads ls = some s ∨
    l.token = .cond ∧ (inside defs target depth slots .condOpen).reads ls = some s ∨
    ∃ name, l.token = .ident name ∧
      (l.opens = true ∧ (inside defs target depth slots (.callOpen name)).reads ls = some s ∨
        l.opens = false ∧ (fill defs target depth (.var name) slots).reads ls = some s) := by
  obtain ⟨r, ha, hr⟩ := reads_cons.mp h
  simp only [accept, acceptInside, start] at ha
  cases hl : l.token with
  | ident name =>
    cases ho : l.opens <;> simp [hl, ho] at ha <;> subst ha <;> simp [hr]
  | _ => simp [hl] at ha <;> subst ha <;> simp [hr]

/-- No parenthesis opens after an expression. -/
theorem not_lparen_of_reads_fill {e : Expr} {p : Lexeme} {ls : List Lexeme} {s : Script}
    (h : (fill defs target depth e slots).reads (p :: ls) = some s) : p.token ≠ .lparen := by
  intro hp
  obtain ⟨r, ha, -⟩ := reads_cons.mp h
  clear h
  induction slots generalizing depth e with
  | nil => cases target <;> simp [fill, close, accept, start, hp] at ha
  | cons slot slots ih =>
    cases slot with
    | no a b c => exact ih ha
    | succ count => cases count <;> simp [fill, accept, acceptInside, hp] at ha
    | _ => simp [fill, accept, acceptInside, hp] at ha

end Places

/-- What is to be shown of lexemes that are read where an expression is wanted: they begin with an
expression, and the rest is read with that expression in its place. -/
def BeginsExpression (ls : List Lexeme) : Prop :=
  ∀ (defs : List Definition) (target : Target) (depth : Nat) (slots : List Slot) (s : Script),
    (inside defs target depth slots .expression).reads ls = some s →
    ∃ front back e, ls = front ++ back ∧ Grammar.Expression front e ∧
      (fill defs target depth e slots).reads back = some s

variable {defs : List Definition} {target : Target} {depth : Nat} {slots : List Slot} {s : Script}

theorem arguments_of_reads {n : Nat}
    (ih : ∀ ls : List Lexeme, ls.length < n → Linked ls → BeginsExpression ls) {callee : String}
    {done : List Expr} {ls : List Lexeme} (hn : ls.length < n) (hl : Linked ls)
    (h : (push defs target depth slots (.arg callee done)).reads ls = some s) :
    ∃ front q back es, ls = front ++ q :: back ∧ q.token = .rparen ∧
      Grammar.Arguments front es ∧
      (fill defs target depth (.call callee (done.reverse ++ es)) slots).reads back = some s := by
  induction hk : ls.length using Nat.strongRecOn generalizing ls done with
  | ind k ihk =>
    obtain ⟨front, back, e, rfl, he, hr⟩ := ih ls hn hl _ _ _ _ _ h
    rcases reads_argEnd.mp hr with ⟨comma, rest, rfl, hc, hr⟩ | ⟨q, rest, rfl, hq, hr⟩
    · have hlt : rest.length < k := by
        rw [← hk, List.length_append, List.length_cons]
        omega
      obtain ⟨front', q, back, es, rfl, hq, hes, hr⟩ :=
        ihk rest.length hlt (by omega) hl.right.2 hr rfl
      refine ⟨front ++ comma :: front', q, back, e :: es, by simp, hq, .more he hc hes, ?_⟩
      simpa using hr
    · rw [List.reverse_cons] at hr
      exact ⟨front, q, rest, [e], rfl, hq, .one he, hr⟩

theorem cond_of_reads {n : Nat}
    (ih : ∀ ls : List Lexeme, ls.length < n → Linked ls → BeginsExpression ls) {l : Lexeme}
    (hi : l.token = .cond) {ls : List Lexeme} (hn : ls.length < n) (hl : Linked ls)
    (h : (inside defs target depth slots .condOpen).reads ls = some s) :
    ∃ front back e, l :: ls = front ++ back ∧ Grammar.Expression front e ∧
      (fill defs target depth e slots).reads back = some s := by
  obtain ⟨p, ls, rfl, hp, h⟩ := (reads_only rfl _ _).mp h
  obtain ⟨q, ls, rfl, hq, h⟩ := (reads_only rfl _ _).mp h
  obtain ⟨r, ls, rfl, hr, h⟩ := (reads_only rfl _ _).mp h
  simp only [List.length_cons] at hn
  obtain ⟨as, ls, a, rfl, ha, h⟩ := ih ls (by omega) hl.2.2.2 _ _ _ _ _ h
  obtain ⟨comma, ls, rfl, hc, h⟩ := (reads_only rfl _ _).mp h
  simp only [List.length_append, List.length_cons] at hn
  have hb := hl.2.2.2.right.2
  obtain ⟨bs, ls, b, rfl, hbs, h⟩ := ih ls (by omega) hb _ _ _ _ _ h
  obtain ⟨close, ls, rfl, hcl, h⟩ := (reads_only rfl _ _).mp h
  obtain ⟨close', ls, rfl, hcl', h⟩ := (reads_only rfl _ _).mp h
  obtain ⟨yes, ls, rfl, hy, h⟩ := (reads_only rfl _ _).mp h
  simp only [List.length_append, List.length_cons] at hn
  have hc' := hb.right.2.2.2
  obtain ⟨cs, ls, c, rfl, hcs, h⟩ := ih ls (by omega) hc' _ _ _ _ _ h
  obtain ⟨no, ls, rfl, hno, h⟩ := (reads_only rfl _ _).mp h
  simp only [List.length_append, List.length_cons] at hn
  obtain ⟨ds, back, d, rfl, hds, h⟩ := ih ls (by omega) hc'.right.2 _ _ _ _ _ h
  refine ⟨_, back, .cond a b c d, ?_,
    .cond hi hp hq hr ha hc hbs hcl hcl' hy hcs hno hds, h⟩
  simp

/-- Reading takes an expression where it wants one. The induction is on the number of lexemes, since the
places of an expression are read one after the other. -/
theorem expression_of_reads (ls : List Lexeme) (hl : Linked ls) : BeginsExpression ls := by
  induction hk : ls.length using Nat.strongRecOn generalizing ls with
  | ind k ihk =>
    have ih (ls : List Lexeme) (hlt : ls.length < k) (hl : Linked ls) : BeginsExpression ls :=
      ihk ls.length hlt ls hl rfl
    intro defs target depth slots s h
    cases ls with
    | nil => cases h
    | cons l ls =>
      have hlt : ls.length < k := by
        rw [← hk, List.length_cons]
        omega
      rcases reads_start h with ⟨ht, hr⟩ | ⟨ht, hr⟩ | ⟨ht, hr⟩ | ⟨name, ht, ⟨ho, hr⟩ | ⟨ho, hr⟩⟩
      · exact ⟨[l], ls, .zero, rfl, .zero ht, hr⟩
      · obtain ⟨depth', slots', hopen, hclose⟩ := reads_succOpen defs target depth slots
        obtain ⟨p, ls, rfl, hp, hr⟩ := (hopen _ _).mp hr
        simp only [List.length_cons] at hlt
        obtain ⟨inner, rest, e, rfl, he, hr⟩ := ih ls (by omega) hl.2.2 _ _ _ _ _ hr
        obtain ⟨q, back, rfl, hq, hr⟩ := (hclose _ _ _).mp hr
        exact ⟨_, back, .succ e, by simp, .succ ht hp he hq, hr⟩
      · exact cond_of_reads ih ht hlt hl.2 hr
      · obtain ⟨p, ls, rfl, hp, hr⟩ := (reads_only rfl _ _).mp hr
        obtain ⟨p', hh, -, hs⟩ := hl.1.mp ho
        obtain rfl : p = p' := by simpa using hh
        simp only [List.length_cons] at hlt
        obtain ⟨inner, q, back, args, rfl, hq, ha, hr⟩ :=
          arguments_of_reads ih (by omega) hl.2.2 hr
        exact ⟨_, back, .call name args, by simp, .call ht hp hs ha hq, hr⟩
      · exact ⟨[l], ls, .var name, rfl, .var ht, hr⟩

theorem start_cond {l : Lexeme} (h : l.token = .cond) :
    start l defs target depth slots = some (inside defs target depth slots .condOpen) := by
  simp [start, h]

theorem start_call {l : Lexeme} {name : String} (h : l.token = .ident name) (ho : l.opens = true) :
    start l defs target depth slots = some (inside defs target depth slots (.callOpen name)) := by
  simp [start, h, ho]

theorem reads_of_start {l : Lexeme} {r : Reading} (ha : start l defs target depth slots = some r)
    {ls : List Lexeme} (hr : r.reads ls = some s) :
    (inside defs target depth slots .expression).reads (l :: ls) = some s :=
  reads_cons.mpr ⟨r, ha, hr⟩

/-- The lexeme of a name that is not called opens nothing. -/
theorem opens_eq_false {l : Lexeme} {e : Expr} {back : List Lexeme} (hl : Linked (l :: back))
    (h : (fill defs target depth e slots).reads back = some s) : l.opens = false := by
  rw [← Bool.not_eq_true]
  intro ho
  obtain ⟨p, hp, ht, -⟩ := hl.1.mp ho
  cases back with
  | nil => cases hp
  | cons p' back =>
    obtain rfl : p' = p := by simpa using hp
    exact not_lparen_of_reads_fill h ht

mutual

/-- Reading takes every expression of the grammar, if what comes after it is read. -/
theorem reads_of_expression {front : List Lexeme} {e : Expr} (he : Grammar.Expression front e)
    {back : List Lexeme} {defs : List Definition} {target : Target} {depth : Nat}
    {slots : List Slot} (hl : Linked (front ++ back))
    (h : (fill defs target depth e slots).reads back = some s) :
    (inside defs target depth slots .expression).reads (front ++ back) = some s := by
  match he with
  | .zero ht => exact reads_of_start (by simp [start, ht]) h
  | .succ ht hp hi hq =>
    obtain ⟨depth', slots', hopen, hclose⟩ := reads_succOpen defs target depth slots
    simp only [List.cons_append, List.append_assoc, List.nil_append] at hl ⊢
    refine reads_of_start (by simp [start, ht]) ((hopen _ _).mpr ⟨_, _, rfl, hp, ?_⟩)
    exact reads_of_expression hi hl.2.2 ((hclose _ _ _).mpr ⟨_, _, rfl, hq, h⟩)
  | .cond hi hp hq hr ha hc hb hcl hcl' hy hcs hno hd =>
    simp only [List.cons_append, List.append_assoc] at hl ⊢
    refine reads_of_start (start_cond hi) ((reads_only rfl _ _).mpr ⟨_, _, rfl, hp, ?_⟩)
    refine (reads_only rfl _ _).mpr ⟨_, _, rfl, hq, (reads_only rfl _ _).mpr ⟨_, _, rfl, hr, ?_⟩⟩
    have la := hl.2.2.2.2
    refine reads_of_expression ha la ((reads_only rfl _ _).mpr ⟨_, _, rfl, hc, ?_⟩)
    have lb := la.right.2
    refine reads_of_expression hb lb ((reads_only rfl _ _).mpr ⟨_, _, rfl, hcl, ?_⟩)
    refine (reads_only rfl _ _).mpr ⟨_, _, rfl, hcl', (reads_only rfl _ _).mpr ⟨_, _, rfl, hy, ?_⟩⟩
    have lc := lb.right.2.2.2
    refine reads_of_expression hcs lc ((reads_only rfl _ _).mpr ⟨_, _, rfl, hno, ?_⟩)
    exact reads_of_expression hd lc.right.2 h
  | .var ht =>
    have ho := opens_eq_false hl h
    exact reads_of_start (by simp [start, ht, ho]) h
  | .call ht hp hs ha hq =>
    simp only [List.cons_append, List.append_assoc, List.nil_append] at hl ⊢
    have ho := hl.1.mpr ⟨_, rfl, hp, hs⟩
    refine reads_of_start (start_call ht ho) ((reads_only rfl _ _).mpr ⟨_, _, rfl, hp, ?_⟩)
    exact reads_of_arguments ha hq hl.2.2 h

/-- Reading takes all arguments of a call after those already taken. -/
theorem reads_of_arguments {front : List Lexeme} {es : List Expr}
    (he : Grammar.Arguments front es) {q : Lexeme} (hq : q.token = .rparen) {back : List Lexeme}
    {defs : List Definition} {target : Target} {depth : Nat} {slots : List Slot} {callee : String}
    {done : List Expr} (hl : Linked (front ++ q :: back))
    (h : (fill defs target depth (.call callee (done.reverse ++ es)) slots).reads back = some s) :
    (push defs target depth slots (.arg callee done)).reads (front ++ q :: back) = some s := by
  match he with
  | .one ha =>
    refine reads_of_expression ha hl (reads_argEnd.mpr (.inr ⟨q, back, rfl, hq, ?_⟩))
    rw [List.reverse_cons]
    exact h
  | .more ha hc hs =>
    simp only [List.append_assoc, List.cons_append] at hl ⊢
    refine reads_of_expression ha hl (reads_argEnd.mpr (.inl ⟨_, _, rfl, hc, ?_⟩))
    refine reads_of_arguments hs hq hl.right.2 ?_
    rw [List.reverse_cons, List.append_assoc]
    exact h

end

/-- Where an expression is wanted, the lexemes that are read are those that begin with one. -/
theorem reads_expression_iff {ls : List Lexeme} (hl : Linked ls) :
    (inside defs target depth slots .expression).reads ls = some s ↔
      ∃ front back e, ls = front ++ back ∧ Grammar.Expression front e ∧
        (fill defs target depth e slots).reads back = some s := by
  constructor
  · exact expression_of_reads ls hl defs target depth slots s
  · rintro ⟨front, back, e, rfl, he, h⟩
    exact reads_of_expression he hl h

/-- After the parenthesis of a function come its parameters, and the parenthesis that closes them. -/
theorem reads_parameter_iff {name : String} {params : List String} {ls : List Lexeme} :
    (parameter defs name params).reads ls = some s ↔
      ∃ front q back names, ls = front ++ q :: back ∧ q.token = .rparen ∧
        Grammar.Parameters front names ∧
        (equals defs (.function name (params.reverse ++ names))).reads back = some s := by
  constructor
  · intro h
    induction hk : ls.length using Nat.strongRecOn generalizing ls params with
    | ind k ih =>
      obtain - | ⟨l, ls⟩ := ls
      · cases h
      obtain ⟨r, ha, hr⟩ := reads_cons.mp h
      obtain ⟨param, ht, rfl⟩ : ∃ param, l.token = .ident param ∧
          r = parameterEnd defs name (param :: params) := by
        cases ht : l.token <;> simp [accept, ht] at ha
        exact ⟨_, rfl, ha.symm⟩
      obtain - | ⟨q, rest⟩ := ls
      · cases hr
      obtain ⟨r, ha, hr⟩ := reads_cons.mp hr
      cases hq : q.token <;> simp [accept, hq] at ha <;> subst ha
      · exact ⟨[l], q, rest, [param], rfl, hq, .one ht, by simpa using hr⟩
      · have hlt : rest.length < k := by simp only [← hk, List.length_cons]; omega
        obtain ⟨front, q', back, names, rfl, hq', hps, hr⟩ := ih rest.length hlt hr rfl
        refine ⟨l :: q :: front, q', back, param :: names, rfl, hq', .more ht hq hps, ?_⟩
        simpa using hr
  · rintro ⟨front, q, back, names, rfl, hq, hp, h⟩
    induction hp generalizing params with
    | @one l param ht =>
      refine reads_cons.mpr ⟨parameterEnd defs name (param :: params), by simp [accept, ht], ?_⟩
      refine reads_cons.mpr ⟨equals defs (.function name (param :: params).reverse), ?_, ?_⟩
      · simp [accept, hq]
      · simpa using h
    | @more l comma rest param names ht hc _ ih =>
      refine reads_cons.mpr ⟨parameterEnd defs name (param :: params), by simp [accept, ht], ?_⟩
      refine reads_cons.mpr ⟨parameter defs name (param :: params), by simp [accept, hc], ?_⟩
      exact ih (by simpa using h)

theorem reads_equals (ls : List Lexeme) (s : Script) :
    (equals defs target).reads ls = some s ↔
      Expects .equals (inside defs target 0 [] .expression) ls s := by
  apply reads_iff_expects rfl
  intro l
  cases hl : l.token <;> simp [accept, hl]

/-- After the name of a definition comes its body, or its parameters and then its body. -/
theorem reads_head_iff {name : String} {ls : List Lexeme} :
    (head defs name).reads ls = some s ↔
      Expects .equals (inside defs (.value name) 0 [] .expression) ls s ∨
      Expects .lparen (parameter defs name []) ls s := by
  cases ls with
  | nil => simp [reads, finish, Expects]
  | cons l ls =>
    rw [reads_cons]
    cases hl : l.token <;> simp [accept, hl, Expects]

theorem reads_definedName_iff {ls : List Lexeme} :
    (definedName defs).reads ls = some s ↔
      ∃ name, Expects (.ident name) (head defs name) ls s := by
  cases ls with
  | nil => simp [reads, finish, Expects]
  | cons l ls =>
    rw [reads_cons]
    cases hl : l.token <;> simp [accept, hl, Expects]

theorem reads_item_define {l : Lexeme} (hl : l.token = .define) (ls : List Lexeme) (s : Script) :
    (item defs).reads (l :: ls) = some s ↔ (definedName defs).reads ls = some s := by
  simp [reads_cons, accept, hl]

theorem reads_item_result {l : Lexeme} (hl : l.token ≠ .define) (ls : List Lexeme) :
    (item defs).reads (l :: ls) = (inside defs .result 0 [] .expression).reads (l :: ls) := by
  rw [reads, reads]
  cases ht : l.token <;> simp_all [accept, acceptInside]

/-- Where a definition may come, a lexeme that begins one is read as such. -/
theorem definition_of_reads {l : Lexeme} (hd : l.token = .define) {ls : List Lexeme}
    (hl : Linked ls) (h : (item defs).reads (l :: ls) = some s) :
    ∃ front back d, l :: ls = front ++ back ∧ Grammar.Defines front d ∧
      (item (d :: defs)).reads back = some s := by
  rw [reads_item_define hd] at h
  obtain ⟨name, n, ls, rfl, hn, h⟩ := reads_definedName_iff.mp h
  rcases reads_head_iff.mp h with ⟨q, ls, rfl, hq, h⟩ | ⟨p, ls, rfl, hp, h⟩
  · obtain ⟨body, back, e, rfl, he, h⟩ := (reads_expression_iff hl.2.2).mp h
    exact ⟨_, back, .value name e, by simp, .value hd hn hq he, h⟩
  · obtain ⟨inner, r, ls, params, rfl, hr, hps, h⟩ := reads_parameter_iff.mp h
    obtain ⟨q, ls, rfl, hq, h⟩ := (reads_equals _ _).mp h
    have hb := hl.2.2.right.2.2
    obtain ⟨body, back, e, rfl, he, h⟩ := (reads_expression_iff hb).mp h
    exact ⟨_, back, .function name params e, by simp, .function hd hn hp hps hr hq he, h⟩

theorem reads_of_definition {front back : List Lexeme} {d : Definition}
    (hd : Grammar.Defines front d) (hl : Linked (front ++ back))
    (h : (item (d :: defs)).reads back = some s) :
    (item defs).reads (front ++ back) = some s := by
  cases hd with
  | value ht hn hq he =>
    refine (reads_item_define ht _ _).mpr (reads_definedName_iff.mpr ⟨_, _, _, rfl, hn, ?_⟩)
    refine reads_head_iff.mpr (.inl ⟨_, _, rfl, hq, ?_⟩)
    exact reads_of_expression he hl.2.2.2 h
  | function ht hn hp hps hr hq he =>
    simp only [List.cons_append, List.append_assoc] at hl ⊢
    refine (reads_item_define ht _ _).mpr (reads_definedName_iff.mpr ⟨_, _, _, rfl, hn, ?_⟩)
    refine reads_head_iff.mpr (.inr ⟨_, _, rfl, hp, ?_⟩)
    refine reads_parameter_iff.mpr ⟨_, _, _, _, rfl, hr, hps, ?_⟩
    refine (reads_equals _ _).mpr ⟨_, _, rfl, hq, ?_⟩
    exact reads_of_expression he hl.2.2.2.right.2.2 h

theorem reads_of_definitions {front : List Lexeme} {ds : List Definition}
    (hd : Grammar.DefinesAll front ds) {back : List Lexeme} (hl : Linked (front ++ back))
    (h : (item (ds.reverse ++ defs)).reads back = some s) :
    (item defs).reads (front ++ back) = some s := by
  induction hd generalizing defs with
  | nil => exact h
  | cons hd _ ih =>
    rw [List.append_assoc] at hl ⊢
    refine reads_of_definition hd hl (ih hl.right ?_)
    simpa using h

theorem reads_closed_iff {e : Expr} {ls : List Lexeme} :
    (closed defs e).reads ls = some s ↔ ls = [] ∧ s = ⟨defs.reverse, some e⟩ := by
  cases ls with
  | nil => simp [reads, finish, eq_comm]
  | cons l ls => simp [reads, accept]

/-- What is read is a program that comes after the definitions read before. -/
theorem program_of_reads {ls : List Lexeme} (hl : Linked ls)
    (h : (item defs).reads ls = some s) :
    ∃ ds result, s = ⟨defs.reverse ++ ds, result⟩ ∧ Grammar.Program ls ⟨ds, result⟩ := by
  induction hk : ls.length using Nat.strongRecOn generalizing ls defs with
  | ind k ih =>
    obtain - | ⟨l, ls⟩ := ls
    · have hs : s = ⟨defs.reverse ++ [], none⟩ := by simpa [reads, finish, eq_comm] using h
      exact ⟨[], none, hs, .definitions .nil⟩
    by_cases ht : l.token = .define
    · obtain ⟨front, back, d, hf, hd, hr⟩ := definition_of_reads ht hl.2 h
      have hlt : back.length < k := by
        have hne : front ≠ [] := by cases hd <;> simp
        have hlen := congrArg List.length hf
        rw [List.length_append] at hlen
        have := List.length_pos_iff.mpr hne
        omega
      rw [hf] at hl ⊢
      obtain ⟨ds, result, rfl, hp⟩ := ih back.length hlt hl.right hr rfl
      exact ⟨d :: ds, result, by simp, hp.cons hd⟩
    · rw [reads_item_result ht] at h
      obtain ⟨front, back, e, hf, he, hr⟩ := (reads_expression_iff hl).mp h
      obtain ⟨rfl, rfl⟩ := reads_closed_iff.mp hr
      rw [hf, List.append_nil]
      exact ⟨[], some e, by simp, .result .nil he⟩

/-- Reading makes of lexemes the script that the grammar derives from them. -/
theorem reads_iff_program {ls : List Lexeme} (hl : Linked ls) :
    (item []).reads ls = some s ↔ Grammar.Program ls s := by
  constructor
  · intro h
    obtain ⟨ds, result, rfl, hp⟩ := program_of_reads hl h
    exact hp
  · intro h
    cases h with
    | @definitions _ ds hds =>
      rw [← List.append_nil ls] at hl ⊢
      exact reads_of_definitions hds hl (by simp [reads, finish])
    | @result _ rest ds e hds he =>
      refine reads_of_definitions hds hl ?_
      obtain ⟨l, tail, rfl, ht⟩ := he.head_ne_define
      rw [reads_item_result ht, ← List.append_nil (l :: tail)]
      refine reads_of_expression he (by rw [List.append_nil]; exact hl.right) ?_
      exact reads_closed_iff.mpr ⟨rfl, by simp⟩

end Reading

end Unary
