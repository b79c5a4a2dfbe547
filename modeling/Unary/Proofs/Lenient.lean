import Unary.Proofs.Elaboration
import Unary.Proofs.Machine

/-!
Lenient evaluation as strict evaluation of the elaborated program, which finds nothing missing. Each half
is by the derivation in its own mode.
-/

namespace Unary

section Arguments

variable {mode : Mode} {functions : Functions} {env : Values}

theorem evaluatesAll_append (as bs : List Term) (ms : List Nat) :
    EvaluatesAll mode functions env (as ++ bs) (.ok ms) ↔
      ∃ ns ps, EvaluatesAll mode functions env as (.ok ns) ∧
        EvaluatesAll mode functions env bs (.ok ps) ∧ ms = ns ++ ps := by
  induction as generalizing ms with
  | nil =>
    constructor
    · intro h
      exact ⟨[], ms, .nil, h, rfl⟩
    · rintro ⟨ns, ps, hn, hp, rfl⟩
      cases hn
      exact hp
  | cons a as ih =>
    constructor
    · intro h
      cases h with
      | cons ha hs =>
        obtain ⟨ns, ps, hn, hp, rfl⟩ := (ih _).mp hs
        exact ⟨_ :: ns, ps, .cons ha hn, hp, rfl⟩
    · rintro ⟨ns, ps, hn, hp, rfl⟩
      cases hn with
      | cons ha hs => exact .cons ha ((ih _).mpr ⟨_, ps, hs, hp, rfl⟩)

theorem evaluatesAll_zeros (k : Nat) (ms : List Nat) :
    EvaluatesAll mode functions env (List.replicate k .zero) (.ok ms) ↔ ms = List.replicate k 0 := by
  induction k generalizing ms with
  | zero =>
    constructor
    · intro h
      cases h
      rfl
    · rintro rfl
      exact .nil
  | succ k ih =>
    constructor
    · intro h
      cases h with
      | cons hz hs =>
        cases hz
        rw [(ih _).mp hs]
        rfl
    · rintro rfl
      exact .cons .zero ((ih _).mpr rfl)

/-- The values of fitted arguments are those of the arguments that have a parameter, and zeros. -/
theorem evaluatesAll_fitArgs (k : Nat) (args : List Term) (ms : List Nat) :
    EvaluatesAll mode functions env (fitArgs k args) (.ok ms) ↔
      ∃ ns, EvaluatesAll mode functions env (args.take k) (.ok ns) ∧
        ms = ns ++ List.replicate (k - args.length) 0 := by
  simp only [fitArgs, evaluatesAll_append, evaluatesAll_zeros]
  constructor
  · rintro ⟨ns, ps, hn, rfl, rfl⟩
    exact ⟨ns, hn, rfl⟩
  · rintro ⟨ns, hn, rfl⟩
    exact ⟨ns, _, hn, rfl, rfl⟩

end Arguments

/-- The names in scope are those that have a value. -/
def InScope (scope : List String) (env : Values) : Prop :=
  ∀ name, name ∈ scope ↔ (env.get? name).isSome = true

theorem inScope_names (env : Values) : InScope env.names env :=
  fun name => (Table.isSome_get?_iff env name).symm

theorem inScope_params (params : List String) (ns : List Nat) :
    InScope params (bindParams .empty params ns) := by
  intro name
  simp [isSome_get?_bindParams]

/-- A call that has been elaborated passes for every missing argument the zero that it would be bound
to. -/
theorem Evaluates.elaborated {functions : Functions} {env : Values} {scope : List String}
    {callee : String} {f : Lambda} (hf : functions.get? callee = some f) {args : List Term}
    {ns : List Nat} {result : Except Fault Nat}
    (ha : EvaluatesAll .strict functions.elaborate env
      (Term.elaborateAll functions scope (args.take f.params.length)) (.ok ns))
    (hb : Evaluates .strict functions.elaborate (bindParams .empty f.params ns)
      (f.body.elaborate functions f.params) result) :
    Evaluates .strict functions.elaborate env
      ((Term.call callee args).elaborate functions scope) result := by
  have hg : functions.elaborate.get? callee = some (f.elaborate functions) := by
    rw [Functions.get?_elaborate, hf]
    rfl
  have hs : EvaluatesAll .strict functions.elaborate env
      ((fitArgs f.params.length (Term.elaborateAll functions scope args)).take f.params.length)
      (.ok (ns ++ List.replicate (f.params.length - args.length) 0)) := by
    rw [Term.elaborateAll_eq_map, List.map_take, ← Term.elaborateAll_eq_map] at ha
    rw [take_fitArgs, evaluatesAll_fitArgs, Term.length_elaborateAll]
    exact ⟨ns, ha, rfl⟩
  have hz := bindParams_append_zeros .empty f.params ns (f.params.length - args.length)
  rw [← hz] at hb
  rw [Term.elaborate, hf]
  exact .call hg (fun _ => length_fitArgs _ _) hs hb

mutual

/-- What lenient evaluation finds, strict evaluation of the elaborated term finds. -/
theorem Evaluates.elaborate {functions : Functions} (hf : functions.wellFormed = true)
    {env : Values} {t : Term} {result : Except Fault Nat}
    (h : Evaluates .lenient functions env t result) {scope : List String}
    (hs : InScope scope env) (ht : t.wellFormed = true) :
    ∃ n, result = .ok n ∧
      Evaluates .strict functions.elaborate env (t.elaborate functions scope) (.ok n) := by
  match h with
  | .zero => exact ⟨0, rfl, .zero⟩
  | .succ ha =>
    obtain ⟨n, hn, he⟩ := ha.elaborate hf hs ht
    cases hn
    exact ⟨_, rfl, .succ he⟩
  | .succFault ha =>
    obtain ⟨n, hn, -⟩ := ha.elaborate hf hs ht
    cases hn
  | .bound hx =>
    have hm := (hs _).mpr (by rw [hx]; rfl)
    refine ⟨_, rfl, ?_⟩
    rw [Term.elaborate, if_pos hm]
    exact .bound hx
  | .unboundZero _ hx =>
    refine ⟨0, rfl, ?_⟩
    rw [Term.elaborate, if_neg (fun hm => by simpa [hx] using (hs _).mp hm)]
    exact .zero
  | .leftFault ha =>
    obtain ⟨wl, -⟩ := Term.wellFormed_cond_iff.mp ht
    obtain ⟨n, hn, -⟩ := ha.elaborate hf hs wl
    cases hn
  | .rightFault _ hb =>
    obtain ⟨-, wr, -⟩ := Term.wellFormed_cond_iff.mp ht
    obtain ⟨n, hn, -⟩ := hb.elaborate hf hs wr
    cases hn
  | .equal ha hb hc =>
    obtain ⟨wl, wr, wy, -⟩ := Term.wellFormed_cond_iff.mp ht
    obtain ⟨m, hm, ea⟩ := ha.elaborate hf hs wl
    obtain ⟨n, hn, eb⟩ := hb.elaborate hf hs wr
    obtain ⟨v, hv, ec⟩ := hc.elaborate hf hs wy
    cases hm
    cases hn
    exact ⟨v, hv, .equal ea eb ec⟩
  | .unequal ha hb hne hd =>
    obtain ⟨wl, wr, -, wn⟩ := Term.wellFormed_cond_iff.mp ht
    obtain ⟨m, hm, ea⟩ := ha.elaborate hf hs wl
    obtain ⟨n, hn, eb⟩ := hb.elaborate hf hs wr
    obtain ⟨v, hv, ed⟩ := hd.elaborate hf hs wn
    cases hm
    cases hn
    exact ⟨v, hv, .unequal ea eb hne ed⟩
  | .unknownZero _ hg =>
    refine ⟨0, rfl, ?_⟩
    rw [Term.elaborate, hg]
    exact .zero
  | .argFault hg _ ha =>
    obtain ⟨ns, hn, -⟩ := ha.elaborate hf hs (Term.allWellFormed_take ht _)
    cases hn
  | .call hg hm ha hb =>
    obtain ⟨ns, hn, ea⟩ := ha.elaborate hf hs (Term.allWellFormed_take ht _)
    cases hn
    obtain ⟨v, hv, eb⟩ := hb.elaborate hf (inScope_params _ _) (Functions.wellFormed_body hf hg)
    exact ⟨v, hv, .elaborated hg ea eb⟩

theorem EvaluatesAll.elaborate {functions : Functions} (hf : functions.wellFormed = true)
    {env : Values} {ts : List Term} {result : Except Fault (List Nat)}
    (h : EvaluatesAll .lenient functions env ts result) {scope : List String}
    (hs : InScope scope env) (ht : Term.allWellFormed ts = true) :
    ∃ ns, result = .ok ns ∧
      EvaluatesAll .strict functions.elaborate env (Term.elaborateAll functions scope ts)
        (.ok ns) := by
  match h with
  | .nil => exact ⟨[], rfl, .nil⟩
  | .headFault ha =>
    obtain ⟨wt, -⟩ := Term.allWellFormed_cons_iff.mp ht
    obtain ⟨n, hn, -⟩ := ha.elaborate hf hs wt
    cases hn
  | .tailFault _ hb =>
    obtain ⟨-, wts⟩ := Term.allWellFormed_cons_iff.mp ht
    obtain ⟨ns, hn, -⟩ := hb.elaborate hf hs wts
    cases hn
  | .cons ha hb =>
    obtain ⟨wt, wts⟩ := Term.allWellFormed_cons_iff.mp ht
    obtain ⟨n, hn, ea⟩ := ha.elaborate hf hs wt
    obtain ⟨ns, hns, eb⟩ := hb.elaborate hf hs wts
    cases hn
    cases hns
    exact ⟨_, rfl, .cons ea eb⟩

end

/-- Zero stands for zero, for a name that is not in scope, or for a call of a function that is not
there. -/
theorem Term.of_elaborate_zero {functions : Functions} {scope : List String} {t : Term}
    (h : .zero = t.elaborate functions scope) {env : Values} (hs : InScope scope env) :
    Evaluates .lenient functions env t (.ok 0) := by
  cases t with
  | zero => exact .zero
  | var name =>
    by_cases hn : name ∈ scope
    · simp [elaborate, hn] at h
    · have hx : env.get? name = none := by
        rw [hs name, Bool.not_eq_true, Option.isSome_eq_false_iff, Option.isNone_iff_eq_none] at hn
        exact hn
      exact .unboundZero rfl hx
  | call callee args =>
    cases hg : functions.get? callee with
    | none => exact .unknownZero rfl hg
    | some f => simp [elaborate, hg] at h
  | _ => simp [elaborate] at h

mutual

/-- What strict evaluation of an elaborated term finds, lenient evaluation of the term finds. -/
theorem Evaluates.of_elaborate {functions : Functions} (hf : functions.wellFormed = true)
    {env : Values} {t t' : Term} {result : Except Fault Nat}
    (h : Evaluates .strict functions.elaborate env t' result) {scope : List String}
    (he : t' = t.elaborate functions scope) (hs : InScope scope env) (ht : t.wellFormed = true) :
    ∃ n, result = .ok n ∧ Evaluates .lenient functions env t (.ok n) := by
  match h with
  | .zero => exact ⟨0, rfl, Term.of_elaborate_zero he hs⟩
  | .succ ha =>
    obtain ⟨a, rfl, ea⟩ := Term.of_elaborate_succ he
    obtain ⟨n, hn, ra⟩ := ha.of_elaborate hf ea hs ht
    cases hn
    exact ⟨_, rfl, .succ ra⟩
  | .succFault ha =>
    obtain ⟨a, rfl, ea⟩ := Term.of_elaborate_succ he
    obtain ⟨n, hn, -⟩ := ha.of_elaborate hf ea hs ht
    cases hn
  | .bound hx =>
    obtain ⟨rfl, -⟩ := Term.of_elaborate_var he
    exact ⟨_, rfl, .bound hx⟩
  | .unbound _ hx =>
    obtain ⟨rfl, hm⟩ := Term.of_elaborate_var he
    rw [hs, hx] at hm
    cases hm
  | .leftFault ha =>
    obtain ⟨a, b, c, d, rfl, ea, -⟩ := Term.of_elaborate_cond he
    obtain ⟨wl, -⟩ := Term.wellFormed_cond_iff.mp ht
    obtain ⟨n, hn, -⟩ := ha.of_elaborate hf ea hs wl
    cases hn
  | .rightFault _ hb =>
    obtain ⟨a, b, c, d, rfl, -, eb, -⟩ := Term.of_elaborate_cond he
    obtain ⟨-, wr, -⟩ := Term.wellFormed_cond_iff.mp ht
    obtain ⟨n, hn, -⟩ := hb.of_elaborate hf eb hs wr
    cases hn
  | .equal ha hb hc =>
    obtain ⟨a, b, c, d, rfl, ea, eb, ec, -⟩ := Term.of_elaborate_cond he
    obtain ⟨wl, wr, wy, -⟩ := Term.wellFormed_cond_iff.mp ht
    obtain ⟨m, hm, ra⟩ := ha.of_elaborate hf ea hs wl
    obtain ⟨n, hn, rb⟩ := hb.of_elaborate hf eb hs wr
    obtain ⟨v, hv, rc⟩ := hc.of_elaborate hf ec hs wy
    cases hm
    cases hn
    exact ⟨v, hv, .equal ra rb rc⟩
  | .unequal ha hb hne hd =>
    obtain ⟨a, b, c, d, rfl, ea, eb, -, ed⟩ := Term.of_elaborate_cond he
    obtain ⟨wl, wr, -, wn⟩ := Term.wellFormed_cond_iff.mp ht
    obtain ⟨m, hm, ra⟩ := ha.of_elaborate hf ea hs wl
    obtain ⟨n, hn, rb⟩ := hb.of_elaborate hf eb hs wr
    obtain ⟨v, hv, rd⟩ := hd.of_elaborate hf ed hs wn
    cases hm
    cases hn
    exact ⟨v, hv, .unequal ra rb hne rd⟩
  | .unknown _ hg =>
    obtain ⟨as, f, rfl, hk, -⟩ := Term.of_elaborate_call he
    rw [Functions.get?_elaborate, hk] at hg
    cases hg
  | .arity _ hg hne =>
    obtain ⟨as, f, rfl, hk, hl, -⟩ := Term.of_elaborate_call he
    rw [(Functions.of_get?_elaborate hk hg).1] at hne
    exact absurd hl hne
  | .argFault hg _ ha =>
    obtain ⟨as, f, rfl, hk, -, hl⟩ := Term.of_elaborate_call he
    obtain ⟨hp, -⟩ := Functions.of_get?_elaborate hk hg
    have hw := Term.allWellFormed_fitArgs ht f.params.length
    obtain ⟨ns, hn, -⟩ := ha.of_elaborate hf (hp ▸ hl) hs hw
    cases hn
  | .call hg _ ha hb =>
    obtain ⟨as, f, rfl, hk, -, hl⟩ := Term.of_elaborate_call he
    -- The callee is not replaced in the premises: the recursion needs them as they are.
    obtain ⟨hp, hq⟩ := Functions.of_get?_elaborate hk hg
    have hw := Term.allWellFormed_fitArgs ht f.params.length
    obtain ⟨ms, hm, ra⟩ := ha.of_elaborate hf (hp ▸ hl) hs hw
    obtain ⟨v, hv, rb⟩ := hb.of_elaborate hf hq (hp ▸ inScope_params _ _)
      (Functions.wellFormed_body hf hk)
    cases hm
    obtain ⟨ns, rn, hz⟩ := (evaluatesAll_fitArgs _ _ _).mp ra
    rw [hp, hz, bindParams_append_zeros] at rb
    exact ⟨v, hv, .call hk (fun h => by cases h) rn rb⟩
  | .equation =>
    have hw := Term.wellFormed_elaborate functions scope t ht
    rw [← he] at hw
    cases hw
  | .text =>
    have hw := Term.wellFormed_elaborate functions scope t ht
    rw [← he] at hw
    cases hw

theorem EvaluatesAll.of_elaborate {functions : Functions} (hf : functions.wellFormed = true)
    {env : Values} {ts ts' : List Term} {result : Except Fault (List Nat)}
    (h : EvaluatesAll .strict functions.elaborate env ts' result) {scope : List String}
    (he : ts' = Term.elaborateAll functions scope ts) (hs : InScope scope env)
    (ht : Term.allWellFormed ts = true) :
    ∃ ns, result = .ok ns ∧ EvaluatesAll .lenient functions env ts (.ok ns) := by
  match h with
  | .nil =>
    cases ts with
    | nil => exact ⟨[], rfl, .nil⟩
    | cons t ts => cases he
  | .headFault ha =>
    cases ts with
    | nil => cases he
    | cons t ts =>
      obtain ⟨wt, -⟩ := Term.allWellFormed_cons_iff.mp ht
      obtain ⟨n, hn, -⟩ := ha.of_elaborate hf (List.cons.inj he).1 hs wt
      cases hn
  | .tailFault _ hb =>
    cases ts with
    | nil => cases he
    | cons t ts =>
      obtain ⟨-, wts⟩ := Term.allWellFormed_cons_iff.mp ht
      obtain ⟨ns, hn, -⟩ := hb.of_elaborate hf (List.cons.inj he).2 hs wts
      cases hn
  | .cons ha hb =>
    cases ts with
    | nil => cases he
    | cons t ts =>
      obtain ⟨wt, wts⟩ := Term.allWellFormed_cons_iff.mp ht
      obtain ⟨n, hn, ra⟩ := ha.of_elaborate hf (List.cons.inj he).1 hs wt
      obtain ⟨ns, hns, rb⟩ := hb.of_elaborate hf (List.cons.inj he).2 hs wts
      cases hn
      cases hns
      exact ⟨_, rfl, .cons ra rb⟩

end

section Program

variable {functions : Functions} {t : Term}

theorem evaluates_elaborate_iff (hf : functions.wellFormed = true) (ht : t.wellFormed = true)
    (env : Values) (result : Except Fault Nat) :
    Evaluates .lenient functions env t result ↔
      Evaluates .strict functions.elaborate env (t.elaborate functions env.names) result := by
  constructor
  · intro h
    obtain ⟨n, rfl, he⟩ := h.elaborate hf (inScope_names env) ht
    exact he
  · intro h
    obtain ⟨n, rfl, he⟩ := h.of_elaborate hf rfl (inScope_names env) ht
    exact he

theorem Evaluates.exists_value (hf : functions.wellFormed = true) (ht : t.wellFormed = true)
    (env : Values) (result : Except Fault Nat) (h : Evaluates .lenient functions env t result) :
    ∃ n, result = .ok n := by
  obtain ⟨n, hn, -⟩ := h.elaborate hf (inScope_names env) ht
  exact ⟨n, hn⟩

end Program

/-- Lenient evaluation of a program and strict evaluation of the elaborated program have the same value or
go on forever together, and neither ever ends in another way. -/
theorem evaluate_lenient_iff_elaborated (functions : Functions) (env : Values) (t : Term)
    (hf : functions.wellFormed = true) (ht : t.wellFormed = true) :
    (∀ n, (∃ fuel, evaluate fuel .lenient t env functions = .value n) ↔
      ∃ fuel, evaluate fuel .strict (t.elaborate functions env.names) env functions.elaborate =
        .value n) ∧
    (∀ fuel, (∃ n, evaluate fuel .lenient t env functions = .value n) ∨
      evaluate fuel .lenient t env functions = .unfinished) ∧
    (∀ fuel, (∃ n, evaluate fuel .strict (t.elaborate functions env.names) env
        functions.elaborate = .value n) ∨
      evaluate fuel .strict (t.elaborate functions env.names) env functions.elaborate =
        .unfinished) ∧
    ((∀ fuel, evaluate fuel .lenient t env functions = .unfinished) ↔
      ∀ fuel, evaluate fuel .strict (t.elaborate functions env.names) env functions.elaborate =
        .unfinished) := by
  have same := evaluates_elaborate_iff hf ht env
  have value := Evaluates.exists_value hf ht env
  refine ⟨fun n => ?_, ?_, ?_, ?_⟩
  · exact (exists_evaluate_iff (.ok n)).trans
      ((same (.ok n)).trans (exists_evaluate_iff (.ok n)).symm)
  · exact evaluate_value_or_unfinished value
  · exact evaluate_value_or_unfinished fun result h => value result ((same result).mpr h)
  · rw [evaluate_unfinished_iff, evaluate_unfinished_iff]
    exact forall_congr' fun result => not_congr (same result)

/-- A parameter that is repeated and not supplied, an unknown call and a surplus argument, the last two
with an argument that would go on forever. -/
theorem evaluate_elaborated_repeated_param :
    let loop : Term := .call "loop" []
    let functions : Functions :=
      ⟨[("f", ⟨["x", "x"], .succ (.var "x")⟩), ("loop", ⟨[], loop⟩)]⟩
    let t : Term := .cond (.call "f" [.var "y"]) (.call "f" [.var "y", .call "g" [loop], loop])
      (.call "f" [.zero, .var "y"]) loop
    let env : Values := ⟨[("y", 3)]⟩
    functions.wellFormed = true ∧ t.wellFormed = true ∧
      ∃ fuel, evaluate fuel .strict (t.elaborate functions env.names) env functions.elaborate =
        .value 4 := by
  intro loop functions t env
  have hf : functions.wellFormed = true := by decide +kernel
  have ht : t.wellFormed = true := by decide +kernel
  refine ⟨hf, ht, ?_⟩
  exact ((evaluate_lenient_iff_elaborated functions env t hf ht).1 4).mp ⟨30, by decide +kernel⟩

end Unary
