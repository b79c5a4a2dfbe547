import Unary.Proofs.Elaboration
import Unary.Proofs.Machine

/-!
The two stacks of the machine in balance.

A move takes values off the top for the frame it does, and puts in its place either one value or terms to
evaluate and a frame that takes as many values as there are terms. What lies below is not looked at. So
each frame comes to one value in the place of those it takes, each finds the values of the frames before
it, and no frame ever finds too few.
-/

namespace Unary

/-- Whether a fault is one for which lenient mode has a value. -/
def Fault.isRejection : Fault → Bool
  | .unbound _ => true
  | .unknownFunction _ => true
  | .arity .. => true
  | .notTerm _ => false

namespace Machine

/-- The number of values that a frame takes off the stack. -/
def Frame.takes : Frame → Nat
  | .eval .. => 0
  | .succ => 1
  | .branch .. => 2
  | .apply _ count => count

/-- Whether a frame holds nothing but terms. -/
def Frame.wellFormed : Frame → Bool
  | .eval t _ => t.wellFormed
  | .succ => true
  | .branch yes no _ => yes.wellFormed && no.wellFormed
  | .apply f _ => f.body.wellFormed

/-- Whether every frame finds the values it takes on a stack of a height, each frame having left one value
in the place of those it took, and one value is left in the end. -/
def Balanced : List Frame → Nat → Prop
  | [], height => height = 1
  | frame :: work, height => frame.takes ≤ height ∧ Balanced work (height - frame.takes + 1)

/-- What a move can put in the place of a frame: one value, or terms and a frame that takes theirs. -/
inductive Scheduled : List Frame → List Nat → Prop
  | value (n : Nat) : Scheduled [] [n]
  | terms (ts : List Term) (env : Values) {frame : Frame} (h : frame.takes = ts.length) :
      Scheduled (ts.map (.eval · env) ++ [frame]) []

theorem Balanced.append {frames work : List Frame} {height below : Nat} (h : Balanced frames height)
    (hw : Balanced work (below + 1)) : Balanced (frames ++ work) (height + below) := by
  induction frames generalizing height with
  | nil =>
    have hone : height = 1 := h
    rw [hone, Nat.add_comm]
    exact hw
  | cons frame frames ih =>
    obtain ⟨hle, hrest⟩ := h
    refine ⟨by omega, ?_⟩
    have hheight : height + below - frame.takes + 1 = height - frame.takes + 1 + below := by omega
    rw [hheight]
    exact ih hrest

theorem balanced_terms (ts : List Term) (env : Values) {work : List Frame} {height : Nat}
    (h : Balanced work (height + ts.length)) : Balanced (ts.map (.eval · env) ++ work) height := by
  induction ts generalizing height with
  | nil => exact h
  | cons t ts ih =>
    refine ⟨Nat.zero_le _, ih ?_⟩
    rw [List.length_cons] at h
    have hheight : height - (Frame.eval t env).takes + 1 + ts.length = height + (ts.length + 1) := by
      simp only [Frame.takes]
      omega
    rw [hheight]
    exact h

theorem Scheduled.balanced {frames : List Frame} {left : List Nat} (h : Scheduled frames left) :
    Balanced frames left.length := by
  cases h with
  | value n => rfl
  | @terms ts env frame h =>
    have hone : 0 + ts.length - frame.takes + 1 = 1 := by omega
    exact balanced_terms ts env ⟨by omega, hone⟩

/-- A move of a frame: the values it takes, and the frames and values it puts in their place, whatever
lies below. -/
structure Move (mode : Mode) (functions : Functions) (frame : Frame) (taken : List Nat)
    (frames : List Frame) (left : List Nat) : Prop where
  length_taken : taken.length = frame.takes
  scheduled : Scheduled frames left
  wellFormed : functions.wellFormed = true → frame.wellFormed = true →
    frames.all Frame.wellFormed = true
  next : ∀ work below, step mode functions ⟨frame :: work, taken ++ below⟩ =
    .next ⟨frames ++ work, left ++ below⟩

variable {mode : Mode} {functions : Functions}

theorem all_wellFormed_terms {ts : List Term} (h : Term.allWellFormed ts = true) (env : Values)
    {frame : Frame} (hf : frame.wellFormed = true) :
    (ts.map (Frame.eval · env) ++ [frame]).all Frame.wellFormed = true := by
  simp only [List.all_append, List.all_map, Bool.and_eq_true, List.all_eq_true, List.all_cons, hf,
    List.all_nil, and_true]
  exact (Term.allWellFormed_iff ts).mp h

/-- A move that puts one value in the place of a term. -/
theorem Move.value {t : Term} {env : Values} {n : Nat}
    (h : ∀ work values, step mode functions ⟨.eval t env :: work, values⟩ = .next ⟨work, n :: values⟩) :
    Move mode functions (.eval t env) [] [] [n] :=
  ⟨rfl, .value n, fun _ _ => rfl, h⟩

theorem exists_move_eval {t : Term} {env : Values} {work : List Frame} {values : List Nat}
    {c : Config} (h : step mode functions ⟨.eval t env :: work, values⟩ = .next c) :
    ∃ frames left, c = ⟨frames ++ work, left ++ values⟩ ∧
      Move mode functions (.eval t env) [] frames left := by
  cases t with
  | zero =>
    cases h
    exact ⟨[], [0], rfl, .value fun _ _ => rfl⟩
  | succ arg =>
    cases h
    refine ⟨[.eval arg env, .succ], [], rfl, rfl, .terms [arg] env rfl, ?_, fun _ _ => rfl⟩
    intro _ ht
    have hts : Term.allWellFormed [arg] = true := Term.allWellFormed_cons_iff.mpr ⟨ht, rfl⟩
    exact all_wellFormed_terms hts env rfl
  | var name =>
    cases hx : env.lookup mode name with
    | error fault => simp [step, eval, hx] at h
    | ok n =>
      have hnext (work : List Frame) (values : List Nat) :
          step mode functions ⟨.eval (.var name) env :: work, values⟩ =
            .next ⟨work, n :: values⟩ := by simp [step, eval, hx]
      cases (hnext work values).symm.trans h
      exact ⟨[], [n], rfl, .value hnext⟩
  | cond left right yes no =>
    cases h
    refine ⟨[.eval left env, .eval right env, .branch yes no env], [], rfl, rfl,
      .terms [left, right] env rfl, ?_, fun _ _ => rfl⟩
    intro _ ht
    obtain ⟨hl, hr, hy, hn⟩ := Term.wellFormed_cond_iff.mp ht
    have hts : Term.allWellFormed [left, right] = true :=
      Term.allWellFormed_cons_iff.mpr ⟨hl, Term.allWellFormed_cons_iff.mpr ⟨hr, rfl⟩⟩
    exact all_wellFormed_terms hts env (Bool.and_eq_true_iff.mpr ⟨hy, hn⟩)
  | call callee args =>
    cases hf : functions.get? callee with
    | none =>
      cases mode with
      | strict => simp [step, eval, Functions.lookup, hf] at h
      | lenient =>
        have hnext (work : List Frame) (values : List Nat) :
            step .lenient functions ⟨.eval (.call callee args) env :: work, values⟩ =
              .next ⟨work, 0 :: values⟩ := by simp [step, eval, Functions.lookup, hf]
        cases (hnext work values).symm.trans h
        exact ⟨[], [0], rfl, .value hnext⟩
    | some f =>
      by_cases hm : mode = .strict → args.length = f.params.length
      · let supplied := args.take f.params.length
        have hnext := step_call_of_some hf hm env
        cases (hnext work values).symm.trans h
        refine ⟨supplied.map (.eval · env) ++ [.apply f supplied.length], [], ?_, rfl,
          .terms supplied env rfl, ?_, ?_⟩
        · simp [supplied]
        · intro hfs ht
          exact all_wellFormed_terms (Term.allWellFormed_take ht _) env (Functions.wellFormed_body hfs hf)
        · intro work below
          rw [List.append_assoc]
          exact hnext work below
      · obtain ⟨rfl, hne⟩ := Classical.not_imp.mp hm
        simp [step, eval, Functions.lookup, hf, Lambda.refuses, Lambda.arity, hne] at h
  | equation left right => cases h
  | text content => cases h

/-- A move that goes on with one term. -/
theorem Move.term {frame : Frame} {taken : List Nat} {t : Term} {env : Values}
    (hlen : taken.length = frame.takes)
    (hw : functions.wellFormed = true → frame.wellFormed = true → t.wellFormed = true)
    (h : ∀ work below, step mode functions ⟨frame :: work, taken ++ below⟩ =
      .next ⟨.eval t env :: work, below⟩) :
    Move mode functions frame taken [.eval t env] [] := by
  refine ⟨hlen, .terms [] env rfl, fun hfs hf => ?_, h⟩
  rw [List.all_cons, Frame.wellFormed, hw hfs hf]
  rfl

/-- Every move is the move of the frame on top. -/
theorem exists_move {frame : Frame} {work : List Frame} {values : List Nat} {c : Config}
    (h : step mode functions ⟨frame :: work, values⟩ = .next c) :
    ∃ taken below frames left, values = taken ++ below ∧ c = ⟨frames ++ work, left ++ below⟩ ∧
      Move mode functions frame taken frames left := by
  cases frame with
  | eval t env =>
    obtain ⟨frames, left, hc, hm⟩ := exists_move_eval h
    exact ⟨[], values, frames, left, rfl, hc, hm⟩
  | succ =>
    obtain - | ⟨n, values⟩ := values
    · cases h
    cases h
    exact ⟨[n], values, [], [n + 1], rfl, rfl, rfl, .value (n + 1), fun _ _ => rfl, fun _ _ => rfl⟩
  | branch yes no env =>
    obtain - | ⟨right, - | ⟨left, values⟩⟩ := values
    · cases h
    · cases h
    cases h
    refine ⟨[right, left], values, [.eval (if left = right then yes else no) env], [], rfl, rfl,
      .term rfl ?_ fun _ _ => rfl⟩
    intro _ hf
    obtain ⟨hy, hn⟩ := Bool.and_eq_true_iff.mp hf
    split
    · exact hy
    · exact hn
  | apply f count =>
    have hlen : (values.take count).length = count := by
      by_contra hne
      simp only [step, if_neg hne] at h
      cases h
    -- The values are the arguments, the last one on top.
    obtain ⟨ns, hns⟩ : ∃ ns : List Nat, ns.reverse = values.take count :=
      ⟨(values.take count).reverse, List.reverse_reverse _⟩
    have hcount : count = ns.length := by rw [← hlen, ← hns, List.length_reverse]
    have hvalues : values = ns.reverse ++ values.drop count := by
      rw [hns, List.take_append_drop]
    subst hcount
    rw [hvalues, step_apply] at h
    cases h
    refine ⟨ns.reverse, values.drop ns.length, [.eval f.body (bindParams .empty f.params ns)], [],
      hvalues, rfl, .term List.length_reverse (fun _ hf => hf) ?_⟩
    exact step_apply f ns

theorem Balanced.next {c c' : Config} (h : Balanced c.work c.values.length)
    (hs : step mode functions c = .next c') : Balanced c'.work c'.values.length := by
  obtain ⟨work, values⟩ := c
  obtain - | ⟨frame, work⟩ := work
  · cases values <;> cases hs
  obtain ⟨taken, below, frames, left, rfl, rfl, hm⟩ := exists_move hs
  obtain ⟨hle, hrest⟩ := h
  rw [List.length_append, hm.length_taken, Nat.add_sub_cancel_left] at hrest
  rw [List.length_append]
  exact hm.scheduled.balanced.append hrest

/-- The faults that are found when a term is begun. -/
inductive Faulty (mode : Mode) (functions : Functions) (env : Values) : Term → Fault → Prop
  | unbound {name : String} : mode = .strict → env.get? name = none →
      Faulty mode functions env (.var name) (.unbound name)
  | unknown {callee : String} {args : List Term} : mode = .strict → functions.get? callee = none →
      Faulty mode functions env (.call callee args) (.unknownFunction callee)
  | arity {callee : String} {args : List Term} {f : Lambda} : mode = .strict →
      functions.get? callee = some f → args.length ≠ f.params.length →
      Faulty mode functions env (.call callee args)
        (.arity (some callee) f.params.length args.length)
  | notTerm {t : Term} : t.wellFormed = false → Faulty mode functions env t (.notTerm t)

/-- A term can always be begun, unless there is a fault. -/
theorem progress_eval (mode : Mode) (functions : Functions) (t : Term) (env : Values)
    (work : List Frame) (values : List Nat) :
    (∃ c, step mode functions ⟨.eval t env :: work, values⟩ = .next c) ∨
      ∃ fault, step mode functions ⟨.eval t env :: work, values⟩ = .fault fault ∧
        Faulty mode functions env t fault := by
  cases t with
  | zero => exact .inl ⟨_, rfl⟩
  | succ arg => exact .inl ⟨_, rfl⟩
  | cond left right yes no => exact .inl ⟨_, rfl⟩
  | var name =>
    cases hx : env.get? name with
    | some n => exact .inl ⟨_, step_var_of_some hx work values⟩
    | none =>
      cases mode with
      | lenient => exact .inl ⟨⟨work, 0 :: values⟩, by simp [step, eval, Values.lookup, hx]⟩
      | strict =>
        exact .inr ⟨.unbound name, by simp [step, eval, Values.lookup, hx], .unbound rfl hx⟩
  | call callee args =>
    cases hf : functions.get? callee with
    | none =>
      cases mode with
      | lenient => exact .inl ⟨⟨work, 0 :: values⟩, by simp [step, eval, Functions.lookup, hf]⟩
      | strict =>
        refine .inr ⟨.unknownFunction callee, ?_, .unknown rfl hf⟩
        simp [step, eval, Functions.lookup, hf]
    | some f =>
      by_cases hm : mode = .strict → args.length = f.params.length
      · exact .inl ⟨_, step_call_of_some hf hm env work values⟩
      · obtain ⟨rfl, hne⟩ := Classical.not_imp.mp hm
        refine .inr ⟨.arity (some callee) f.params.length args.length, ?_, .arity rfl hf hne⟩
        simp [step, eval, Functions.lookup, hf, Lambda.refuses, Lambda.arity, hne]
  | equation left right => exact .inr ⟨.notTerm (.equation left right), rfl, .notTerm rfl⟩
  | text content => exact .inr ⟨.notTerm (.text content), rfl, .notTerm rfl⟩

/-- Only strict mode finds a fault in a term. -/
theorem Faulty.isRejection {env : Values} {t : Term} {fault : Fault}
    (h : Faulty mode functions env t fault) (ht : t.wellFormed = true) :
    mode = .strict ∧ fault.isRejection = true := by
  cases h with
  | unbound hm _ => exact ⟨hm, rfl⟩
  | unknown hm _ => exact ⟨hm, rfl⟩
  | arity hm _ _ => exact ⟨hm, rfl⟩
  | notTerm hn =>
    rw [ht] at hn
    cases hn

/-- What a configuration in balance can do: it halts on its one value, or it moves, or there is a fault. -/
theorem Balanced.progress {c : Config} (h : Balanced c.work c.values.length) :
    (∃ n, c = ⟨[], [n]⟩) ∨ (∃ c', step mode functions c = .next c') ∨
      ∃ fault, step mode functions c = .fault fault ∧
        (c.work.all Frame.wellFormed = true → mode = .strict ∧ fault.isRejection = true) := by
  obtain ⟨work, values⟩ := c
  obtain - | ⟨frame, work⟩ := work
  · obtain ⟨n, rfl⟩ := List.length_eq_one_iff.mp h
    exact .inl ⟨n, rfl⟩
  refine .inr ?_
  have hle : frame.takes ≤ values.length := h.1
  cases frame with
  | eval t env =>
    refine (progress_eval mode functions t env work values).imp_right ?_
    rintro ⟨fault, hs, hfaulty⟩
    refine ⟨fault, hs, fun hw => hfaulty.isRejection ?_⟩
    rw [List.all_cons, Bool.and_eq_true] at hw
    exact hw.1
  | succ =>
    obtain - | ⟨n, values⟩ := values
    · simp [Frame.takes] at hle
    · exact .inl ⟨_, rfl⟩
  | branch yes no env =>
    obtain - | ⟨right, - | ⟨left, values⟩⟩ := values
    · simp [Frame.takes] at hle
    · simp [Frame.takes] at hle
    · exact .inl ⟨_, rfl⟩
  | apply f count =>
    have hlen : (values.take count).length = count := List.length_take_of_le hle
    exact .inl ⟨_, if_pos hlen⟩

theorem wellFormed_next (hf : functions.wellFormed = true) {c c' : Config}
    (h : c.work.all Frame.wellFormed = true) (hs : step mode functions c = .next c') :
    c'.work.all Frame.wellFormed = true := by
  obtain ⟨work, values⟩ := c
  obtain - | ⟨frame, work⟩ := work
  · cases values <;> cases hs
  obtain ⟨taken, below, frames, left, rfl, rfl, hm⟩ := exists_move hs
  rw [List.all_cons, Bool.and_eq_true] at h
  rw [List.all_append, Bool.and_eq_true]
  exact ⟨hm.wellFormed hf h.1, h.2⟩

section Below

/-- More work and more values below change no move. -/
theorem Reaches.below {c c' : Config} (h : Reaches mode functions c c') (work : List Frame)
    (values : List Nat) :
    Reaches mode functions ⟨c.work ++ work, c.values ++ values⟩
      ⟨c'.work ++ work, c'.values ++ values⟩ := by
  induction h using Relation.ReflTransGen.head_induction_on with
  | refl => exact .refl _
  | @head c c₁ hs _ ih =>
    obtain ⟨first, found⟩ := c
    obtain - | ⟨frame, first⟩ := first
    · cases found <;> cases hs
    obtain ⟨taken, rest, frames, left, rfl, rfl, hm⟩ := exists_move hs
    refine .head ?_ ih
    simp only [List.append_assoc, List.cons_append]
    exact hm.next (first ++ work) (rest ++ values)

/-- Some moves lead from one configuration to the other, and none of them is a move of a frame of
`pending`, which lies at the bottom of the work. -/
def ReachesAbove (mode : Mode) (functions : Functions) (pending : List Frame) :
    Config → Config → Prop :=
  Relation.ReflTransGen fun c c' => step mode functions c = .next c' ∧
    ∃ frame top, c.work = frame :: (top ++ pending)

/-- Frames done one after the other: each takes its values off the stack and by itself makes of them one
value, which is on the stack when the next frame is done. -/
inductive Passes (mode : Mode) (functions : Functions) : List Frame → List Nat → List Nat → Prop
  | nil (values : List Nat) : Passes mode functions [] values values
  | cons {frame : Frame} {frames : List Frame} {taken below values : List Nat} {n : Nat} :
      taken.length = frame.takes → Reaches mode functions ⟨[frame], taken⟩ ⟨[], [n]⟩ →
      Passes mode functions frames (n :: below) values →
      Passes mode functions (frame :: frames) (taken ++ below) values

namespace Passes

variable {frames frames' : List Frame} {values values' : List Nat}

theorem reaches (h : Passes mode functions frames values values') (work : List Frame) :
    Reaches mode functions ⟨frames ++ work, values⟩ ⟨work, values'⟩ := by
  induction h with
  | nil values => exact .refl _
  | @cons frame frames taken below values n _ hr _ ih => exact (hr.below (frames ++ work) below).trans ih

theorem of_append (h : Passes mode functions (frames ++ frames') values values') :
    ∃ between, Passes mode functions frames values between ∧
      Passes mode functions frames' between values' := by
  induction frames generalizing values with
  | nil => exact ⟨values, .nil values, h⟩
  | cons frame frames ih =>
    cases h with
    | cons hlen hr hrest =>
      obtain ⟨between, hfirst, hthen⟩ := ih hrest
      exact ⟨between, .cons hlen hr hfirst, hthen⟩

/-- Frames in balance with the values on top make one value of them and leave those below alone. -/
theorem of_balanced {left below : List Nat} (hb : Balanced frames left.length)
    (h : Passes mode functions frames (left ++ below) values) :
    ∃ n, values = n :: below ∧ Passes mode functions frames left [n] := by
  induction frames generalizing left with
  | nil =>
    obtain ⟨n, rfl⟩ := List.length_eq_one_iff.mp hb
    cases h
    exact ⟨n, rfl, .nil [n]⟩
  | cons frame frames ih =>
    obtain ⟨hle, hrest⟩ := hb
    generalize hv : left ++ below = found at h
    cases h with
    | @cons _ _ taken found _ m hlen hr hp =>
      obtain ⟨kept, rfl⟩ : ∃ kept, left = taken ++ kept := by
        have hprefix : taken <+: left ++ below := ⟨found, hv.symm⟩
        obtain ⟨kept, hk⟩ := List.prefix_of_prefix_length_le hprefix (List.prefix_append left below)
          (by omega)
        exact ⟨kept, hk.symm⟩
      have hfound : found = kept ++ below := by
        rw [List.append_assoc] at hv
        exact (List.append_cancel_left hv).symm
      rw [List.length_append, hlen, Nat.add_sub_cancel_left, ← List.length_cons] at hrest
      rw [hfound, ← List.cons_append] at hp
      obtain ⟨n, hn, hpass⟩ := ih hrest hp
      exact ⟨n, hn, .cons hlen hr hpass⟩

end Passes

/-- From a configuration in which frames lie above others to one in which they are done, each of them has
been done in its turn. -/
theorem ReachesAbove.passes {pending before : List Frame} {c c' : Config}
    (h : ReachesAbove mode functions pending c c') (hc : c.work = before ++ pending)
    (hc' : c'.work = pending) : Passes mode functions before c.values c'.values := by
  induction h using Relation.ReflTransGen.head_induction_on generalizing before with
  | refl =>
    have hnil : before = [] := by
      rw [hc'] at hc
      exact List.self_eq_append_left.mp hc
    rw [hnil]
    exact .nil _
  | @head c c₁ hs _ ih =>
    obtain ⟨hstep, frame, top, hw⟩ := hs
    obtain ⟨work, values⟩ := c
    cases hw
    have hbefore : before = frame :: top := (List.append_cancel_right hc).symm
    obtain ⟨taken, below, frames, left, rfl, rfl, hm⟩ := exists_move hstep
    -- What the move has put in the place of the frame comes to one value by itself.
    obtain ⟨between, hfirst, hrest⟩ := (ih (List.append_assoc ..).symm).of_append
    obtain ⟨n, rfl, hone⟩ := hfirst.of_balanced hm.scheduled.balanced
    rw [hbefore]
    have hmove := hm.next [] []
    have halone := hone.reaches []
    simp only [List.append_nil] at hmove halone
    exact .cons hm.length_taken (.head hmove halone) hrest

theorem evaluates_of_reaches {t : Term} {env : Values} {n : Nat}
    (h : Reaches mode functions ⟨[.eval t env], []⟩ ⟨[], [n]⟩) :
    Evaluates mode functions env t (.ok n) := by
  obtain ⟨moves, hm⟩ := h.run_eq
  exact (exists_evaluate_iff (.ok n)).mp ⟨moves + 1, hm 1⟩

/-- Terms that are done leave their values in reverse order. -/
theorem Passes.evaluatesAll {ts : List Term} {env : Values} {values values' : List Nat}
    (h : Passes mode functions (ts.map (.eval · env)) values values') :
    ∃ ns, EvaluatesAll mode functions env ts (.ok ns) ∧ values' = ns.reverse ++ values := by
  induction ts generalizing values with
  | nil =>
    cases h
    exact ⟨[], .nil, rfl⟩
  | cons t ts ih =>
    cases h with
    | @cons _ _ taken below _ n hlen hr hrest =>
      obtain rfl : taken = [] := List.eq_nil_of_length_eq_zero hlen
      obtain ⟨ns, hns, hv⟩ := ih hrest
      refine ⟨n :: ns, .cons (evaluates_of_reaches hr) hns, ?_⟩
      simp [hv]

end Below

/-- What holds of a configuration whose two stacks are in balance. -/
structure Safe (mode : Mode) (functions : Functions) (c : Config) : Prop where
  /-- The frame that is done next finds the values it takes. -/
  enough : ∀ frame work, c.work = frame :: work → frame.takes ≤ c.values.length
  /-- When the frames above others are done, each of them has left one value in the place of those it
  took, and this is what the others find. -/
  pending : ∀ before pending c', c.work = before ++ pending →
    ReachesAbove mode functions pending c c' → c'.work = pending →
    Passes mode functions before c.values c'.values
  /-- A move puts a value on the stack, or else terms on the work and below them a frame. When this frame
  comes to be done, it finds the values of these terms on what lay there before, and takes them all. -/
  scheduled : ∀ c₁, step mode functions c = .next c₁ →
    (∃ n below, c₁ = ⟨c.work.tail, n :: below⟩) ∨
      ∃ ts env frame, c₁.work = ts.map (.eval · env) ++ frame :: c.work.tail ∧
        frame.takes = ts.length ∧
        ∀ c₂, ReachesAbove mode functions (frame :: c.work.tail) c₁ c₂ →
          c₂.work = frame :: c.work.tail →
          ∃ ns, EvaluatesAll mode functions env ts (.ok ns) ∧ c₂.values = ns.reverse ++ c₁.values
  /-- When there is no work left, there is one value. -/
  single : c.work = [] → ∃ n, c.values = [n]
  /-- There is a next move, or an end with a value, or a fault that strict mode alone finds. -/
  progress : (∃ c', step mode functions c = .next c') ∨ (∃ n, step mode functions c = .halt n) ∨
    ∃ fault, step mode functions c = .fault fault ∧ mode = .strict ∧ fault.isRejection = true

theorem Balanced.safe {c : Config} (h : Balanced c.work c.values.length)
    (hw : c.work.all Frame.wellFormed = true) : Safe mode functions c where
  enough := by
    intro frame work hc
    rw [hc] at h
    exact h.1
  pending := by
    intro before pending c' hc hr hc'
    exact hr.passes hc hc'
  scheduled := by
    intro c₁ hs
    obtain ⟨work, values⟩ := c
    obtain - | ⟨frame, work⟩ := work
    · cases values <;> cases hs
    obtain ⟨taken, below, frames, left, rfl, rfl, hm⟩ := exists_move hs
    cases hm.scheduled with
    | value n => exact .inl ⟨n, below, rfl⟩
    | @terms ts env last hlast =>
      refine .inr ⟨ts, env, last, ?_, hlast, ?_⟩
      · simp
      · intro c₂ hr hc₂
        exact (hr.passes (by simp) hc₂).evaluatesAll
  single := by
    intro hc
    rw [hc] at h
    exact List.length_eq_one_iff.mp h
  progress := by
    rcases h.progress with ⟨n, rfl⟩ | hnext | ⟨fault, hs, hr⟩
    · exact .inr (.inl ⟨n, rfl⟩)
    · exact .inl hnext
    · exact .inr (.inr ⟨fault, hs, hr hw⟩)

theorem balanced_of_reaches (hf : functions.wellFormed = true) {c c' : Config}
    (hr : Reaches mode functions c c') (h : Balanced c.work c.values.length)
    (hw : c.work.all Frame.wellFormed = true) :
    Balanced c'.work c'.values.length ∧ c'.work.all Frame.wellFormed = true := by
  induction hr with
  | refl => exact ⟨h, hw⟩
  | tail _ hs ih => exact ⟨ih.1.next hs, wellFormed_next hf ih.2 hs⟩

theorem run_of_balanced (hf : functions.wellFormed = true) (fuel : Nat) {c : Config}
    (h : Balanced c.work c.values.length) (hw : c.work.all Frame.wellFormed = true) :
    (∃ n, run mode functions fuel c = .value n) ∨ run mode functions fuel c = .unfinished ∨
      ∃ fault, run mode functions fuel c = .fault fault ∧ mode = .strict ∧
        fault.isRejection = true := by
  induction fuel generalizing c with
  | zero => exact .inr (.inl rfl)
  | succ fuel ih =>
    rcases h.progress with ⟨n, rfl⟩ | ⟨c', hs⟩ | ⟨fault, hs, hr⟩
    · exact .inl ⟨n, rfl⟩
    · rw [run_succ_of_next hs]
      exact ih (h.next hs) (wellFormed_next hf hw hs)
    · exact .inr (.inr ⟨fault, by rw [run, hs], hr hw⟩)

end Machine

open Machine

/-- How the evaluation of a term that is one all through can stand: with a value, not over, or in strict mode
with a fault. -/
theorem evaluate_of_wellFormed {mode : Mode} {functions : Functions} {t : Term}
    (hf : functions.wellFormed = true) (ht : t.wellFormed = true) (env : Values) (fuel : Nat) :
    (∃ n, evaluate fuel mode t env functions = .value n) ∨
      evaluate fuel mode t env functions = .unfinished ∨
      ∃ fault, evaluate fuel mode t env functions = .fault fault ∧ mode = .strict ∧
        fault.isRejection = true := by
  have hb : Balanced [.eval t env] ([] : List Nat).length := ⟨Nat.le_refl 0, rfl⟩
  have hw : [Frame.eval t env].all Frame.wellFormed = true := by simp [Frame.wellFormed, ht]
  exact run_of_balanced hf fuel hb hw

/-- Whatever well-formed term is evaluated, and whether or not the run ends, both stacks are in balance
wherever the run comes. So it ends with a value, if it ends, or in strict mode with the fault that a name,
a function or an argument is missing or that there is an argument too many. -/
theorem evaluate_stack_safe (mode : Mode) (functions : Functions) (env : Values) (t : Term)
    (hf : functions.wellFormed = true) (ht : t.wellFormed = true) :
    (∀ c, Reaches mode functions ⟨[.eval t env], []⟩ c → Safe mode functions c) ∧
    ∀ fuel, (∃ n, evaluate fuel mode t env functions = .value n) ∨
      evaluate fuel mode t env functions = .unfinished ∨
      ∃ fault, evaluate fuel mode t env functions = .fault fault ∧ mode = .strict ∧
        fault.isRejection = true := by
  have hb : Balanced [.eval t env] ([] : List Nat).length := ⟨Nat.le_refl 0, rfl⟩
  have hw : [Frame.eval t env].all Frame.wellFormed = true := by
    rw [List.all_cons, Frame.wellFormed, ht]
    rfl
  constructor
  · intro c hr
    obtain ⟨hbalanced, hwellFormed⟩ := balanced_of_reaches hf hr hb hw
    exact hbalanced.safe hwellFormed
  · intro fuel
    exact run_of_balanced hf fuel hb hw

/-- A run that never ends, through a function without parameters that is called with an argument. -/
theorem evaluate_stack_safe_forever :
    let functions : Functions := ⟨[("loop", ⟨[], .call "loop" [.zero]⟩)]⟩
    let t : Term := .cond (.succ .zero) (.call "loop" [.var "x"]) .zero .zero
    functions.wellFormed = true ∧ t.wellFormed = true ∧
      ∀ c, Reaches .lenient functions ⟨[.eval t .empty], []⟩ c → Safe .lenient functions c := by
  intro functions t
  have hf : functions.wellFormed = true := by decide +kernel
  have ht : t.wellFormed = true := by decide +kernel
  exact ⟨hf, ht, (evaluate_stack_safe .lenient functions .empty t hf ht).1⟩

end Unary
