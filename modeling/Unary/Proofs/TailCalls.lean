import Unary.Proofs.Arithmetic
import Unary.Proofs.Balance

/-!
The room that a run takes, and why tail calls take none.

`Term.room` is the room that a term takes on both stacks together, if it is known how much each function
takes for its body. A call gives its own place to the body, so a function that is called from a tail
position may need as much as the one that calls it. If every other call goes to a function of a lower rank,
there is such an amount for each function, and a run never takes more, however long it is.
-/

namespace Unary

namespace Term

mutual

/-- The functions that a term calls anywhere in it. A node that is no term calls none. -/
def calls : Term → List String
  | zero => []
  | succ arg => calls arg
  | var _ => []
  | call callee args => callee :: callsAll args
  | cond left right yes no => calls left ++ calls right ++ calls yes ++ calls no
  | equation _ _ => []
  | text _ => []

def callsAll : List Term → List String
  | [] => []
  | t :: ts => calls t ++ callsAll ts

end

/-- The functions that a term calls from a tail position: the term itself, or a branch of a conditional that
is in such a position. -/
def tailCalls : Term → List String
  | call callee _ => [callee]
  | cond _ _ yes no => tailCalls yes ++ tailCalls no
  | _ => []

/-- The functions that a term calls from any other position: in the argument of a call, in an operand of a
conditional, or under a successor. -/
def innerCalls : Term → List String
  | succ arg => arg.calls
  | call _ args => callsAll args
  | cond left right yes no => left.calls ++ right.calls ++ innerCalls yes ++ innerCalls no
  | _ => []

mutual

/-- The room that a term takes on both stacks, with `body` for the body of each function that it calls. -/
def room (body : String → Nat) : Term → Nat
  | zero => 1
  | succ arg => room body arg + 1
  | var _ => 1
  | call callee args => max (body callee) (args.length + 1 + roomAll body args)
  | cond left right yes no =>
    max (max (room body left) (room body right) + 2) (max (room body yes) (room body no))
  | equation _ _ => 1
  | text _ => 1

/-- The most room that one of the terms takes. -/
def roomAll (body : String → Nat) : List Term → Nat
  | [] => 0
  | t :: ts => max (room body t) (roomAll body ts)

end

theorem room_pos (body : String → Nat) : ∀ t : Term, 0 < t.room body
  | zero | var _ | equation _ _ | text _ => by simp [room]
  | succ _ | call _ _ | cond _ _ _ _ => by simp only [room]; omega

theorem roomAll_take_le (body : String → Nat) (ts : List Term) (k : Nat) :
    roomAll body (ts.take k) ≤ roomAll body ts := by
  induction ts generalizing k with
  | nil => simp
  | cons t ts ih =>
    cases k with
    | zero => exact Nat.zero_le _
    | succ k =>
      have hrest := ih k
      simp only [List.take_succ_cons, roomAll]
      omega

section Bodies

variable {body : String → Nat} {most : Nat}

mutual

/-- If no function that is called takes more than `most` for its body, a term takes no more than that beyond
what it takes itself. -/
theorem room_le_add : ∀ {t : Term}, (∀ callee ∈ t.calls, body callee ≤ most) →
    t.room body ≤ t.room (fun _ => 0) + most
  | zero, _ | var _, _ | equation _ _, _ | text _, _ => by simp only [room]; omega
  | succ arg, h => by
    have harg : arg.room body ≤ arg.room (fun _ => 0) + most := room_le_add h
    simp only [room]
    omega
  | call callee args, h => by
    obtain ⟨hcallee, hrest⟩ := List.forall_mem_cons.mp h
    have hargs := roomAll_le_add hrest
    simp only [room]
    omega
  | cond left right yes no, h => by
    simp only [calls, List.forall_mem_append] at h
    obtain ⟨⟨⟨hleft, hright⟩, hyes⟩, hno⟩ := h
    have hl := room_le_add hleft
    have hr := room_le_add hright
    have hy := room_le_add hyes
    have hn := room_le_add hno
    simp only [room]
    omega

theorem roomAll_le_add : ∀ {ts : List Term}, (∀ callee ∈ callsAll ts, body callee ≤ most) →
    roomAll body ts ≤ roomAll (fun _ => 0) ts + most
  | [], _ => Nat.zero_le _
  | t :: ts, h => by
    obtain ⟨hfirst, hrest⟩ := List.forall_mem_append.mp h
    have ht := room_le_add hfirst
    have hts := roomAll_le_add hrest
    simp only [roomAll]
    omega

end

/-- A body that itself takes no more than `own` stays within `most + own`, if its inner calls leave it `own`
and its tail calls leave it nothing. -/
theorem room_le_of_tailCalls {own : Nat} : ∀ {t : Term}, (∀ callee ∈ t.innerCalls, body callee ≤ most) →
    (∀ callee ∈ t.tailCalls, body callee ≤ most + own) → t.room (fun _ => 0) ≤ own →
    t.room body ≤ most + own
  | zero, _, _, hown | var _, _, _, hown | equation _ _, _, _, hown | text _, _, _, hown => by
    simp only [room] at hown ⊢
    omega
  | succ arg, hinner, _, hown => by
    have harg : arg.room body ≤ arg.room (fun _ => 0) + most := room_le_add hinner
    simp only [room] at hown ⊢
    omega
  | call callee args, hinner, htail, hown => by
    have hcallee : body callee ≤ most + own := htail callee (List.mem_singleton_self callee)
    have hargs := roomAll_le_add hinner
    simp only [room] at hown ⊢
    omega
  | cond left right yes no, hinner, htail, hown => by
    simp only [innerCalls, List.forall_mem_append] at hinner
    obtain ⟨⟨⟨hleft, hright⟩, hinnerYes⟩, hinnerNo⟩ := hinner
    obtain ⟨htailYes, htailNo⟩ := List.forall_mem_append.mp htail
    simp only [room] at hown ⊢
    have hl := room_le_add hleft
    have hr := room_le_add hright
    have hy := room_le_of_tailCalls hinnerYes htailYes (by omega)
    have hn := room_le_of_tailCalls hinnerNo htailNo (by omega)
    omega

end Bodies

end Term

namespace Machine

variable {mode : Mode} {functions : Functions} {body : String → Nat} {bound : Nat}

/-- The room that a frame takes, with the values that it finds. -/
def Frame.room (body : String → Nat) : Frame → Nat
  | .eval t _ => t.room body
  | .succ => 2
  | .branch yes no _ => max 3 (max (yes.room body) (no.room body))
  | .apply f count => max (count + 1) (f.body.room body)

theorem Frame.takes_lt_room (body : String → Nat) (frame : Frame) : frame.takes < frame.room body := by
  cases frame with
  | eval t env => exact t.room_pos body
  | succ => exact Nat.lt_succ_self 1
  | branch yes no env => simp only [takes, room]; omega
  | apply f count => simp only [takes, room]; omega

/-- Whether every frame has its room within a bound when it is done, above the frames and the values that
are there at that time. -/
def Fits (body : String → Nat) (bound : Nat) : List Frame → Nat → Prop
  | [], height => height ≤ bound
  | frame :: work, height =>
    work.length + (height - frame.takes) + frame.room body ≤ bound ∧
      Fits body bound work (height - frame.takes + 1)

theorem Fits.length_le {c : Config} (h : Fits body bound c.work c.values.length)
    (hb : Balanced c.work c.values.length) : c.work.length + c.values.length ≤ bound := by
  obtain ⟨work, values⟩ := c
  cases work with
  | nil =>
    have hvalues : values.length ≤ bound := h
    simpa using hvalues
  | cons frame work =>
    have hfirst := h.1
    have htakes : frame.takes ≤ values.length := hb.1
    have hroom := frame.takes_lt_room body
    simp only [List.length_cons] at *
    omega

theorem fits_terms {ts : List Term} (env : Values) {work : List Frame} {height : Nat}
    (hts : work.length + height + ts.length + Term.roomAll body ts ≤ bound + 1)
    (h : Fits body bound work (height + ts.length)) :
    Fits body bound (ts.map (.eval · env) ++ work) height := by
  induction ts generalizing height with
  | nil => exact h
  | cons t ts ih =>
    simp only [List.length_cons, Term.roomAll] at hts h
    have hheight : height + (ts.length + 1) = height + 1 + ts.length := by omega
    rw [hheight] at h
    rw [List.map_cons, List.cons_append]
    refine ⟨?_, ih (by omega) h⟩
    simp only [List.length_append, List.length_map, Frame.takes, Frame.room]
    omega

/-- Terms and a frame that takes their values fit in the place of a frame that had the room for them. -/
theorem fits_scheduled (ts : List Term) (env : Values) {frame : Frame} {work : List Frame} {height : Nat}
    (htakes : frame.takes = ts.length)
    (hts : work.length + height + ts.length + Term.roomAll body ts ≤ bound)
    (hframe : work.length + height + frame.room body ≤ bound)
    (h : Fits body bound work (height + 1)) :
    Fits body bound (ts.map (.eval · env) ++ frame :: work) height := by
  have hleft : height + ts.length - frame.takes = height := by omega
  refine fits_terms env ?_ ⟨?_, ?_⟩
  · rw [List.length_cons]
    omega
  · rw [hleft]
    exact hframe
  · rw [hleft]
    exact h

/-- What a move puts in the place of a term fits where the term fits. -/
theorem fits_eval (hbody : ∀ name f, functions.get? name = some f → f.body.room body ≤ body name)
    {t : Term} {env : Values} {work : List Frame} {values : List Nat} {c : Config}
    (ht : work.length + values.length + t.room body ≤ bound)
    (h : Fits body bound work (values.length + 1))
    (hs : step mode functions ⟨.eval t env :: work, values⟩ = .next c) :
    Fits body bound c.work c.values.length := by
  cases t with
  | zero =>
    cases hs
    exact h
  | succ arg =>
    cases hs
    have harg := arg.room_pos body
    simp only [Term.room] at ht
    refine fits_scheduled [arg] env rfl ?_ ?_ h
    · simp only [List.length_singleton, Term.roomAll]
      omega
    · simp only [Frame.room]
      omega
  | var name =>
    cases hx : env.lookup mode name with
    | error fault => simp [step, eval, hx] at hs
    | ok n =>
      simp only [step, eval, hx] at hs
      cases hs
      exact h
  | cond left right yes no =>
    cases hs
    have hleft := left.room_pos body
    simp only [Term.room] at ht
    refine fits_scheduled [left, right] env rfl ?_ ?_ h
    · simp only [List.length_cons, List.length_nil, Term.roomAll]
      omega
    · simp only [Frame.room]
      omega
  | call callee args =>
    cases hf : functions.get? callee with
    | none =>
      cases mode with
      | strict => simp [step, eval, Functions.lookup, hf] at hs
      | lenient =>
        simp only [step, eval, Functions.lookup, hf] at hs
        cases hs
        exact h
    | some f =>
      by_cases hm : mode = .strict → args.length = f.params.length
      · rw [step_call_of_some hf hm env work values] at hs
        cases hs
        have hcallee := hbody callee f hf
        have hargs := Term.roomAll_take_le body args f.params.length
        have hlength := List.length_take_le' f.params.length args
        simp only [Term.room] at ht
        dsimp only
        refine fits_scheduled _ env rfl ?_ ?_ h
        · omega
        · simp only [Frame.room]
          omega
      · obtain ⟨rfl, hne⟩ := Classical.not_imp.mp hm
        simp [step, eval, Functions.lookup, hf, Lambda.refuses, Lambda.arity, hne] at hs
  | equation left right => cases hs
  | text content => cases hs

theorem Fits.next (hbody : ∀ name f, functions.get? name = some f → f.body.room body ≤ body name)
    {c c' : Config} (h : Fits body bound c.work c.values.length)
    (hs : step mode functions c = .next c') : Fits body bound c'.work c'.values.length := by
  obtain ⟨work, values⟩ := c
  obtain - | ⟨frame, work⟩ := work
  · cases values <;> cases hs
  obtain ⟨hfirst, hrest⟩ := h
  cases frame with
  | eval t env => exact fits_eval hbody hfirst hrest hs
  | succ =>
    obtain - | ⟨n, values⟩ := values
    · cases hs
    cases hs
    exact hrest
  | branch yes no env =>
    obtain - | ⟨right, - | ⟨left, values⟩⟩ := values
    · cases hs
    · cases hs
    cases hs
    have hchosen : (if left = right then yes else no).room body ≤
        max (yes.room body) (no.room body) := by
      split
      · exact Nat.le_max_left _ _
      · exact Nat.le_max_right _ _
    simp only [Frame.room, Frame.takes, List.length_cons] at hfirst
    refine ⟨?_, hrest⟩
    simp only [Frame.takes, Frame.room]
    omega
  | apply f count =>
    by_cases hlen : (values.take count).length = count
    · simp only [step, if_pos hlen] at hs
      cases hs
      simp only [Frame.room, Frame.takes] at hfirst
      simp only [List.length_drop]
      refine ⟨?_, hrest⟩
      simp only [Frame.takes, Frame.room]
      omega
    · simp only [step, if_neg hlen] at hs
      cases hs

/-- A run never takes more room than the term that it starts with. -/
theorem length_le_room (hbody : ∀ name f, functions.get? name = some f → f.body.room body ≤ body name)
    {t : Term} {env : Values} {c : Config} (hr : Reaches mode functions ⟨[.eval t env], []⟩ c) :
    c.work.length + c.values.length ≤ t.room body := by
  have hinv : Fits body (t.room body) c.work c.values.length ∧
      Balanced c.work c.values.length := by
    induction hr with
    | refl => exact ⟨⟨by simp [Frame.room], t.room_pos body⟩, Nat.le_refl 0, rfl⟩
    | tail _ hs ih => exact ⟨ih.1.next hbody hs, ih.2.next hs⟩
  exact hinv.1.length_le hinv.2

end Machine

open Machine

namespace Functions

/-- Ranks of names under which the inner calls of every function go to functions of a lower rank, and its tail
calls to functions of no higher one. Calls of functions that are not there do not count. -/
def Ranked (functions : Functions) (rank : String → Nat) : Prop :=
  ∀ name f, functions.get? name = some f →
    (∀ callee ∈ f.body.innerCalls, functions.contains callee = true → rank callee < rank name) ∧
    ∀ callee ∈ f.body.tailCalls, functions.contains callee = true → rank callee ≤ rank name

/-- The room for the body of a function: for each rank up to its own what one body takes by itself. -/
def bodyRoom (functions : Functions) (rank : String → Nat) (own : Nat) (name : String) : Nat :=
  if functions.contains name then rank name * own + own else 0

variable {functions : Functions} {rank : String → Nat}

theorem exists_own (functions : Functions) :
    ∃ own, ∀ name f, functions.get? name = some f → f.body.room (fun _ => 0) ≤ own := by
  have hentries : ∃ own, ∀ entry ∈ functions.entries, entry.2.body.room (fun _ => 0) ≤ own := by
    induction functions.entries with
    | nil => exact ⟨0, by simp⟩
    | cons entry rest ih =>
      obtain ⟨own, hown⟩ := ih
      refine ⟨max (entry.2.body.room fun _ => 0) own, List.forall_mem_cons.mpr ⟨?_, ?_⟩⟩
      · exact Nat.le_max_left _ _
      · exact fun other hmem => Nat.le_trans (hown other hmem) (Nat.le_max_right _ _)
  obtain ⟨own, hown⟩ := hentries
  exact ⟨own, fun name f hf => hown (name, f) (Table.mem_entries_of_get? hf)⟩

theorem Ranked.room_le_bodyRoom (h : functions.Ranked rank) {own : Nat}
    (hown : ∀ name f, functions.get? name = some f → f.body.room (fun _ => 0) ≤ own) {name : String}
    {f : Lambda} (hf : functions.get? name = some f) :
    f.body.room (functions.bodyRoom rank own) ≤ functions.bodyRoom rank own name := by
  obtain ⟨hinner, htail⟩ := h name f hf
  have hname : functions.bodyRoom rank own name = rank name * own + own := by
    simp [bodyRoom, Table.contains, hf]
  rw [hname]
  refine Term.room_le_of_tailCalls ?_ ?_ (hown name f hf)
  · intro callee hmem
    rw [bodyRoom]
    split
    · next hc =>
      -- A lower rank leaves room for the body itself.
      rw [← Nat.succ_mul]
      exact Nat.mul_le_mul_right own (hinner callee hmem hc)
    · exact Nat.zero_le _
  · intro callee hmem
    rw [bodyRoom]
    split
    · next hc => exact Nat.add_le_add_right (Nat.mul_le_mul_right own (htail callee hmem hc)) own
    · exact Nat.zero_le _

/-- Ranks may be checked entry by entry. -/
theorem ranked_of_entries (h : ∀ entry ∈ functions.entries,
    (∀ callee ∈ entry.2.body.innerCalls, functions.contains callee = true →
      rank callee < rank entry.1) ∧
    ∀ callee ∈ entry.2.body.tailCalls, functions.contains callee = true →
      rank callee ≤ rank entry.1) : functions.Ranked rank :=
  fun name f hf => h (name, f) (Table.mem_entries_of_get? hf)

end Functions

namespace Prelude

/-- The ranks of the standard functions: counting, then what counts, then what repeats that. -/
def standardRank (name : String) : Nat :=
  if name = "predIt" ∨ name = "pred" then 0 else if name = "add" ∨ name = "sub" then 1 else 2

theorem ranked_standardFunctions : standardFunctions.Ranked standardRank :=
  Functions.ranked_of_entries (by decide +kernel)

end Prelude

/-- Tail calls take no room. If the functions have ranks under which only tail calls go to a function of the
same rank, then both stacks stay within a bound that depends on the term and the functions alone: not on the
values, the mode or the number of calls that a run makes. The functions of the standard prelude have such
ranks. -/
theorem evaluate_room_bounded :
    (∀ (functions : Functions) (rank : String → Nat), functions.Ranked rank → ∀ t : Term,
      ∃ bound, ∀ mode env c, Reaches mode functions ⟨[.eval t env], []⟩ c →
        c.work.length ≤ bound ∧ c.values.length ≤ bound) ∧
    ∃ script program, Script.parse none Prelude.standard = .ok script ∧
      (∀ fuel mode, Program.ofScript fuel mode script = .ok program) ∧
      program.functions.names = ["predIt", "pred", "add", "sub", "mulAcc", "mul", "max"] ∧
      ∃ rank, program.functions.Ranked rank := by
  constructor
  · intro functions rank hranked t
    obtain ⟨own, hown⟩ := functions.exists_own
    refine ⟨t.room (functions.bodyRoom rank own), fun mode env c hr => ?_⟩
    have hlength := length_le_room (fun name f hf => hranked.room_le_bodyRoom hown hf) hr
    omega
  · exact ⟨_, _, Prelude.parse_standard, Prelude.ofScript_standardScript, rfl, _,
      Prelude.ranked_standardFunctions⟩

/-- A search of the prelude that never ends, in the argument of a product. -/
theorem evaluate_room_bounded_forever :
    let t : Term := .call "mul" [.call "predIt" [.var "x", .zero], .zero]
    Prelude.standardFunctions.Ranked Prelude.standardRank ∧
      ∃ bound, ∀ mode env c, Reaches mode Prelude.standardFunctions ⟨[.eval t env], []⟩ c →
        c.work.length ≤ bound ∧ c.values.length ≤ bound := by
  intro t
  exact ⟨Prelude.ranked_standardFunctions,
    evaluate_room_bounded.1 Prelude.standardFunctions Prelude.standardRank
      Prelude.ranked_standardFunctions t⟩

end Unary
