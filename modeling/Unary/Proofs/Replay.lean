import Unary.Proofs.Composition
import Unary.Proofs.RoundTrip
import Unary.Proofs.Sessions

/-!
Sessions against one text.

The definitions of a session can always be written, since all of them were read from some text. A source
that is evaluated in the session then has the outcome that it has in a new session after that text, but
for the place of an error in it.
-/

namespace Unary

/-- A failure without the place in the text that it was found at. -/
def Failure.placeless : Failure → Failure
  | .read error => .read ⟨error.cause, 0, .ofOffset [] 0⟩
  | failure => failure

theorem Failure.mapError_placeless_eq_unfinished_iff {α : Type} {x : Except Failure α} :
    x.mapError placeless = .error .unfinished ↔ x = .error .unfinished := by
  cases x with
  | ok a => simp [Except.mapError]
  | error failure => cases failure <;> simp [Except.mapError, placeless]

theorem Script.wellFormed_definitionsIn (source : String) :
    (definitionsIn source).all Definition.wellFormed = true := by
  rw [definitionsIn]
  cases h : parse none source with
  | error error => rfl
  | ok script => exact (wellFormed_iff.mp (wellFormed_of_parse h)).1

theorem Prelude.wellFormed_of_ofText {bounds : Bounds} {text : String} {script : Script}
    (h : ofText bounds text = .ok script) : script.definitions.all Definition.wellFormed = true := by
  obtain ⟨whole, hr, rfl⟩ := map_eq_ok_iff.mp h
  exact Script.definitionsIn_of_read hr ▸ Script.wellFormed_definitionsIn text

namespace Session

variable {bounds : Bounds} {mode : Mode} {choice : PreludeChoice} {env : Environment} {disk : Disk}
  {defs : List Definition} {s₀ : Session}

theorem wellFormed_of_preludeDefinitions
    (h : preludeDefinitions bounds env disk choice = .ok defs) :
    defs.all Definition.wellFormed = true := by
  cases choice with
  | none =>
    cases h
    rfl
  | configured =>
    obtain ⟨script, hl, rfl⟩ := map_eq_ok_iff.mp h
    obtain ⟨text, -, ht⟩ := bind_eq_ok_iff.mp hl
    exact Prelude.wellFormed_of_ofText ht
  | text source =>
    obtain ⟨script, ht, rfl⟩ := map_eq_ok_iff.mp h
    exact Prelude.wellFormed_of_ofText ht

/-- All definitions that a session comes to have can be written. -/
theorem wellFormed_definitions_after (h : start bounds mode choice env disk = .ok s₀)
    (history : List (Bounds × Operation)) :
    (s₀.after history).definitions.all Definition.wellFormed = true := by
  obtain ⟨defs, hprelude, hdefs⟩ := start_eq_ok_iff.mp h
  obtain ⟨-, hfirst, -⟩ := of_ofDefinitions hdefs
  rw [definitions_after, hfirst, List.all_append, wellFormed_of_preludeDefinitions hprelude,
    Bool.true_and, List.all_flatMap]
  exact List.all_eq_true.mpr fun source _ => Script.wellFormed_definitionsIn source

/-- In a new session, a source after a text of definitions has the outcome that it has alone in a session
with these definitions. -/
theorem outcome_append (s fresh : Session) {text : String}
    (h : Script.parse none text = .ok ⟨s.definitions, none⟩) (hfresh : fresh.definitions = [])
    (hmode : fresh.mode = s.mode) (fuel : Nat) (code : String) :
    (s.outcome ⟨none, fuel⟩ code).mapError Failure.placeless =
      (fresh.outcome ⟨none, fuel⟩ (text ++ "\n" ++ code)).mapError Failure.placeless := by
  have hinside : Bounds.inside ⟨none, fuel⟩ 1 = ⟨none, fuel⟩ := rfl
  rcases Script.parse_append_newline h code with ⟨script, hc, hw⟩ | ⟨cause, offset, hc, hw⟩
  · -- Both are extended to one script, and from there on the mode is all that is asked for.
    have he : s.extend ⟨none, fuel⟩ code = .ok (script.after s.definitions) := by
      rw [extend, Script.read_none, hc]
      rfl
    have he' : fresh.extend ⟨none, fuel⟩ (text ++ "\n" ++ code) =
        .ok (script.after s.definitions) := by
      rw [extend, Script.read_none, hw, hfresh]
      rfl
    rw [outcome, outcome, hinside, he, he', hmode]
  · rw [outcome, outcome, hinside, extend, extend, Script.read_none, Script.read_none, hc, hw]
    rfl

theorem mapError_eval (bounds : Bounds) (s : Session) (source : String) :
    (s.eval bounds source).1.mapError Failure.placeless =
      Prod.fst <$> (s.outcome bounds source).mapError Failure.placeless := by
  rw [eval_fst]
  cases s.outcome bounds source <;> rfl

theorem eval_mono {s s' : Session} {limit : Option Nat} {fuel fuel' : Nat} (hle : fuel ≤ fuel')
    {source : String} {value : Option Nat} (h : s.eval ⟨limit, fuel⟩ source = (.ok value, s')) :
    s.eval ⟨limit, fuel'⟩ source = (.ok value, s') := by
  obtain ⟨script, hs, hp, hr, hm, hd⟩ := eval_eq_ok_iff.mp h
  exact eval_eq_ok_iff.mpr
    ⟨script, hs, Program.ofScript_mono hle hp, Program.run_mono hle hr, hm, hd⟩

/-- A session is as good as one text: the definitions of a session that has been through any history are
written as a text, and every source has in a new session after that text the outcome that it has in the
session. Where both succeed, the sessions after it are the same. -/
theorem eval_replay (bounds : Bounds) (mode : Mode) (choice : PreludeChoice) (env : Environment)
    (disk : Disk) (s₀ : Session) (hstart : start bounds mode choice env disk = .ok s₀)
    (history : List (Bounds × Operation)) :
    let s := s₀.after history
    ∃ text fresh, Script.format none .plain ⟨s.definitions, none⟩ = .ok text ∧
      (∀ bounds env disk, start bounds mode .none env disk = .ok fresh) ∧
      ∀ code,
        (∀ fuel, (s.eval ⟨none, fuel⟩ code).1.mapError Failure.placeless =
          (fresh.eval ⟨none, fuel⟩ (text ++ "\n" ++ code)).1.mapError Failure.placeless) ∧
        ((∀ fuel, (s.eval ⟨none, fuel⟩ code).1 = .error .unfinished) ↔
          ∀ fuel, (fresh.eval ⟨none, fuel⟩ (text ++ "\n" ++ code)).1 = .error .unfinished) ∧
        ∀ fuel fuel' value value' s' fresh', s.eval ⟨none, fuel⟩ code = (.ok value, s') →
          fresh.eval ⟨none, fuel'⟩ (text ++ "\n" ++ code) = (.ok value', fresh') →
          value = value' ∧ s' = fresh' := by
  intro s
  let script : Script := ⟨s.definitions, none⟩
  let fresh : Session := ⟨mode, [], .empty⟩
  have hw : script.wellFormed = true :=
    Script.wellFormed_iff.mpr ⟨wellFormed_definitions_after hstart history, rfl⟩
  have hmode : fresh.mode = s.mode := by
    obtain ⟨defs, -, hdefs⟩ := start_eq_ok_iff.mp hstart
    rw [mode_after, (of_ofDefinitions hdefs).1]
  have houtcome := outcome_append s fresh (script.parse_write hw) rfl hmode
  have heval (fuel : Nat) (code : String) := congrArg (Prod.fst <$> ·) (houtcome fuel code)
  simp only [← mapError_eval] at heval
  refine ⟨_, fresh, script.format_none .plain hw, fun _ _ _ => rfl, fun code => ⟨?_, ?_, ?_⟩⟩
  · exact fun fuel => heval fuel code
  · refine forall_congr' fun fuel => ?_
    rw [← Failure.mapError_placeless_eq_unfinished_iff, heval,
      Failure.mapError_placeless_eq_unfinished_iff]
  · -- Neither amount of fuel need be enough for the other side, but the larger one is.
    intro fuel fuel' value value' s' fresh' hs hf
    have hsame := houtcome (max fuel fuel') code
    rw [eval_eq_ok_iff_outcome.mp (eval_mono (Nat.le_max_left fuel fuel') hs),
      eval_eq_ok_iff_outcome.mp (eval_mono (Nat.le_max_right fuel fuel') hf)] at hsame
    cases hsame
    exact ⟨rfl, rfl⟩

/-- A function that is defined again after a value that calls it, with a text that is no script between. -/
theorem eval_replay_redefined :
    let bounds : Bounds := ⟨none, 20⟩
    let nothing : Disk := ⟨fun _ => .error .missing⟩
    let prelude := PreludeChoice.text "def f(x) = s(x) f(z)"
    let s₀ : Session := ⟨.strict, [.function "f" ["x"] (.succ (.var "x"))],
      ⟨⟨[("f", ⟨["x"], .succ (.var "x")⟩)]⟩, .empty, none⟩⟩
    let history := [(bounds, .eval "def a = f(z) a"), (bounds, .eval "def a = s("),
      (bounds, Operation.eval "def f(x) = z")]
    start bounds .strict prelude .empty nothing = .ok s₀ ∧
      ∃ text fresh fresh', Script.format none .plain ⟨(s₀.after history).definitions, none⟩ = .ok text ∧
        start bounds .strict .none .empty nothing = .ok fresh ∧
        fresh.eval bounds (text ++ "\n" ++ "s(a)") = (.ok (some 1), fresh') ∧
        fresh'.program.values = ⟨[("a", 0)]⟩ := by
  intro bounds nothing prelude s₀ history
  have hstart : start bounds .strict prelude .empty nothing = .ok s₀ := by decide +kernel
  obtain ⟨text, fresh, hformat, hfresh, h⟩ :=
    eval_replay bounds .strict prelude .empty nothing s₀ hstart history
  have hsame := (h "s(a)").1 20
  have heval : ∃ s', (s₀.after history).eval ⟨none, 20⟩ "s(a)" = (.ok (some 1), s') ∧
      s'.program.values = ⟨[("a", 0)]⟩ := by
    refine ⟨⟨.strict, (s₀.after history).definitions, ⟨⟨[("f", ⟨["x"], .zero⟩)]⟩, ⟨[("a", 0)]⟩,
      some (.succ (.var "a"))⟩⟩, ?_, rfl⟩
    decide +kernel
  obtain ⟨s', he, hv⟩ := heval
  rw [he] at hsame
  -- The new session has the same value, and then it is the same session.
  have hvalue : (fresh.eval ⟨none, 20⟩ (text ++ "\n" ++ "s(a)")).1 = .ok (some 1) :=
    mapError_eq_ok_iff.mp hsame.symm
  obtain ⟨-, hsessions⟩ := (h "s(a)").2.2 20 20 _ _ _ _ he (Prod.ext hvalue rfl)
  exact ⟨hstart, text, fresh, s', hformat, hfresh _ _ _, Prod.ext hvalue hsessions.symm, hv⟩

end Session

end Unary
