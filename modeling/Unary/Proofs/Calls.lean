import Unary.Proofs.Faults
import Unary.Proofs.Fuel
import Unary.Proofs.Nesting
import Unary.Proofs.Replay

/-!
Calls from outside against calls that are written.

A call in a term finds its arguments and then goes on as a call with those numbers does. So in a session,
calling a function with numbers and evaluating the text of the call with numerals end in the same way, or
neither ends. However large the numbers are, the text nests no deeper than three.
-/

namespace Unary

/-- The text of a call with numerals for its arguments. -/
def callText (name : String) (ns : List Nat) : String :=
  String.ofList (name.toList ++
    '(' :: Text.commaSeparated (ns.map fun n => Text.nested n ['s', '('] ['z']) ++ [')'])

section Texts

theorem Expr.writeArgs_numerals (ns : List Nat) (rest : List Char) :
    writeArgs .plain (ns.map numeral) rest =
      Text.commaSeparated (ns.map fun n => Text.nested n ['s', '('] ['z']) ++ rest := by
  have hnumeral (n : Nat) (rest : List Char) : (numeral n).writeInside .plain 0 rest =
      Text.nested n ['s', '('] ['z'] ++ rest := by
    rw [← write_append, write_numeral]
    rfl
  induction ns with
  | nil => rfl
  | cons n ns ih =>
    cases ns with
    | nil => simp [writeArgs, hnumeral, Text.commaSeparated]
    | cons m ns =>
      rw [List.map_cons, List.map_cons] at ih ⊢
      rw [writeArgs_cons_cons, ih, hnumeral]
      simp [Text.commaSeparated]

/-- The text is how the call is written as an expression. -/
theorem callText_eq (name : String) (ns : List Nat) :
    callText name ns = String.ofList ((Expr.call name (ns.map Expr.numeral)).write .plain) := by
  rw [Expr.write, Expr.writeInside, Expr.writeArgs_numerals]
  simp [callText, Palette.name, Palette.plain, Pen.plain]

theorem Expr.wellFormed_call_numerals {name : String} (hname : isName name = true) {ns : List Nat}
    (hne : ns ≠ []) : (call name (ns.map numeral)).wellFormed = true := by
  have hall : allWellFormed (ns.map numeral) = true := by
    simp [allWellFormed_eq, wellFormed_numeral]
  exact wellFormed_call_iff.mpr ⟨hname, by simpa using hne, hall⟩

end Texts

/-- The text of a call is read as the call of numerals. -/
theorem Script.read_callText {name : String} (hname : isName name = true) {ns : List Nat}
    (hne : ns ≠ []) {bounds : Bounds} (hroom : exceeds bounds.depth (readingFrames + 3) = false) :
    read bounds (callText name ns) = .ok ⟨[], some (.call name (ns.map Expr.numeral))⟩ := by
  let e : Expr := .call name (ns.map Expr.numeral)
  have hparse : parse none (callText name ns) = .ok ⟨[], some e⟩ := by
    rw [callText_eq]
    exact parse_write_expression (Expr.wellFormed_call_numerals hname hne)
  have hnesting : (Script.mk [] (some e)).nesting ≤ 3 := by
    have hall := Expr.nestingAll_numerals_le ns 2
    rw [nesting_expression, Expr.nestingFrom, Nat.zero_add]
    omega
  exact read_of_nesting_le hparse hnesting hroom

/-- A fault of a call from outside as it is when the call is written: it says which function it calls. -/
def Fault.inCallOf (name : String) : Fault → Fault
  | .arity none expected got => .arity (some name) expected got
  | fault => fault

def Failure.inCallOf (name : String) : Failure → Failure
  | .eval fault => .eval (fault.inCallOf name)
  | failure => failure

/-- What evaluating a call gives where calling gives this result. -/
def asWritten (name : String) (result : Except Failure Nat) : Except Failure (Option Nat) :=
  (some <$> result).mapError (Failure.inCallOf name)

theorem asWritten_eq_unfinished_iff (name : String) (result : Except Failure Nat) :
    asWritten name result = .error .unfinished ↔ result = .error .unfinished := by
  cases result with
  | ok n => simp [asWritten, Functor.map, Except.map, Except.mapError]
  | error failure =>
    cases failure <;> simp [asWritten, Functor.map, Except.map, Except.mapError, Failure.inCallOf]

namespace Machine

variable {mode : Mode} {functions : Functions}

/-- Every fault of arity that the machine meets says which function was called. -/
theorem inCallOf_of_step {c : Config} {fault : Fault} (h : step mode functions c = .fault fault)
    (name : String) : fault.inCallOf name = fault := by
  obtain ⟨work, values⟩ := c
  cases work with
  | nil => cases values <;> cases h
  | cons frame work =>
    cases frame with
    | eval t env =>
      rcases progress_eval mode functions t env work values with ⟨c, hs⟩ | ⟨found, hs, hfaulty⟩
      · rw [hs] at h
        cases h
      · rw [hs] at h
        cases h
        cases hfaulty <;> rfl
    | succ => cases values <;> cases h
    | branch yes no env => obtain - | ⟨n, - | ⟨m, values⟩⟩ := values <;> cases h
    | apply f count =>
      simp only [step] at h
      split at h <;> cases h

theorem inCallOf_of_run {fuel : Nat} {c : Config} {fault : Fault}
    (h : run mode functions fuel c = .fault fault) (name : String) :
    fault.inCallOf name = fault := by
  induction fuel generalizing c with
  | zero => cases h
  | succ fuel ih =>
    rw [run] at h
    cases hs : step mode functions c with
    | next c' =>
      rw [hs] at h
      exact ih h
    | fault found =>
      rw [hs] at h
      cases h
      exact inCallOf_of_step hs name
    | halt n =>
      rw [hs] at h
      cases h
    | stuck =>
      rw [hs] at h
      cases h

end Machine

theorem inCallOf_ofFault {fault : Fault} {name : String} (h : fault.inCallOf name = fault)
    (limit : Option Nat) : (Failure.ofFault limit fault).inCallOf name = .ofFault limit fault := by
  cases fault with
  | notTerm node =>
    rw [Failure.ofFault]
    split <;> rfl
  | _ => exact congrArg Failure.eval h

theorem asWritten_evaluate (limit : Option Nat) (name : String) (fuel : Nat) (mode : Mode) (t : Term)
    (env : Values) (functions : Functions) :
    asWritten name ((evaluate fuel mode t env functions).toExcept limit) =
      some <$> (evaluate fuel mode t env functions).toExcept limit := by
  cases ho : evaluate fuel mode t env functions with
  | fault fault =>
    have hf := inCallOf_ofFault (Machine.inCallOf_of_run ho name) (remaining limit 1)
    simp [asWritten, Machine.Outcome.toExcept, Functor.map, Except.map, Except.mapError, hf]
  | _ => rfl

/-- The terms of numerals. -/
def numeralTerms (ns : List Nat) : List Term :=
  ns.map fun n => (Expr.numeral n).toTerm

theorem toTerm_call_numerals (name : String) (ns : List Nat) :
    (Expr.call name (ns.map Expr.numeral)).toTerm = .call name (numeralTerms ns) := by
  rw [Expr.toTerm, numeralTerms]
  congr 1
  induction ns with
  | nil => rfl
  | cons n ns ih => rw [List.map_cons, List.map_cons, Expr.toTerms, ih]

theorem evaluatesAll_numeralTerms (mode : Mode) (functions : Functions) (env : Values)
    (ns : List Nat) : EvaluatesAll mode functions env (numeralTerms ns) (.ok ns) := by
  induction ns with
  | nil => exact .nil
  | cons n ns ih => exact .cons (evaluates_numeral mode functions env n) ih

/-- A call that is not refused finds its arguments and then evaluates the body as a call from outside. -/
theorem exists_evaluate_call {mode : Mode} {functions : Functions} {name : String} {f : Lambda}
    (hf : functions.get? name = some f) {ns : List Nat} (hr : f.refuses mode ns.length = false)
    (env : Values) :
    ∃ moves, ∀ fuel, evaluate (moves + fuel) mode (.call name (numeralTerms ns)) env functions =
      evaluate fuel mode f.body (f.bind (ns.take f.arity)) functions := by
  have hlen (ns : List Nat) : (numeralTerms ns).length = ns.length := List.length_map _
  have hmode : mode = .strict → (numeralTerms ns).length = f.params.length := by
    rintro rfl
    simpa [Lambda.refuses, Lambda.arity, hlen] using hr
  have htake : (numeralTerms ns).take f.params.length = numeralTerms (ns.take f.params.length) :=
    List.map_take.symm
  have hargs := evaluatesAll_numeralTerms mode functions env (ns.take f.params.length)
  rw [← htake] at hargs
  exact exists_evaluate_body hf hmode hargs

namespace Session

/-- In a term, the call does what it does from outside after some moves. -/
theorem exists_evaluate_eq_call (s : Session) (hw : s.program.functions.wellFormed = true)
    {args : List Argument} {ns : List Nat} (hargs : Argument.toNats args = .ok ns) (name : String)
    (env : Values) (limit limit' : Option Nat) :
    ∃ moves, ∀ fuel, some <$> (evaluate (moves + fuel) s.mode (.call name (numeralTerms ns)) env
        s.program.functions).toExcept limit = asWritten name (s.call ⟨limit', fuel⟩ name args) := by
  let call := Term.call name (numeralTerms ns)
  cases hf : s.program.functions.get? name with
  | none =>
    refine ⟨2, fun fuel => ?_⟩
    rw [Nat.add_comm]
    simp only [Session.call, Functions.lookup, hf]
    cases s.mode with
    | lenient =>
      have hzero : evaluate (fuel + 2) .lenient call env s.program.functions = .value 0 := by
        simp [call, evaluate, Machine.run, Machine.step, Machine.eval, Functions.lookup, hf]
      rw [hzero]
      rfl
    | strict =>
      have hfault : evaluate (fuel + 2) .strict call env s.program.functions =
          .fault (.unknownFunction name) := by
        simp [call, evaluate, Machine.run, Machine.step, Machine.eval, Functions.lookup, hf]
      rw [hfault]
      rfl
  | some f =>
    have hcall (fuel : Nat) : s.call ⟨limit', fuel⟩ name args =
        (f.apply fuel s.mode ns s.program.functions).toExcept (remaining limit' 2) := by
      simp [Session.call, Functions.lookup, hf, hargs, Except.mapError, bind, Except.bind]
    cases hr : f.refuses s.mode ns.length with
    | true =>
      refine ⟨1, fun fuel => ?_⟩
      have hlen : (numeralTerms ns).length = ns.length := List.length_map _
      have hfault : evaluate (fuel + 1) s.mode call env s.program.functions =
          .fault (.arity (some name) f.arity ns.length) := by
        simp [call, evaluate, Machine.run, Machine.step, Machine.eval, Functions.lookup, hf, hr, hlen]
      rw [Nat.add_comm, hcall, hfault, Lambda.apply, if_pos hr]
      rfl
    | false =>
      have hbody : f.body.wellFormed = true := Functions.wellFormed_body hw hf
      obtain ⟨moves, hm⟩ := exists_evaluate_call hf hr env
      refine ⟨moves, fun fuel => ?_⟩
      rw [hm, hcall, Lambda.apply, hr, if_neg Bool.false_ne_true, ← asWritten_evaluate limit name,
        evaluate_limit s.mode limit (remaining limit' 2) fuel hw hbody]

/-- In a settled session, an expression alone is evaluated with the functions and values there are. -/
theorem Settled.exists_eval_expression {s : Session} (hs : s.Settled) {limit : Option Nat}
    {source : String} {e : Expr}
    (hread : ∀ fuel, Script.read (Bounds.inside ⟨limit, fuel⟩ 1) source = .ok ⟨[], some e⟩)
    (he : e.wellFormed = true) :
    ∃ least, ∀ fuel ≥ least, (s.eval ⟨limit, fuel⟩ source).1 = some <$>
      (evaluate fuel s.mode e.toTerm s.program.values s.program.functions).toExcept (remaining limit 1) := by
  obtain ⟨least, hl⟩ := hs
  obtain ⟨hf, hv, -⟩ := Program.ofScript_eq_ok_iff.mp hl
  have hprogram : Program.ofScript least s.mode ⟨s.definitions, some e⟩ =
      .ok ⟨s.program.functions, s.program.values, some e.toTerm⟩ :=
    Program.ofScript_eq_ok_iff.mpr ⟨hf, hv, Program.lowerResult_eq none he⟩
  refine ⟨least.fuel, fun fuel hle => ?_⟩
  have hextend : s.extend (Bounds.inside ⟨limit, fuel⟩ 1) source = .ok ⟨s.definitions, some e⟩ := by
    rw [extend, hread]
    simp [Functor.map, Except.map, Script.after]
  have hmade : Program.ofScript (Bounds.inside ⟨limit, fuel⟩ 1) s.mode ⟨s.definitions, some e⟩ =
      .ok ⟨s.program.functions, s.program.values, some e.toTerm⟩ := Program.ofScript_mono hle hprogram
  rw [eval_fst, outcome, hextend]
  simp only [bind, Except.bind, hmade, Program.run, Bounds.fuel_inside, Bounds.depth_inside]
  cases (evaluate fuel s.mode e.toTerm s.program.values s.program.functions).toExcept _ <;> rfl

theorem Settled.trails_call {s : Session} (hs : s.Settled) (hw : s.program.functions.wellFormed = true)
    {name : String} (hname : isName name = true) {args : List Argument} {ns : List Nat}
    (hargs : Argument.toNats args = .ok ns) (hne : ns ≠ []) {limit : Option Nat}
    (hroom : exceeds limit (Script.readingFrames + 4) = false) :
    Trails (asWritten name) (fun fuel => s.call ⟨limit, fuel⟩ name args)
      (fun fuel => (s.eval ⟨limit, fuel⟩ (callText name ns)).1) := by
  refine ⟨asWritten_eq_unfinished_iff name, ?_⟩
  have hinside : exceeds (remaining limit 1) (Script.readingFrames + 3) = false := by
    rw [exceeds_remaining _ _ (by simp), Nat.add_comm]
    exact hroom
  have hread : ∀ fuel, Script.read (Bounds.inside ⟨limit, fuel⟩ 1) (callText name ns) =
      .ok ⟨[], some (.call name (ns.map Expr.numeral))⟩ :=
    fun fuel => Script.read_callText hname hne hinside
  obtain ⟨least, hl⟩ := hs.exists_eval_expression hread (Expr.wellFormed_call_numerals hname hne)
  obtain ⟨moves, hm⟩ := s.exists_evaluate_eq_call hw hargs name s.program.values (remaining limit 1) limit
  refine ⟨least, moves, fun fuel hle => ?_⟩
  rw [hl _ (by omega), toTerm_call_numerals, hm]

/-- The functions of a session were all read from some text. -/
theorem wellFormed_functions_after {bounds : Bounds} {mode : Mode} {choice : PreludeChoice}
    {env : Environment} {disk : Disk} {s₀ : Session} (h : start bounds mode choice env disk = .ok s₀)
    (history : List (Bounds × Operation)) : (s₀.after history).program.functions.wellFormed = true := by
  have hds := wellFormed_definitions_after h history
  obtain ⟨defs, -, hdefs⟩ := start_eq_ok_iff.mp h
  obtain ⟨least, hl⟩ : (s₀.after history).Settled := (of_ofDefinitions hdefs).2.2.after history
  obtain ⟨hfunctions, -⟩ := Program.of_ofScript (Script.wellFormed_iff.mpr ⟨hds, rfl⟩) hl
  have hf : (s₀.after history).program.functions =
      .ofList ((s₀.after history).definitions.filterMap Definition.function?) := hfunctions
  rw [hf]
  exact Program.wellFormed_functions hds

/-- In every session, calling a function with numbers and evaluating the text of the call with numerals end
in the same way, or both go on forever. Where they fail, the failure is the same one, but for the name of
the function, which the text adds where the number of arguments is wrong. -/
theorem call_agrees_with_eval (bounds : Bounds) (mode : Mode) (choice : PreludeChoice)
    (env : Environment) (disk : Disk) (s₀ : Session)
    (hstart : start bounds mode choice env disk = .ok s₀) (history : List (Bounds × Operation))
    (name : String) (hname : isName name = true) (args : List Argument) (ns : List Nat)
    (hargs : Argument.toNats args = .ok ns) (hne : args ≠ []) (limit : Option Nat)
    (hroom : exceeds limit (Script.readingFrames + 4) = false) :
    let s := s₀.after history
    let called := fun fuel => s.call ⟨limit, fuel⟩ name args
    let evaluated := fun fuel => (s.eval ⟨limit, fuel⟩ (callText name ns)).1
    (∀ n, Ends called (.ok n) ↔ Ends evaluated (.ok (some n))) ∧
    (∀ failure, Ends evaluated (.error failure) ↔
      ∃ cause, Ends called (.error cause) ∧ cause.inCallOf name = failure) ∧
    (Endless called ↔ Endless evaluated) ∧
    ((∃ result, Ends called result) ∨ Endless called) := by
  intro s called evaluated
  obtain ⟨defs, -, hdefs⟩ := start_eq_ok_iff.mp hstart
  have hs : s.Settled := (of_ofDefinitions hdefs).2.2.after history
  have hns : ns ≠ [] := by
    rintro rfl
    cases args with
    | nil => exact hne rfl
    | cons a as =>
      obtain ⟨n, -, ha⟩ := bind_eq_ok_iff.mp hargs
      obtain ⟨ns, -, ha⟩ := bind_eq_ok_iff.mp ha
      cases ha
  have htrails : Trails (asWritten name) called evaluated :=
    hs.trails_call (wellFormed_functions_after hstart history) hname hargs hns hroom
  have hcalled : Stable called := s.stable_call limit name args
  have hevaluated : Stable evaluated := s.stable_eval limit (callText name ns)
  refine ⟨fun n => ?_, fun failure => ?_, ?_, hcalled.ends_or_endless⟩
  · rw [htrails.ends_iff hcalled hevaluated]
    constructor
    · exact fun h => ⟨.ok n, h, rfl⟩
    · rintro ⟨m | m, h, hm⟩ <;> cases hm
      exact h
  · rw [htrails.ends_iff hcalled hevaluated]
    constructor
    · rintro ⟨cause | n, h, hc⟩ <;> cases hc
      exact ⟨cause, h, rfl⟩
    · rintro ⟨cause, h, rfl⟩
      exact ⟨.error cause, h, rfl⟩
  · exact htrails.endless_iff hcalled hevaluated

/-- A function that was defined again takes two arguments, and the text of a call with one says so, with just the
frames that are needed to read it. -/
theorem call_agrees_with_eval_missing_argument :
    let bounds : Bounds := ⟨none, 20⟩
    let nothing : Disk := ⟨fun _ => .error .missing⟩
    let prelude := PreludeChoice.text "def f(x) = s(x)"
    let s₀ : Session := ⟨.strict, [.function "f" ["x"] (.succ (.var "x"))],
      ⟨⟨[("f", ⟨["x"], .succ (.var "x")⟩)]⟩, .empty, none⟩⟩
    let history := [(bounds, .eval "def f(x, y) = f(y, x) f(z)"),
      (bounds, Operation.eval "def f(x, y) = f(y, x)")]
    start bounds .strict prelude .empty nothing = .ok s₀ ∧ isName "f" = true ∧
      Argument.toNats [.int 2] = .ok [2] ∧ exceeds (some 12) (Script.readingFrames + 4) = false ∧
      Ends (fun fuel => ((s₀.after history).eval ⟨some 12, fuel⟩ "f(s(s(z)))").1)
        (.error (.eval (.arity (some "f") 2 1))) := by
  intro bounds nothing prelude s₀ history
  have hstart : start bounds .strict prelude .empty nothing = .ok s₀ := by decide +kernel
  have hcall : (s₀.after history).call ⟨some 12, 0⟩ "f" [.int 2] = .error (.eval (.arity none 2 1)) := by
    decide +kernel
  have hends : Ends (fun fuel => (s₀.after history).call ⟨some 12, fuel⟩ "f" [.int 2])
      (.error (.eval (.arity none 2 1))) := by
    refine ⟨by simp, 0, fun fuel hle => ?_⟩
    have hsame := stable_call (s₀.after history) (some 12) "f" [.int 2] hle (by simp [hcall])
    exact hsame.trans hcall
  obtain ⟨-, hfailure, -⟩ := call_agrees_with_eval bounds .strict prelude .empty nothing s₀ hstart
    history "f" (by decide +kernel) [.int 2] [2] rfl (List.cons_ne_nil _ _) (some 12) rfl
  refine ⟨hstart, by decide +kernel, rfl, rfl, ?_⟩
  exact (hfailure (.eval (.arity (some "f") 2 1))).mpr ⟨_, hends, rfl⟩

end Session

end Unary
