import Unary.Proofs.Elaboration
import Unary.Proofs.Programs
import Unary.Proofs.RoundTrip
import Unary.Term.Format

/-!
Writing a program and lowering it back.

A program is written as the script `Program.toScript`: its functions, its values as numerals and its final
term. In a program that was lowered from a parsed script every name stands once in its table and can be
written, so the text is parsed as that script, and lowering the script gives the program again in either
mode.
-/

namespace Unary

section Terms

mutual

/-- A term is written as the expression that is the same tree. -/
theorem Term.writeInside_toExpr (p : Palette) (n : Nat) (rest : List Char) :
    ∀ t : Term, t.toExpr.writeInside p n rest = t.writeInside p n rest
  | .zero => rfl
  | .succ arg => Term.writeInside_toExpr p (n + 1) rest arg
  | .var _ => rfl
  | .call _ args => by
    rw [Term.toExpr, Expr.writeInside, Term.writeInside, Term.writeArgs_toExprs p _ args]
  | .cond left right yes no => by
    simp only [Term.toExpr, Expr.writeInside, Term.writeInside, Term.writeInside_toExpr p 0 _ left,
      Term.writeInside_toExpr p 0 _ right, Term.writeInside_toExpr p 0 _ yes,
      Term.writeInside_toExpr p 0 _ no]
  | .equation _ _ => rfl
  | .text _ => rfl

theorem Term.writeArgs_toExprs (p : Palette) (rest : List Char) :
    ∀ ts : List Term, Expr.writeArgs p (Term.toExprs ts) rest = Term.writeArgs p ts rest
  | [] => rfl
  | [t] => Term.writeInside_toExpr p 0 rest t
  | t :: u :: ts => by
    have hts := Term.writeArgs_toExprs p rest (u :: ts)
    rw [Term.toExprs] at hts
    rw [Term.toExprs, Term.toExprs, Expr.writeArgs_cons_cons, hts, Term.writeInside_toExpr p 0 _ t]
    rfl

end

mutual

/-- Without a limit, every term can be written. -/
theorem Term.checkWrite_none (p : Palette) (depth : Nat) :
    ∀ t : Term, t.wellFormed = true → t.checkWrite none p depth = .ok ()
  | .zero, _ => rfl
  | .succ arg, ht => by
    rw [wellFormed] at ht
    exact Term.checkWrite_none p (depth + 1) arg ht
  | .var _, _ => rfl
  | .call _ args, ht => by
    rw [wellFormed] at ht
    rw [checkWrite, Term.checkWriteAll_none p (depth + 2) args ht]
    rfl
  | .cond left right yes no, ht => by
    obtain ⟨hl, hr, hy, hn⟩ := wellFormed_cond_iff.mp ht
    rw [checkWrite, Term.checkWrite_none p _ left hl, Term.checkWrite_none p _ right hr,
      Term.checkWrite_none p _ yes hy, Term.checkWrite_none p _ no hn]
    rfl

theorem Term.checkWriteAll_none (p : Palette) (depth : Nat) :
    ∀ ts : List Term, allWellFormed ts = true → checkWriteAll none p depth ts = .ok ()
  | [], _ => rfl
  | t :: ts, hts => by
    obtain ⟨ht, hts⟩ := allWellFormed_cons_iff.mp hts
    rw [checkWriteAll, Term.checkWrite_none p depth t ht, Term.checkWriteAll_none p depth ts hts]
    rfl

end

end Terms

section Numerals

theorem Expr.writeInside_addSucc (p : Palette) (k n : Nat) (e : Expr) (rest : List Char) :
    (addSucc n e).writeInside p k rest = e.writeInside p (k + n) rest := by
  induction n generalizing e with
  | zero => rfl
  | succ n ih => rw [addSucc, ih, writeInside, Nat.add_assoc]

/-- A number is written as the numeral that evaluates to it. -/
theorem Expr.write_numeral (p : Palette) (n : Nat) : (numeral n).write p = p.numeral n := by
  rw [write, numeral, writeInside_addSucc, Nat.zero_add, writeInside]
  simp [Palette.openSucc, Palette.closeSucc, Palette.numeral, Text.nested]

/-- Each successor around an expression takes the writer one frame deeper, if what is in them goes as deep as
the word of a constructor. -/
theorem Expr.checkWrite_addSucc {limit : Option Nat} {p : Palette} {e : Expr} {m : Nat}
    (h : ∀ depth, e.checkWrite limit p depth = FormatError.check limit (depth + m + p.constructors.frames))
    (n depth : Nat) :
    (addSucc n e).checkWrite limit p depth =
      FormatError.check limit (depth + (m + n) + p.constructors.frames) := by
  induction n generalizing e m with
  | zero => exact h depth
  | succ n ih =>
    have hsucc (depth : Nat) : (succ e).checkWrite limit p depth =
        FormatError.check limit (depth + (m + 1) + p.constructors.frames) := by
      rw [checkWrite, h, FormatError.check_max, Nat.max_eq_right (by omega)]
      congr 1
      omega
    rw [addSucc, ih hsucc, Nat.add_assoc m, Nat.add_comm 1]

/-- A numeral is written if there is room for the word of its zero, which is the deepest. -/
theorem Expr.format_numeral_within (limit : Option Nat) (p : Palette) (n : Nat) :
    (numeral n).format limit p = if exceeds limit (2 + n + p.constructors.frames) then .error .tooDeep
      else .ok (String.ofList (p.numeral n)) := by
  have hzero (depth : Nat) : zero.checkWrite limit p depth =
      FormatError.check limit (depth + 0 + p.constructors.frames) := rfl
  rw [format, write_numeral, numeral, checkWrite_addSucc hzero, Nat.zero_add]
  exact FormatError.check_bind limit _ _

theorem Expr.wellFormed_addSucc (n : Nat) (e : Expr) :
    (addSucc n e).wellFormed = e.wellFormed := by
  induction n generalizing e with
  | zero => rfl
  | succ n ih => rw [addSucc, ih, wellFormed]

theorem Expr.wellFormed_numeral (n : Nat) : (numeral n).wellFormed = true :=
  wellFormed_addSucc n zero

theorem evaluates_addSucc {mode : Mode} {functions : Functions} {env : Values} {e : Expr} {m : Nat}
    (h : Evaluates mode functions env e.toTerm (.ok m)) (n : Nat) :
    Evaluates mode functions env (Expr.addSucc n e).toTerm (.ok (m + n)) := by
  induction n generalizing e m with
  | zero => exact h
  | succ n ih =>
    have hs : Evaluates mode functions env (Expr.succ e).toTerm (.ok (m + 1)) := by
      rw [Expr.toTerm]
      exact .succ h
    have hn := ih hs
    rw [Nat.add_right_comm, Nat.add_assoc] at hn
    exact hn

/-- A numeral has its number as value in every mode and with any names in scope. -/
theorem evaluates_numeral (mode : Mode) (functions : Functions) (env : Values) (n : Nat) :
    Evaluates mode functions env (Expr.numeral n).toTerm (.ok n) := by
  have hz : Evaluates mode functions env Expr.zero.toTerm (.ok 0) := .zero
  have hn := evaluates_addSucc hz n
  rw [Nat.zero_add] at hn
  exact hn

end Numerals

namespace Program

/-- The definition that an entry of the table of functions stands for. -/
def functionDefinition (entry : String × Lambda) : Definition :=
  .function entry.1 entry.2.params entry.2.body.toExpr

/-- The definition that gives a name its value by a numeral. -/
def valueDefinition (entry : String × Nat) : Definition :=
  .value entry.1 (.numeral entry.2)

/-- The script that a program is written as. -/
def toScript (program : Program) : Script :=
  ⟨program.functions.entries.map functionDefinition ++ program.values.entries.map valueDefinition,
    program.result.map Term.toExpr⟩

theorem write_functionDefinition (p : Palette) (entry : String × Lambda) :
    (functionDefinition entry).write p = writeFunction p entry.1 entry.2 := by
  rw [functionDefinition, Definition.write, writeFunction, Expr.write, Term.write,
    Term.writeInside_toExpr]

theorem write_valueDefinition (p : Palette) (entry : String × Nat) :
    (valueDefinition entry).write p = writeValue p entry.1 entry.2 := by
  rw [valueDefinition, Definition.write, writeValue, Expr.write_numeral]

theorem write_toScript (p : Palette) (program : Program) :
    program.toScript.write p = program.write p := by
  have hr : (fun t : Term => t.toExpr.write p) = fun t : Term => t.write p := by
    funext t
    exact Term.writeInside_toExpr p 0 [] t
  simp only [Script.write, write, toScript, List.map_append, List.map_map, Option.map_map,
    Function.comp_def, write_functionDefinition, write_valueDefinition, hr]

/-- Whether a program can be written so that nothing of it is lost: each name stands once in its table,
and all that is written is well formed. -/
structure Faithful (program : Program) : Prop where
  functions : program.functions.names.Nodup
  values : program.values.names.Nodup
  script : program.toScript.wellFormed = true

/-- What every new value keeps, lowering keeps. -/
theorem of_lowerValues {P : Values → Prop} {bounds : Bounds} {mode : Mode} {functions : Functions}
    {defs : List Definition} {values values' : Values}
    (hstep : ∀ name body, .value name body ∈ defs → ∀ (values : Values) (n : Nat), P values →
      P (values.insert name n))
    (h : lowerValues bounds mode functions values defs = .ok values') (hv : P values) :
    P values' := by
  induction defs generalizing values with
  | nil =>
    cases h
    exact hv
  | cons d defs ih =>
    have htail : ∀ name body, .value name body ∈ defs → ∀ (values : Values) (n : Nat), P values →
        P (values.insert name n) :=
      fun name body hm => hstep name body (List.mem_cons_of_mem d hm)
    cases d with
    | function name params body => exact ih htail h hv
    | value name body =>
      obtain ⟨t, -, h⟩ := bind_eq_ok_iff.mp h
      obtain ⟨n, -, h⟩ := bind_eq_ok_iff.mp h
      exact ih htail h (hstep name body List.mem_cons_self values n hv)

/-- An entry of the table of functions stands for the definition that it was made from. -/
theorem functionDefinition_mem {defs : List Definition} {entry : String × Lambda}
    (h : entry ∈ defs.filterMap Definition.function?) : functionDefinition entry ∈ defs := by
  obtain ⟨d, hd, hmade⟩ := List.mem_filterMap.mp h
  cases d with
  | value name body => cases hmade
  | function name params body =>
    cases hmade
    rw [functionDefinition, Expr.toExpr_toTerm]
    exact hd

theorem nodup_names_of_lowerValues {bounds : Bounds} {mode : Mode} {functions : Functions}
    {defs : List Definition} {values : Values}
    (h : lowerValues bounds mode functions .empty defs = .ok values) : values.names.Nodup := by
  refine of_lowerValues (P := fun values => values.names.Nodup) ?_ h List.nodup_nil
  intro name body _ values n hn
  exact Table.nodup_names_insert hn name n

theorem isName_of_lowerValues {bounds : Bounds} {mode : Mode} {functions : Functions}
    {defs : List Definition} (hds : defs.all Definition.wellFormed = true) {values : Values}
    (h : lowerValues bounds mode functions .empty defs = .ok values) :
    ∀ name ∈ values.names, isName name = true := by
  refine of_lowerValues (P := fun values => ∀ name ∈ values.names, isName name = true) ?_ h ?_
  · intro name body hm values n ih other ho
    have hname := (Definition.wellFormed_value_iff.mp (List.all_eq_true.mp hds _ hm)).1
    rw [Table.names_insert] at ho
    split at ho
    · exact ih other ho
    · rcases List.mem_append.mp ho with ho | ho
      · exact ih other ho
      · rw [List.mem_singleton.mp ho]
        exact hname
  · intro name hn
    cases hn

/-- What is lowered from a well-formed script can be written so that nothing is lost. -/
theorem faithful_of_ofScript {script : Script} (hs : script.wellFormed = true) {bounds : Bounds}
    {mode : Mode} {program : Program} (h : ofScript bounds mode script = .ok program) :
    program.Faithful := by
  obtain ⟨hds, hres⟩ := Script.wellFormed_iff.mp hs
  obtain ⟨-, hv, -⟩ := ofScript_eq_ok_iff.mp h
  obtain ⟨hfunctions, hresult⟩ := of_ofScript hs h
  refine ⟨?_, nodup_names_of_lowerValues hv, Script.wellFormed_iff.mpr ⟨?_, ?_⟩⟩
  · rw [hfunctions]
    exact Table.nodup_names_ofList _
  · rw [toScript, List.all_append, List.all_map, List.all_map, Bool.and_eq_true,
      List.all_eq_true, List.all_eq_true]
    constructor
    · intro entry he
      rw [hfunctions] at he
      exact List.all_eq_true.mp hds _ (functionDefinition_mem (Table.mem_of_mem_ofList he))
    · intro entry he
      have hname := isName_of_lowerValues hds hv entry.1 (List.mem_map_of_mem he)
      exact Definition.wellFormed_value_iff.mpr ⟨hname, Expr.wellFormed_numeral entry.2⟩
  · simpa [toScript, hresult, Option.map_map, Function.comp_def] using hres

/-- The terms of a program that are written: the bodies of its functions, and the final term. -/
def terms (program : Program) : List Term :=
  program.functions.entries.map (fun entry => entry.2.body) ++ program.result.toList

theorem Faithful.allWellFormed_terms {program : Program} (h : program.Faithful) :
    Term.allWellFormed program.terms = true := by
  obtain ⟨hds, hr⟩ := Script.wellFormed_iff.mp h.script
  rw [toScript, List.all_append, Bool.and_eq_true, List.all_map, List.all_eq_true] at hds
  rw [toScript, Option.all_map, Option.all_eq_true] at hr
  rw [Term.allWellFormed_iff]
  intro t ht
  rcases List.mem_append.mp ht with ht | ht
  · obtain ⟨entry, he, rfl⟩ := List.mem_map.mp ht
    exact entry.2.body.wellFormed_of_toExpr (Definition.wellFormed_function_iff.mp (hds.1 entry he)).2.2
  · exact t.wellFormed_of_toExpr (hr t (Option.mem_toList.mp ht))

theorem format_of_allWellFormed (p : Palette) {program : Program}
    (h : Term.allWellFormed program.terms = true) :
    program.format none p = .ok (String.ofList (program.write p)) := by
  have hcheck : program.checkWrite none p = .ok () := Term.checkWriteAll_none p 2 _ h
  rw [format, hcheck]
  rfl

theorem format_none (p : Palette) {program : Program} (h : program.Faithful) :
    program.format none p = .ok (String.ofList (program.write p)) :=
  format_of_allWellFormed p h.allWellFormed_terms

theorem filterMap_function?_toScript (program : Program) :
    program.toScript.definitions.filterMap Definition.function? = program.functions.entries := by
  have hf : Definition.function? ∘ functionDefinition = some := by
    funext entry
    rw [Function.comp_apply, functionDefinition, Definition.function?, Term.toTerm_toExpr]
  have hv : Definition.function? ∘ valueDefinition = fun _ => none := rfl
  rw [toScript, List.filterMap_append, List.filterMap_map, List.filterMap_map, hf, hv]
  simp

theorem lowerValues_functionDefinitions (bounds : Bounds) (mode : Mode) (functions : Functions)
    (values : Values) (entries : List (String × Lambda)) (defs : List Definition) :
    lowerValues bounds mode functions values (entries.map functionDefinition ++ defs) =
      lowerValues bounds mode functions values defs := by
  induction entries with
  | nil => rfl
  | cons entry entries ih => exact ih

theorem exists_lowerValues_valueDefinitions (mode : Mode) (functions : Functions) (values : Values)
    (entries : List (String × Nat)) :
    ∃ least, ∀ limit, ∀ fuel ≥ least,
      lowerValues ⟨limit, fuel⟩ mode functions values (entries.map valueDefinition) =
        .ok (entries.foldl (fun t entry => t.insert entry.1 entry.2) values) := by
  induction entries generalizing values with
  | nil => exact ⟨0, fun _ _ _ => rfl⟩
  | cons entry entries ih =>
    obtain ⟨least, hl⟩ := (evaluates_numeral mode functions values entry.2).exists_least
    obtain ⟨rest, hr⟩ := ih (values.insert entry.1 entry.2)
    refine ⟨max least rest, fun limit fuel hle => ?_⟩
    have hn := hl fuel (Nat.le_trans (Nat.le_max_left least rest) hle)
    have hs := hr limit fuel (Nat.le_trans (Nat.le_max_right least rest) hle)
    rw [List.map_cons, valueDefinition, lowerValues, lowerExpr_eq _ (Expr.wellFormed_numeral entry.2)]
    simp only [bind, Except.bind, hn, Machine.Outcome.toExcept]
    exact hs

/-- The script that a program is written as is lowered to the program, in either mode. -/
theorem exists_ofScript_toScript {program : Program} (h : program.Faithful) (mode : Mode) :
    ∃ least, ∀ limit, ∀ fuel ≥ least, ofScript ⟨limit, fuel⟩ mode program.toScript = .ok program := by
  obtain ⟨hds, hr⟩ := Script.wellFormed_iff.mp h.script
  obtain ⟨least, hl⟩ := exists_lowerValues_valueDefinitions mode program.functions .empty
    program.values.entries
  refine ⟨least, fun limit fuel hle => ofScript_eq_ok_iff.mpr ⟨?_, ?_, ?_⟩⟩
  · rw [lowerFunctions_eq none hds, filterMap_function?_toScript, Table.ofList_entries h.functions]
  · rw [toScript, lowerValues_functionDefinitions, hl none fuel hle]
    exact congrArg Except.ok (Table.ofList_entries h.values)
  · rw [lowerResult_eq none hr, toScript, Option.map_map]
    simp [Function.comp_def]

/-- A program that was lowered from a text is written as a text that is lowered to the same program
again, in either mode. -/
theorem ofScript_parse_format (source : String) (script : Script) (bounds : Bounds) (mode : Mode)
    (program : Program) (hs : Script.parse none source = .ok script)
    (hp : ofScript bounds mode script = .ok program) :
    ∃ text script', program.format none .plain = .ok text ∧
      Script.parse none text = .ok script' ∧
      ∀ mode', (∃ least, ∀ limit, ∀ fuel ≥ least,
          ofScript ⟨limit, fuel⟩ mode' script' = .ok program) ∧
        ∀ bounds' program', ofScript bounds' mode' script' = .ok program' →
          program' = program ∧ program'.format none .plain = .ok text ∧
            ∀ k m, program'.run k m = program.run k m := by
  have hf := faithful_of_ofScript (Script.wellFormed_of_parse hs) hp
  have hformat := format_none .plain hf
  have hparse := Script.parse_write program.toScript hf.script
  rw [write_toScript] at hparse
  refine ⟨_, program.toScript, hformat, hparse, fun mode' => ?_⟩
  obtain ⟨least, hl⟩ := exists_ofScript_toScript hf mode'
  refine ⟨⟨least, hl⟩, fun bounds' program' h' => ?_⟩
  obtain rfl := ofScript_unique h' (hl none least (Nat.le_refl least))
  exact ⟨rfl, hformat, fun k m => rfl⟩

/-- A function and a value of one name, both defined twice, and names that strict mode would refuse in the
first text but not in the second one. -/
theorem ofScript_parse_format_redefined :
    let source := "def x = s(y) def f(x) = x def x = f(z, s(x)) def f(a, a) = s(a) def f = x f(x, g(f))"
    let program : Program := ⟨⟨[("f", ⟨["a", "a"], .succ (.var "a")⟩)]⟩, ⟨[("x", 3), ("f", 3)]⟩,
      some (.call "f" [.var "x", .call "g" [.var "f"]])⟩
    (∃ script, Script.parse none source = .ok script ∧
      ofScript ⟨none, 30⟩ .lenient script = .ok program ∧
      ofScript ⟨none, 30⟩ .strict script = .error (.eval (.unbound "y"))) ∧
    ∃ script' bounds, Script.parse none
        "def f(a, a) = s(a)\ndef x = s(s(s(z)))\ndef f = s(s(s(z)))\nf(x, g(f))" = .ok script' ∧
      ofScript bounds .strict script' = .ok program := by
  intro source program
  let script : Script := ⟨[.value "x" (.succ (.var "y")), .function "f" ["x"] (.var "x"),
    .value "x" (.call "f" [.zero, .succ (.var "x")]), .function "f" ["a", "a"] (.succ (.var "a")),
    .value "f" (.var "x")], some (.call "f" [.var "x", .call "g" [.var "f"]])⟩
  have hs : Script.parse none source = .ok script := by decide +kernel
  have hp : ofScript ⟨none, 30⟩ .lenient script = .ok program := by decide +kernel
  refine ⟨⟨script, hs, hp, by decide +kernel⟩, ?_⟩
  obtain ⟨text, script', hf, ht, hm⟩ := ofScript_parse_format source script ⟨none, 30⟩ .lenient program hs hp
  have he : program.format none .plain =
      .ok "def f(a, a) = s(a)\ndef x = s(s(s(z)))\ndef f = s(s(s(z)))\nf(x, g(f))" := by
    decide +kernel
  rw [he] at hf
  cases hf
  obtain ⟨least, hl⟩ := (hm .strict).1
  exact ⟨script', ⟨none, least⟩, ht, hl none least (Nat.le_refl least)⟩

end Program

end Unary
