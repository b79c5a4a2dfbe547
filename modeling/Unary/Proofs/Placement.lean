import Unary.Proofs.Fuel
import Unary.Proofs.Scoping

/-!
Where functions are defined makes no difference.

A script comes to its table of functions before it comes to its values, and the last function of a name is
the one in the table. Evaluation asks the table for names and nothing else. So functions may be moved among
the other definitions, and those that a later one replaces may be left out or added.
-/

namespace Unary

namespace Definition

/-- The name and the expression of the definition of a value. -/
def value? : Definition → Option (String × Expr)
  | .value name body => some (name, body)
  | .function .. => none

/-- The parameters and the body that a definition gives the function of a name. -/
def functionOf? (name : String) : Definition → Option (List String × Expr)
  | .value .. => none
  | .function defined params body => if defined = name then some (params, body) else none

end Definition

namespace Script

/-- The last function of a name. -/
def function? (s : Script) (name : String) : Option (List String × Expr) :=
  (s.definitions.filterMap (Definition.functionOf? name)).getLast?

/-- The table of the functions of a script. -/
def functions (s : Script) : Functions :=
  .ofList (s.definitions.filterMap Definition.function?)

/-- The same values in the same order, the same last function of every name, and the same final expression. -/
structure Rearranges (s s' : Script) : Prop where
  values : s.definitions.filterMap Definition.value? = s'.definitions.filterMap Definition.value?
  functions : ∀ name, s.function? name = s'.function? name
  result : s.result = s'.result

end Script

/-- Programs that differ at most in how their functions are arranged. -/
structure Program.Equivalent (p p' : Program) : Prop where
  values : p.values = p'.values
  result : p.result = p'.result
  functions : ∀ name, p.functions.get? name = p'.functions.get? name

theorem filterMap_function?_named (defs : List Definition) (name : String) :
    ((defs.filterMap Definition.function?).filterMap
        fun entry => if entry.1 = name then some entry.2 else none) =
      (defs.filterMap (Definition.functionOf? name)).map
        fun found => ⟨found.1, found.2.toTerm⟩ := by
  rw [List.filterMap_filterMap, List.map_filterMap]
  congr 1
  funext d
  cases d with
  | value defined body => rfl
  | function defined params body =>
    by_cases hname : defined = name <;> simp [Definition.function?, Definition.functionOf?, hname]

/-- The table of functions has the last function of each name. -/
theorem Script.get?_functions (s : Script) (name : String) :
    s.functions.get? name = (s.function? name).map fun found => ⟨found.1, found.2.toTerm⟩ := by
  rw [functions, Table.get?_ofList, filterMap_function?_named, List.getLast?_map]
  rfl

namespace Program

/-- Definitions of functions are passed over when the values are found. -/
theorem lowerValues_eq (bounds : Bounds) (mode : Mode) (functions : Functions) (values : Values)
    (defs : List Definition) :
    lowerValues bounds mode functions values defs =
      lowerValues bounds mode functions values
        ((defs.filterMap Definition.value?).map fun entry => .value entry.1 entry.2) := by
  induction defs generalizing values with
  | nil => rfl
  | cons d defs ih =>
    cases d with
    | function name params body => exact ih values
    | value name body => simp only [Definition.value?, List.filterMap_cons, List.map_cons, lowerValues, ih]

theorem lowerValues_congr {functions functions' : Functions}
    (h : ∀ name, functions.get? name = functions'.get? name) (bounds : Bounds) (mode : Mode)
    (values : Values) (defs : List Definition) :
    lowerValues bounds mode functions values defs = lowerValues bounds mode functions' values defs := by
  induction defs generalizing values with
  | nil => rfl
  | cons d defs ih =>
    cases d with
    | function name params body => exact ih values
    | value name body => simp only [lowerValues, evaluate_congr h, ih]

theorem ofScript_eq {s : Script} (hs : ∀ d ∈ s.definitions, d.body.toTerm.wellFormed = true)
    (bounds : Bounds) (mode : Mode) :
    ofScript bounds mode s = do
      let values ← lowerValues (bounds.inside 1) mode s.functions .empty s.definitions
      let result ← lowerResult (bounds.inside 1).depth s.result
      return ⟨s.functions, values, result⟩ := by
  rw [ofScript, lowerFunctions_eq_foldl _ .empty hs]
  rfl

end Program

open Program

/-- Functions may be put anywhere. If two scripts define the same values in the same order, have the same
last function of every name and the same final expression, then both come to programs with the same values
and the same final term, whose functions agree on every look-up, or both fail in the same way, or neither
comes to an end. -/
theorem ofScript_of_rearranges (mode : Mode) (s s' : Script)
    (hs : ∀ d ∈ s.definitions, d.body.toTerm.wellFormed = true)
    (hs' : ∀ d ∈ s'.definitions, d.body.toTerm.wellFormed = true) (h : s.Rearranges s') :
    (∀ bounds, (∃ program program', ofScript bounds mode s = .ok program ∧
        ofScript bounds mode s' = .ok program' ∧ program.Equivalent program') ∨
      ∃ failure, ofScript bounds mode s = .error failure ∧ ofScript bounds mode s' = .error failure) ∧
    ∀ limit, Endless (fun fuel => ofScript ⟨limit, fuel⟩ mode s) ↔
      Endless fun fuel => ofScript ⟨limit, fuel⟩ mode s' := by
  have hfunctions (name : String) : s.functions.get? name = s'.functions.get? name := by
    rw [Script.get?_functions, Script.get?_functions, h.functions]
  have hvalues (bounds : Bounds) : lowerValues bounds mode s.functions .empty s.definitions =
      lowerValues bounds mode s'.functions .empty s'.definitions := by
    rw [lowerValues_eq, h.values, ← lowerValues_eq, lowerValues_congr hfunctions]
  have hsame (bounds : Bounds) : (∃ program program', ofScript bounds mode s = .ok program ∧
        ofScript bounds mode s' = .ok program' ∧ program.Equivalent program') ∨
      ∃ failure, ofScript bounds mode s = .error failure ∧ ofScript bounds mode s' = .error failure := by
    rw [ofScript_eq hs, ofScript_eq hs', hvalues, h.result]
    -- The values and the final term now come from the same computations on both sides.
    cases lowerValues (bounds.inside 1) mode s'.functions .empty s'.definitions with
    | error failure => exact .inr ⟨failure, rfl, rfl⟩
    | ok values =>
      cases lowerResult (bounds.inside 1).depth s'.result with
      | error failure => exact .inr ⟨failure, rfl, rfl⟩
      | ok result => exact .inl ⟨_, _, rfl, rfl, rfl, rfl, hfunctions⟩
  refine ⟨hsame, fun limit => forall_congr' fun fuel => ?_⟩
  rcases hsame ⟨limit, fuel⟩ with ⟨program, program', hp, hp', -⟩ | ⟨failure, hf, hf'⟩
  · simp [hp, hp']
  · simp [hf, hf']

/-- A value calls a function that is defined after it and calls another one, and both names had other
functions before. -/
theorem ofScript_of_rearranges_shadowed :
    let f : Definition := .function "f" ["x"] (.succ (.call "g" [.var "x"]))
    let g : Definition := .function "g" ["x"] (.var "x")
    let a : Definition := .value "a" (.call "f" [.zero])
    let b : Definition := .value "b" (.succ (.var "a"))
    let s : Script := ⟨[.function "f" ["x"] (.call "f" [.var "x"]), a, f, b, g], some (.var "b")⟩
    let s' : Script := ⟨[.function "g" [] .zero, g, f, a, b], some (.var "b")⟩
    let bounds : Bounds := ⟨some 100, 20⟩
    s.Rearranges s' ∧ ∃ program program', Program.ofScript bounds .strict s = .ok program ∧
      Program.ofScript bounds .strict s' = .ok program' ∧ program.Equivalent program' ∧
      program.functions ≠ program'.functions ∧ program.values = ⟨[("a", 1), ("b", 2)]⟩ := by
  intro f g a b s s' bounds
  have h : s.Rearranges s' := by
    refine ⟨rfl, fun name => ?_, rfl⟩
    by_cases hf : "f" = name
    · rw [← hf]
      rfl
    by_cases hg : "g" = name
    · rw [← hg]
      rfl
    simp only [Script.function?, List.filterMap_cons, List.filterMap_nil, Definition.functionOf?,
      if_neg hf, if_neg hg, s, s', f, g, a, b]
  have hs : ∀ d ∈ s.definitions, d.body.toTerm.wellFormed = true := by decide
  have hs' : ∀ d ∈ s'.definitions, d.body.toTerm.wellFormed = true := by decide
  let table (p : Program) := (p.functions.names, p.values)
  have hok : (Program.ofScript bounds .strict s).map table = .ok (["f", "g"], ⟨[("a", 1), ("b", 2)]⟩) := by
    decide +kernel
  have hok' : (Program.ofScript bounds .strict s').map table = .ok (["g", "f"], ⟨[("a", 1), ("b", 2)]⟩) := by
    decide +kernel
  rcases (ofScript_of_rearranges .strict s s' hs hs' h).1 bounds with ⟨p, p', hp, hp', he⟩ | ⟨failure, hf, -⟩
  · rw [hp] at hok
    rw [hp'] at hok'
    obtain ⟨hnames, hvalues⟩ := Prod.mk.inj (Except.ok.inj hok)
    obtain ⟨hnames', -⟩ := Prod.mk.inj (Except.ok.inj hok')
    refine ⟨h, p, p', hp, hp', he, fun hsame => ?_, hvalues⟩
    rw [hsame, hnames'] at hnames
    exact absurd hnames (by decide)
  · rw [hf] at hok
    cases hok

end Unary
