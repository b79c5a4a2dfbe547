import Unary.Prelude
import Unary.Proofs.Composition
import Unary.Proofs.ProgramText

/-!
Arithmetic by counting: the functions of the standard prelude.

Each of them is followed through its own recursion, by induction on the argument that counts it down. The
predecessor has none, since it searches upwards, and there the induction is on what the search has yet to
pass.
-/

namespace Unary

/-- A call of a name with these numbers ends without a fault and gives a number, be it from outside or in
a term, where terms stand for the numbers. -/
def Computes (mode : Mode) (functions : Functions) (name : String) (args : List Nat) (n : Nat) : Prop :=
  (∃ f, functions.get? name = some f ∧
    ∃ least, ∀ fuel ≥ least, f.apply fuel mode args functions = .value n) ∧
  ∀ env terms, EvaluatesAll mode functions env terms (.ok args) →
    ∃ least, ∀ fuel ≥ least, evaluate fuel mode (.call name terms) env functions = .value n

namespace Lambda

/-- With these numbers for its parameters, the body of a function comes to a number. -/
def Returns (mode : Mode) (functions : Functions) (f : Lambda) (args : List Nat) (n : Nat) : Prop :=
  Evaluates mode functions (bindParams .empty f.params args) f.body (.ok n)

variable {mode : Mode} {functions : Functions} {f : Lambda} {args : List Nat} {n : Nat}

theorem Returns.call (h : f.Returns mode functions args n) {name : String}
    (hf : functions.get? name = some f) (hlen : args.length = f.params.length) {env : Values}
    {terms : List Term} (ht : EvaluatesAll mode functions env terms (.ok args)) :
    Evaluates mode functions env (.call name terms) (.ok n) := by
  have hterms : terms.length = f.params.length := ht.length_eq.trans hlen
  have htake : terms.take f.params.length = terms := List.take_of_length_le (Nat.le_of_eq hterms)
  exact .call hf (fun _ => hterms) (htake.symm ▸ ht) h

theorem Returns.exists_apply (h : f.Returns mode functions args n)
    (hlen : args.length = f.params.length) :
    ∃ least, ∀ fuel ≥ least, f.apply fuel mode args functions = .value n := by
  obtain ⟨least, hl⟩ := Evaluates.exists_least h
  have hr : f.refuses mode args.length = false := by simp [refuses, arity, hlen]
  have htake : args.take f.arity = args := List.take_of_length_le (Nat.le_of_eq hlen)
  refine ⟨least, fun fuel hle => ?_⟩
  rw [apply, hr, htake, bind_eq]
  exact hl fuel hle

theorem Returns.computes (h : f.Returns mode functions args n) {name : String}
    (hf : functions.get? name = some f) (hlen : args.length = f.params.length) :
    Computes mode functions name args n :=
  ⟨⟨f, hf, h.exists_apply hlen⟩, fun _ _ ht => (h.call hf hlen ht).exists_least⟩

end Lambda

section Lines

/-- A definition on a line that is ended. -/
def Definition.line (p : Palette) (d : Definition) : List Char :=
  d.write p ++ ['\n']

theorem Script.write_newline (p : Palette) {defs : List Definition} (hne : defs ≠ []) :
    write p ⟨defs, none⟩ ++ ['\n'] = defs.flatMap (Definition.line p) := by
  induction defs with
  | nil => exact absurd rfl hne
  | cons d defs ih =>
    cases defs with
    | nil => simp [write, Definition.line]
    | cons d' defs =>
      rw [List.flatMap_cons, ← ih (List.cons_ne_nil d' defs)]
      simp [write, Definition.line]

end Lines

namespace Prelude

/-- The search for the number before `x`, from `p` upwards. -/
def predItFunction : Lambda :=
  ⟨["p", "x"], .cond (.succ (.var "p")) (.var "x") (.var "p")
    (.call "predIt" [.succ (.var "p"), .var "x"])⟩

def predFunction : Lambda :=
  ⟨["x"], .cond (.var "x") .zero .zero (.call "predIt" [.zero, .var "x"])⟩

def addFunction : Lambda :=
  ⟨["a", "b"], .cond (.var "a") .zero (.var "b")
    (.call "add" [.call "pred" [.var "a"], .succ (.var "b")])⟩

def subFunction : Lambda :=
  ⟨["a", "b"], .cond (.var "b") .zero (.var "a")
    (.call "sub" [.call "pred" [.var "a"], .call "pred" [.var "b"]])⟩

def mulAccFunction : Lambda :=
  ⟨["a", "b", "acc"], .cond (.var "a") .zero (.var "acc")
    (.call "mulAcc" [.call "pred" [.var "a"], .var "b", .call "add" [.var "b", .var "acc"]])⟩

def mulFunction : Lambda :=
  ⟨["a", "b"], .call "mulAcc" [.var "a", .var "b", .zero]⟩

def maxFunction : Lambda :=
  ⟨["a", "b"], .cond (.call "sub" [.var "a", .var "b"]) .zero (.var "b") (.var "a")⟩

/-- The table of the functions of the standard prelude. -/
def standardFunctions : Functions :=
  ⟨[("predIt", predItFunction), ("pred", predFunction), ("add", addFunction), ("sub", subFunction),
    ("mulAcc", mulAccFunction), ("mul", mulFunction), ("max", maxFunction)]⟩

def standardScript : Script :=
  Program.toScript ⟨standardFunctions, .empty, none⟩

theorem write_standardScript : String.ofList (standardScript.write .plain) ++ "\n" = standard := by
  have hne : standardScript.definitions ≠ [] := List.cons_ne_nil _ _
  have hlines : standardScript.write .plain ++ ['\n'] =
      standardScript.definitions.flatMap (Definition.line .plain) := Script.write_newline .plain hne
  have hend : String.ofList (standardScript.write .plain) ++ "\n" =
      String.ofList (standardScript.write .plain ++ ['\n']) := String.ofList_append.symm
  rw [hend, hlines]
  -- Each line of the text is the line of a definition. Nothing is compared but one line with another.
  simp only [standardScript, Program.toScript, standardFunctions, Table.empty, List.map_cons,
    List.map_nil, List.append_nil, List.flatMap_cons, List.flatMap_nil, String.ofList_append,
    ← String.append_assoc]
  rfl

theorem parse_standard : Script.parse none standard = .ok standardScript := by
  have hw : standardScript.wellFormed = true := by decide +kernel
  have hempty : Script.parse none "" = .ok ⟨[], none⟩ := by decide +kernel
  have hwhole : String.ofList (standardScript.write .plain) ++ "\n" ++ "" = standard := by
    rw [String.append_empty, write_standardScript]
  rcases Script.parse_append_newline (standardScript.parse_write hw) "" with
    ⟨script, he, hp⟩ | ⟨cause, offset, he, -⟩
  · rw [hempty] at he
    cases he
    rw [hwhole] at hp
    exact hp
  · rw [hempty] at he
    cases he

theorem ofScript_standardScript (bounds : Bounds) (mode : Mode) :
    Program.ofScript bounds mode standardScript = .ok ⟨standardFunctions, .empty, none⟩ := by
  have hf : Program.lowerFunctions none .empty standardScript.definitions = .ok standardFunctions := by
    decide +kernel
  have hv := Program.lowerValues_functionDefinitions ⟨none, bounds.fuel⟩ mode standardFunctions .empty
    standardFunctions.entries []
  exact Program.ofScript_eq_ok_iff.mpr ⟨hf, hv, rfl⟩

/-- The functions of the standard prelude have their names in a table, whatever else is in it. -/
def Loaded (functions : Functions) : Prop :=
  ∀ name f, standardFunctions.get? name = some f → functions.get? name = some f

theorem evaluates_params (mode : Mode) (functions : Functions) {x y : String} (hne : x ≠ y)
    (m n : Nat) :
    Evaluates mode functions (bindParams .empty [x, y] [m, n]) (.var x) (.ok m) ∧
      Evaluates mode functions (bindParams .empty [x, y] [m, n]) (.var y) (.ok n) := by
  constructor
  · exact .bound (by simp [bindParams, Table.get?_insert, hne])
  · exact .bound (by simp [bindParams, Table.get?_insert])

variable {mode : Mode} {functions : Functions}

/-- The search from `p` passes `d` numbers before it comes to the one before `p + d + 1`. -/
theorem returns_predIt (hf : functions.get? "predIt" = some predItFunction) (d p : Nat) :
    predItFunction.Returns mode functions [p, p + d + 1] (p + d) := by
  induction d generalizing p with
  | zero =>
    obtain ⟨hp, hx⟩ := evaluates_params mode functions (by decide : "p" ≠ "x") p (p + 1)
    exact .equal (.succ hp) hx hp
  | succ d ih =>
    obtain ⟨hp, hx⟩ := evaluates_params mode functions (by decide : "p" ≠ "x") p (p + (d + 1) + 1)
    have hne : p + 1 ≠ p + (d + 1) + 1 := by omega
    -- The search goes on from `p + 1` to the same end, which is nearer now.
    have hnext : predItFunction.Returns mode functions [p + 1, p + (d + 1) + 1] (p + (d + 1)) := by
      rw [Nat.add_comm d 1, ← Nat.add_assoc]
      exact ih (p + 1)
    exact .unequal (.succ hp) hx hne (hnext.call hf rfl (.cons (.succ hp) (.cons hx .nil)))

section Functions

variable (h : Loaded functions)
include h

theorem returns_pred (n : Nat) : predFunction.Returns mode functions [n] (n - 1) := by
  let env := bindParams .empty ["x"] [n]
  have hx : Evaluates mode functions env (.var "x") (.ok n) := .bound rfl
  cases n with
  | zero => exact .equal hx .zero .zero
  | succ n =>
    have hf : functions.get? "predIt" = some predItFunction := h "predIt" predItFunction rfl
    have hsearch : predItFunction.Returns mode functions [0, 0 + n + 1] (0 + n) :=
      returns_predIt hf n 0
    rw [Nat.zero_add] at hsearch
    exact .unequal hx .zero (Nat.succ_ne_zero n) (hsearch.call hf rfl (.cons .zero (.cons hx .nil)))

theorem evaluates_pred {env : Values} {t : Term} {n : Nat}
    (ht : Evaluates mode functions env t (.ok n)) :
    Evaluates mode functions env (.call "pred" [t]) (.ok (n - 1)) :=
  (returns_pred h n).call (h "pred" predFunction rfl) rfl (.cons ht .nil)

theorem returns_add (a b : Nat) : addFunction.Returns mode functions [a, b] (a + b) := by
  induction a generalizing b with
  | zero =>
    obtain ⟨ha, hb⟩ := evaluates_params mode functions (by decide : "a" ≠ "b") 0 b
    rw [Nat.zero_add]
    exact .equal ha .zero hb
  | succ a ih =>
    obtain ⟨ha, hb⟩ := evaluates_params mode functions (by decide : "a" ≠ "b") (a + 1) b
    have hargs : EvaluatesAll mode functions _ [.call "pred" [.var "a"], .succ (.var "b")]
        (.ok [a, b + 1]) := .cons (evaluates_pred h ha) (.cons (.succ hb) .nil)
    have hsum : a + 1 + b = a + (b + 1) := by omega
    rw [hsum]
    exact .unequal ha .zero (Nat.succ_ne_zero a) ((ih (b + 1)).call (h "add" addFunction rfl) rfl hargs)

theorem returns_sub (a b : Nat) : subFunction.Returns mode functions [a, b] (a - b) := by
  induction b generalizing a with
  | zero =>
    obtain ⟨ha, hb⟩ := evaluates_params mode functions (by decide : "a" ≠ "b") a 0
    exact .equal hb .zero ha
  | succ b ih =>
    obtain ⟨ha, hb⟩ := evaluates_params mode functions (by decide : "a" ≠ "b") a (b + 1)
    have hargs : EvaluatesAll mode functions _ [.call "pred" [.var "a"], .call "pred" [.var "b"]]
        (.ok [a - 1, b]) := .cons (evaluates_pred h ha) (.cons (evaluates_pred h hb) .nil)
    have hdiff : a - (b + 1) = a - 1 - b := by omega
    rw [hdiff]
    exact .unequal hb .zero (Nat.succ_ne_zero b) ((ih (a - 1)).call (h "sub" subFunction rfl) rfl hargs)

theorem returns_mulAcc (a b c : Nat) :
    mulAccFunction.Returns mode functions [a, b, c] (a * b + c) := by
  induction a generalizing c with
  | zero =>
    let env := bindParams .empty ["a", "b", "acc"] [0, b, c]
    have ha : Evaluates mode functions env (.var "a") (.ok 0) := .bound rfl
    have hc : Evaluates mode functions env (.var "acc") (.ok c) := .bound rfl
    rw [Nat.zero_mul, Nat.zero_add]
    exact .equal ha .zero hc
  | succ a ih =>
    let env := bindParams .empty ["a", "b", "acc"] [a + 1, b, c]
    have ha : Evaluates mode functions env (.var "a") (.ok (a + 1)) := .bound rfl
    have hb : Evaluates mode functions env (.var "b") (.ok b) := .bound rfl
    have hc : Evaluates mode functions env (.var "acc") (.ok c) := .bound rfl
    have hadd : Evaluates mode functions env (.call "add" [.var "b", .var "acc"]) (.ok (b + c)) :=
      (returns_add h b c).call (h "add" addFunction rfl) rfl (.cons hb (.cons hc .nil))
    have hargs : EvaluatesAll mode functions env
        [.call "pred" [.var "a"], .var "b", .call "add" [.var "b", .var "acc"]]
        (.ok [a, b, b + c]) := .cons (evaluates_pred h ha) (.cons hb (.cons hadd .nil))
    rw [Nat.succ_mul, Nat.add_assoc]
    exact .unequal ha .zero (Nat.succ_ne_zero a)
      ((ih (b + c)).call (h "mulAcc" mulAccFunction rfl) rfl hargs)

theorem returns_mul (a b : Nat) : mulFunction.Returns mode functions [a, b] (a * b) := by
  obtain ⟨ha, hb⟩ := evaluates_params mode functions (by decide : "a" ≠ "b") a b
  exact (returns_mulAcc h a b 0).call (h "mulAcc" mulAccFunction rfl) rfl
    (.cons ha (.cons hb (.cons .zero .nil)))

theorem returns_max (a b : Nat) : maxFunction.Returns mode functions [a, b] (max a b) := by
  obtain ⟨ha, hb⟩ := evaluates_params mode functions (by decide : "a" ≠ "b") a b
  have hsub : Evaluates mode functions _ (.call "sub" [.var "a", .var "b"]) (.ok (a - b)) :=
    (returns_sub h a b).call (h "sub" subFunction rfl) rfl (.cons ha (.cons hb .nil))
  by_cases hle : a ≤ b
  · rw [Nat.sub_eq_zero_of_le hle] at hsub
    rw [Nat.max_eq_right hle]
    exact .equal hsub .zero hb
  · have hne : a - b ≠ 0 := by omega
    rw [Nat.max_eq_left (by omega)]
    exact .unequal hsub .zero hne ha

end Functions

/-- The standard prelude does arithmetic. In every table in which its names have the functions that its
text is lowered to, and in either mode, each of them ends with the number that its name says. -/
theorem standard_computes :
    ∃ script program, Script.parse none standard = .ok script ∧
      (∀ bounds mode, Program.ofScript bounds mode script = .ok program) ∧
      program.functions.names = ["predIt", "pred", "add", "sub", "mulAcc", "mul", "max"] ∧
      ∀ functions : Functions,
        (∀ name ∈ program.functions.names,
          functions.get? name = program.functions.get? name) →
        ∀ mode a b c,
          Computes mode functions "pred" [a] (a - 1) ∧
          Computes mode functions "add" [a, b] (a + b) ∧
          Computes mode functions "sub" [a, b] (a - b) ∧
          Computes mode functions "mulAcc" [a, b, c] (a * b + c) ∧
          Computes mode functions "mul" [a, b] (a * b) ∧
          Computes mode functions "max" [a, b] (max a b) := by
  refine ⟨standardScript, _, parse_standard, ofScript_standardScript, rfl, ?_⟩
  intro functions hf mode a b c
  have h : Loaded functions := by
    intro name f hg
    have hname : name ∈ standardFunctions.names :=
      (Table.isSome_get?_iff standardFunctions name).mp (Option.isSome_of_eq_some hg)
    rw [hf name hname, hg]
  refine ⟨?_, ?_, ?_, ?_, ?_, ?_⟩
  · exact (returns_pred h a).computes (h "pred" predFunction rfl) rfl
  · exact (returns_add h a b).computes (h "add" addFunction rfl) rfl
  · exact (returns_sub h a b).computes (h "sub" subFunction rfl) rfl
  · exact (returns_mulAcc h a b c).computes (h "mulAcc" mulAccFunction rfl) rfl
  · exact (returns_mul h a b).computes (h "mul" mulFunction rfl) rfl
  · exact (returns_max h a b).computes (h "max" maxFunction rfl) rfl

/-- A table in which a function that never ends stands before those of the prelude. -/
theorem standard_computes_among_others :
    let functions : Functions :=
      ⟨("loop", ⟨["x"], .call "loop" [.var "x"]⟩) :: standardFunctions.entries⟩
    ∃ least, ∀ fuel ≥ least,
      evaluate fuel .strict (.call "mul" [.succ (.succ .zero), .var "y"]) ⟨[("y", 3)]⟩ functions =
        .value 6 := by
  intro functions
  obtain ⟨script, program, hs, hp, -, h⟩ := standard_computes
  rw [parse_standard] at hs
  cases hs
  have hprogram := (ofScript_standardScript ⟨none, 0⟩ .strict).symm.trans (hp ⟨none, 0⟩ .strict)
  cases hprogram
  have hf : ∀ name ∈ standardFunctions.names,
      functions.get? name = standardFunctions.get? name := by decide +kernel
  obtain ⟨-, -, -, -, ⟨-, hmul⟩, -⟩ := h functions hf .strict 2 3 0
  exact hmul _ _ (.cons (.succ (.succ .zero)) (.cons (.bound rfl) .nil))

end Prelude

end Unary
