import Unary.Proofs.Parsing

/-!
Scripts that can be written: every name is one, every list of parameters or arguments has an entry, and
every tree is an expression. What is parsed is such a script.
-/

namespace Unary

/-- The words that are no names. -/
def keywords : List String :=
  ["def", "eq", "z", "s", "if", "then", "else"]

def isName (name : String) : Bool :=
  isWord name.toList && !keywords.contains name

namespace Expr

mutual

/-- Whether a tree is an expression over names, with arguments in every call. -/
def wellFormed : Expr → Bool
  | zero => true
  | succ a => wellFormed a
  | var x => isName x
  | call f as => isName f && !as.isEmpty && allWellFormed as
  | cond a b c d => wellFormed a && wellFormed b && wellFormed c && wellFormed d
  | equation _ _ => false
  | text _ => false

def allWellFormed : List Expr → Bool
  | [] => true
  | a :: as => wellFormed a && allWellFormed as

end

theorem wellFormed_call_iff {f : String} {as : List Expr} :
    (call f as).wellFormed = true ↔ isName f = true ∧ as ≠ [] ∧ allWellFormed as = true := by
  simp [wellFormed, and_assoc]

theorem wellFormed_cond_iff {a b c d : Expr} :
    (cond a b c d).wellFormed = true ↔ a.wellFormed = true ∧ b.wellFormed = true ∧
      c.wellFormed = true ∧ d.wellFormed = true := by
  simp only [wellFormed, Bool.and_eq_true, and_assoc]

theorem allWellFormed_cons_iff {a : Expr} {as : List Expr} :
    allWellFormed (a :: as) = true ↔ a.wellFormed = true ∧ allWellFormed as = true := by
  rw [allWellFormed, Bool.and_eq_true]

theorem allWellFormed_eq (as : List Expr) : allWellFormed as = as.all wellFormed := by
  induction as with
  | nil => rfl
  | cons a as ih => rw [allWellFormed, List.all_cons, ih]

end Expr

def Definition.wellFormed : Definition → Bool
  | value name body => isName name && body.wellFormed
  | function name params body =>
    isName name && !params.isEmpty && params.all isName && body.wellFormed

def Script.wellFormed (s : Script) : Bool :=
  s.definitions.all Definition.wellFormed && s.result.all Expr.wellFormed

theorem Definition.wellFormed_value_iff {name : String} {body : Expr} :
    (value name body).wellFormed = true ↔ isName name = true ∧ body.wellFormed = true := by
  rw [wellFormed, Bool.and_eq_true]

theorem Definition.wellFormed_function_iff {name : String} {params : List String} {body : Expr} :
    (function name params body).wellFormed = true ↔ isName name = true ∧
      (params ≠ [] ∧ params.all isName = true) ∧ body.wellFormed = true := by
  simp [wellFormed, and_assoc]

theorem Definition.wellFormed_body (d : Definition) (hd : d.wellFormed = true) :
    d.body.wellFormed = true := by
  cases d with
  | value name body => exact (wellFormed_value_iff.mp hd).2
  | function name params body => exact (wellFormed_function_iff.mp hd).2.2

theorem Script.wellFormed_iff {s : Script} :
    s.wellFormed = true ↔
      s.definitions.all Definition.wellFormed = true ∧ s.result.all Expr.wellFormed = true := by
  rw [wellFormed, Bool.and_eq_true]

theorem isName_iff {name : String} :
    isName name = true ↔ isWord name.toList = true ∧ name ∉ keywords := by
  simp [isName]

theorem isWord_of_isName {name : String} (h : isName name = true) : isWord name.toList = true :=
  (isName_iff.mp h).1

/-- A word is read as an identifier exactly when it is no keyword. -/
theorem Token.ofWord_eq_ident_iff {word name : String} :
    ofWord word = .ident name ↔ word = name ∧ word ∉ keywords := by
  constructor
  · intro h
    refine ⟨by rw [← text_ofWord word, h]; rfl, ?_⟩
    intro hk
    simp only [keywords, List.mem_cons, List.not_mem_nil, or_false] at hk
    rcases hk with rfl | rfl | rfl | rfl | rfl | rfl | rfl <;> cases h
  · rintro ⟨rfl, hk⟩
    simp only [keywords, List.mem_cons, List.not_mem_nil, or_false, not_or] at hk
    simp [ofWord, hk]

theorem Token.ofWord_of_isName {name : String} (h : isName name = true) :
    ofWord name = .ident name :=
  ofWord_eq_ident_iff.mpr ⟨rfl, (isName_iff.mp h).2⟩

theorem Token.ofPunctuation?_ne_ident (c : Char) (name : String) :
    ofPunctuation? c ≠ some (.ident name) := by
  unfold ofPunctuation?
  repeat' split
  all_goals simp

/-- Whether what a lexeme calls an identifier is a name. -/
def Lexeme.Named (l : Lexeme) : Prop :=
  ∀ name, l.token = .ident name → isName name = true

theorem Scan.named_of_next {offset : Nat} {cs rest : List Char} {l : Lexeme}
    (h : next offset cs = .lexeme l rest) : l.Named := by
  intro name ht
  obtain ⟨blanks, c, tail, -, -, ha⟩ := of_next h
  obtain ⟨-, -, ⟨hc, hw⟩ | hp⟩ := of_atChar ha
  · obtain ⟨rfl, hk⟩ := Token.ofWord_eq_ident_iff.mp (hw.symm.trans ht)
    refine isName_iff.mpr ⟨?_, hk⟩
    simp only [String.toList_ofList, isWord, hc, Bool.true_and]
    exact List.all_takeWhile
  · rw [ht] at hp
    exact absurd hp (Token.ofPunctuation?_ne_ident c name)

namespace Grammar

mutual

/-- What is derived from lexemes with names is well formed. -/
theorem Expression.wellFormed {ls : List Lexeme} {e : Expr} (h : Expression ls e)
    (hn : ∀ l ∈ ls, l.Named) : e.wellFormed = true :=
  match h with
  | .zero _ => rfl
  | .succ _ _ ha _ => by
    simp only [List.forall_mem_cons, List.forall_mem_append] at hn
    rw [Expr.wellFormed]
    exact ha.wellFormed hn.2.2.1
  | .cond _ _ _ _ ha _ hb _ _ _ hc _ hd => by
    simp only [List.forall_mem_cons, List.forall_mem_append] at hn
    obtain ⟨-, -, -, -, hna, -, hnb, -, -, -, hnc, -, hnd⟩ := hn
    rw [Expr.wellFormed_cond_iff]
    exact ⟨ha.wellFormed hna, hb.wellFormed hnb, hc.wellFormed hnc, hd.wellFormed hnd⟩
  | .var ht => hn _ (List.mem_singleton_self _) _ ht
  | .call ht _ _ ha _ => by
    simp only [List.forall_mem_cons, List.forall_mem_append] at hn
    obtain ⟨hf, -, hna, -⟩ := hn
    exact Expr.wellFormed_call_iff.mpr ⟨hf _ ht, ha.wellFormed hna⟩

theorem Arguments.wellFormed {ls : List Lexeme} {as : List Expr} (h : Arguments ls as)
    (hn : ∀ l ∈ ls, l.Named) : as ≠ [] ∧ Expr.allWellFormed as = true :=
  match h with
  | .one ha => by
    have hwa := ha.wellFormed hn
    exact ⟨List.cons_ne_nil _ _, Expr.allWellFormed_cons_iff.mpr ⟨hwa, rfl⟩⟩
  | .more ha _ hr => by
    simp only [List.forall_mem_cons, List.forall_mem_append] at hn
    obtain ⟨hna, -, hnr⟩ := hn
    have hwa := ha.wellFormed hna
    have hwr := (hr.wellFormed hnr).2
    exact ⟨List.cons_ne_nil _ _, Expr.allWellFormed_cons_iff.mpr ⟨hwa, hwr⟩⟩

end

theorem Parameters.all_isName {ls : List Lexeme} {params : List String} (h : Parameters ls params)
    (hn : ∀ l ∈ ls, l.Named) : params ≠ [] ∧ params.all isName = true := by
  induction h with
  | one ht => simp [hn _ (List.mem_singleton_self _) _ ht]
  | more ht _ _ ih =>
    simp only [List.forall_mem_cons] at hn
    obtain ⟨hp, -, hnr⟩ := hn
    refine ⟨List.cons_ne_nil _ _, ?_⟩
    rw [List.all_cons, hp _ ht, (ih hnr).2]
    rfl

theorem Defines.wellFormed {ls : List Lexeme} {d : Definition} (h : Defines ls d)
    (hn : ∀ l ∈ ls, l.Named) : d.wellFormed = true := by
  cases h with
  | value _ ht _ hb =>
    simp only [List.forall_mem_cons] at hn
    obtain ⟨-, hf, -, hnb⟩ := hn
    exact Definition.wellFormed_value_iff.mpr ⟨hf _ ht, hb.wellFormed hnb⟩
  | function _ ht _ hp _ _ hb =>
    simp only [List.forall_mem_cons, List.forall_mem_append] at hn
    obtain ⟨-, hf, -, hnp, -, -, hnb⟩ := hn
    have hps := hp.all_isName hnp
    exact Definition.wellFormed_function_iff.mpr ⟨hf _ ht, hps, hb.wellFormed hnb⟩

theorem DefinesAll.wellFormed {ls : List Lexeme} {ds : List Definition} (h : DefinesAll ls ds)
    (hn : ∀ l ∈ ls, l.Named) : ds.all Definition.wellFormed = true := by
  induction h with
  | nil => rfl
  | cons hd _ ih =>
    obtain ⟨hnd, hnr⟩ := List.forall_mem_append.mp hn
    rw [List.all_cons, hd.wellFormed hnd, ih hnr]
    rfl

theorem Program.wellFormed {ls : List Lexeme} {s : Script} (h : Program ls s)
    (hn : ∀ l ∈ ls, l.Named) : s.wellFormed = true := by
  cases h with
  | definitions hds => exact Script.wellFormed_iff.mpr ⟨hds.wellFormed hn, rfl⟩
  | result hds he =>
    obtain ⟨hnd, hne⟩ := List.forall_mem_append.mp hn
    exact Script.wellFormed_iff.mpr ⟨hds.wellFormed hnd, he.wellFormed hne⟩

end Grammar

/-- What is parsed is well formed. -/
theorem Script.wellFormed_of_parse {source : String} {s : Script}
    (h : parse none source = .ok s) : s.wellFormed = true := by
  obtain ⟨ls, offset, hs, hp⟩ := (parse_eq_ok_iff source s).mp h
  have hn : ∀ l ∈ (Stream.ofChars source.toList).lexemes, l.Named :=
    Stream.forall_mem_ofOffset (fun _ _ _ _ => Scan.named_of_next) 0 source.toList
  rw [hs] at hn
  exact hp.wellFormed hn

end Unary
