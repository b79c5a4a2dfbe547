import Unary.Proofs.Reading
import Unary.Proofs.Scanning

/-!
Parsing: a text is read as a script exactly when its lexemes derive that script in the grammar, and every
other text is refused with an error in it.
-/

namespace Unary

namespace Grammar

/-- The whole text is lexemes, and they derive the script. -/
def Derives (source : String) (s : Script) : Prop :=
  ∃ ls offset, Stream.ofChars source.toList = ⟨ls, .finish offset⟩ ∧ Program ls s

end Grammar

namespace Reading

/-- Without a limit, lexemes are all taken, or one of them is refused. -/
theorem acceptAll_none (r : Reading) (ls : List Lexeme) :
    (∃ r', acceptAll none r ls = .ok r' ∧ r.reads ls = r'.finish) ∨
      ∃ cause offset, acceptAll none r ls = .error (.cause cause offset) ∧ r.reads ls = none := by
  induction ls generalizing r with
  | nil => exact .inl ⟨r, rfl, rfl⟩
  | cons l ls ih =>
    cases ha : r.accept l with
    | none =>
      refine .inr ⟨.expected r.expects (some l.token), l.start, ?_, ?_⟩
      · simp [acceptAll, ha]
      · simp [reads, ha]
    | some r' =>
      rw [acceptAll, reads, ha]
      simp only [exceeds_none, Bool.false_eq_true, if_false, Option.bind_some]
      exact ih r'

end Reading

namespace Script

/-- Without a limit, a stream is read to its end or there is a cause why not. -/
theorem ofStream_none (stream : Stream) :
    (∃ s offset, ofStream none stream = .ok s ∧ stream.ending = .finish offset ∧
      (Reading.item []).reads stream.lexemes = some s) ∨
    ∃ cause offset, ofStream none stream = .error (.cause cause offset) ∧
      ∀ end', stream.ending = .finish end' → (Reading.item []).reads stream.lexemes = none := by
  obtain ⟨ls, ending⟩ := stream
  rcases Reading.acceptAll_none (.item []) ls with ⟨r, ha, hr⟩ | ⟨cause, offset, ha, hr⟩
  · cases ending with
    | unexpected c offset =>
      refine .inr ⟨.unexpectedChar c, offset, by simp [ofStream, ha, Reading.conclude], ?_⟩
      intro end' he
      cases he
    | finish offset =>
      cases hf : r.finish with
      | some s =>
        exact .inl ⟨s, offset, by simp [ofStream, ha, Reading.conclude, hf], rfl, hr.trans hf⟩
      | none =>
        refine .inr ⟨.expected r.expects none, offset, ?_, fun _ _ => hr.trans hf⟩
        simp [ofStream, ha, Reading.conclude, hf]
  · exact .inr ⟨cause, offset, by simp [ofStream, ha], fun _ _ => hr⟩

theorem derives_iff_reads (source : String) (s : Script) :
    Grammar.Derives source s ↔ ∃ offset, (Stream.ofChars source.toList).ending = .finish offset ∧
      (Reading.item []).reads (Stream.ofChars source.toList).lexemes = some s := by
  have hl : Linked (Stream.ofChars source.toList).lexemes := Stream.linked_ofOffset 0 source.toList
  rw [Reading.reads_iff_program hl]
  constructor
  · rintro ⟨ls, offset, hs, hp⟩
    rw [hs]
    exact ⟨offset, rfl, hp⟩
  · rintro ⟨offset, he, hp⟩
    refine ⟨_, offset, ?_, hp⟩
    rw [← he]

/-- A text is read as the script it derives, or else there is an error in it. -/
theorem parse_none (source : String) :
    (∃ s, parse none source = .ok s ∧ Grammar.Derives source s) ∨
      ∃ e, parse none source = .error (.read e) ∧ ∀ s, ¬Grammar.Derives source s := by
  rcases ofStream_none (.ofChars source.toList) with
    ⟨s, offset, ho, he, hr⟩ | ⟨cause, offset, ho, hn⟩
  · refine .inl ⟨s, ?_, (derives_iff_reads source s).mpr ⟨offset, he, hr⟩⟩
    rw [parse, ho]
    rfl
  · refine .inr ⟨.locate source.toList cause offset, ?_, ?_⟩
    · rw [parse, ho]
      rfl
    · intro s hd
      obtain ⟨end', he, hr⟩ := (derives_iff_reads source s).mp hd
      rw [hn end' he] at hr
      cases hr

end Script

theorem Grammar.Derives.unique {source : String} {s s' : Script} (h : Derives source s)
    (h' : Derives source s') : s = s' := by
  obtain ⟨_, -, hr⟩ := (Script.derives_iff_reads source s).mp h
  obtain ⟨_, -, hr'⟩ := (Script.derives_iff_reads source s').mp h'
  exact Option.some.inj (hr.symm.trans hr')

theorem Script.parse_eq_ok_iff (source : String) (s : Script) :
    parse none source = .ok s ↔ Grammar.Derives source s := by
  rcases parse_none source with ⟨s', hp, hd⟩ | ⟨e, hp, hn⟩
  · rw [hp, Except.ok.injEq]
    constructor
    · rintro rfl
      exact hd
    · exact hd.unique
  · rw [hp]
    constructor
    · intro h
      cases h
    · intro hd
      exact absurd hd (hn s)

section Limits

variable {limit limit' : Option Nat}

theorem Reading.acceptAll_widen (hw : ∀ depth, exceeds limit' depth = true → exceeds limit depth = true)
    (r : Reading) (ls : List Lexeme) (h : acceptAll limit r ls ≠ .error .tooDeep) :
    acceptAll limit' r ls = acceptAll limit r ls := by
  induction ls generalizing r with
  | nil => rfl
  | cons l ls ih =>
    rw [acceptAll] at h
    rw [acceptAll, acceptAll]
    cases ha : r.accept l with
    | none => rfl
    | some r' =>
      simp only [ha] at h ⊢
      by_cases hd : exceeds limit r'.depth = true
      · rw [if_pos hd] at h
        exact absurd rfl h
      · rw [if_neg hd] at h
        rw [if_neg hd, if_neg (fun hd' => hd (hw _ hd'))]
        exact ih r' h

/-- What is read under a limit is read the same under a wider one. -/
theorem Script.parse_widen (hw : ∀ depth, exceeds limit' depth = true → exceeds limit depth = true)
    (source : String) (h : parse limit source ≠ .error .tooDeep) :
    parse limit' source = parse limit source := by
  have hr : Reading.acceptAll limit (.item []) (Stream.ofChars source.toList).lexemes ≠
      .error .tooDeep := by
    intro hr
    rw [parse, ofStream, hr] at h
    exact h rfl
  rw [parse, parse, ofStream, ofStream, Reading.acceptAll_widen hw _ _ hr]

theorem Script.parse_none_of_parse {source : String} {s : Script} (h : parse limit source = .ok s) :
    parse none source = .ok s := by
  have hne : parse limit source ≠ .error .tooDeep := by simp [h]
  rw [parse_widen (fun depth hd => by simp at hd) source hne, h]

end Limits

/-- Parsing gives exactly the scripts that the grammar derives from a text. There is at most one of them,
and where there is none parsing ends with an error in the text. -/
theorem Script.parse_exact (source : String) :
    (∀ s, parse none source = .ok s ↔ Grammar.Derives source s) ∧
    (∀ s s', Grammar.Derives source s → Grammar.Derives source s' → s = s') ∧
    ((∀ s, ¬Grammar.Derives source s) ↔ ∃ e, parse none source = .error (.read e)) := by
  refine ⟨parse_eq_ok_iff source, fun s s' => Grammar.Derives.unique, ?_, ?_⟩
  · intro hn
    rcases parse_none source with ⟨s, -, hd⟩ | ⟨e, hp, -⟩
    · exact absurd hd (hn s)
    · exact ⟨e, hp⟩
  · rintro ⟨e, hp⟩ s hd
    rw [(parse_eq_ok_iff source s).mpr hd] at hp
    cases hp

/-- Blanks before parentheses that open no call, and no blank between a definition and what comes after
it. -/
theorem Script.parse_exact_juxtaposed :
    Grammar.Derives "def x = if (eq (z, s(z))) then x else y def f (x, x) = s\n( s (x))f(f(x), y)"
      ⟨[.value "x" (.cond .zero (.succ .zero) (.var "x") (.var "y")),
        .function "f" ["x", "x"] (.succ (.succ (.var "x")))],
        some (.call "f" [.call "f" [.var "x"], .var "y"])⟩ :=
  ((parse_exact _).1 _).mp (by decide +kernel)

end Unary
