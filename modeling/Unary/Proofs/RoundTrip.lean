import Unary.Expr.Format
import Unary.Proofs.WellFormed

/-!
Writing a script and parsing it back.

A part of a script is written before the rest of the text, and its lexemes can be told from those of the
rest as long as no word goes on into the rest. So each part is read as lexemes that derive it, whatever
is written after it.
-/

namespace Unary

namespace Palette

@[simp]
theorem openSucc_zero (p : Palette) (rest : List Char) : p.openSucc 0 rest = rest := rfl

@[simp]
theorem closeSucc_zero (rest : List Char) : closeSucc 0 rest = rest := rfl

theorem openSucc_succ (p : Palette) (n : Nat) (rest : List Char) :
    p.openSucc (n + 1) rest = p.constructor "s" ++ '(' :: p.openSucc n rest := by
  simp [openSucc, List.replicate_succ]

theorem closeSucc_succ (n : Nat) (rest : List Char) :
    closeSucc (n + 1) rest = closeSucc n (')' :: rest) := by
  simp [closeSucc, List.replicate_succ']

theorem openSucc_append (p : Palette) (n : Nat) (rest after : List Char) :
    p.openSucc n (rest ++ after) = p.openSucc n rest ++ after := by
  simp [openSucc]

theorem closeSucc_append (n : Nat) (rest after : List Char) :
    closeSucc n (rest ++ after) = closeSucc n rest ++ after := by
  simp [closeSucc]

theorem definition_append (p : Palette) (head rest : List Char) :
    p.definition head ++ rest = p.keyword "def" ++ ' ' :: (head ++ ' ' :: '=' :: ' ' :: rest) := by
  simp [definition]

theorem signature_append (p : Palette) (name : String) (params : List String) (rest : List Char) :
    p.signature name params ++ rest =
      p.name name ++ '(' :: (Text.commaSeparated (params.map p.name) ++ ')' :: rest) := by
  simp [signature]

end Palette

namespace Expr

/-- The successor that was met last is written around the tree, and the others around that. -/
theorem writeInside_succ (p : Palette) (n : Nat) (rest : List Char) :
    ∀ e : Expr, e.wellFormed = true →
      e.writeInside p (n + 1) rest = p.constructor "s" ++ '(' :: e.writeInside p n (')' :: rest)
  | zero, _ => by simp only [writeInside, Palette.openSucc_succ, Palette.closeSucc_succ]
  | succ a, he => by
    rw [wellFormed] at he
    rw [writeInside, writeInside, writeInside_succ p (n + 1) rest a he]
  | var _, _ => by simp only [writeInside, Palette.openSucc_succ, Palette.closeSucc_succ]
  | call _ _, _ => by simp only [writeInside, Palette.openSucc_succ, Palette.closeSucc_succ]
  | cond _ _ _ _, _ => by simp only [writeInside, Palette.openSucc_succ, Palette.closeSucc_succ]

theorem writeArgs_cons_cons (p : Palette) (a b : Expr) (as : List Expr) (rest : List Char) :
    writeArgs p (a :: b :: as) rest =
      writeInside p 0 a (", ".toList ++ writeArgs p (b :: as) rest) := rfl

mutual

theorem writeInside_append (p : Palette) (n : Nat) (rest after : List Char) :
    ∀ e : Expr, e.writeInside p n (rest ++ after) = e.writeInside p n rest ++ after
  | zero => by
    simp only [writeInside, Palette.closeSucc_append, ← List.append_assoc, Palette.openSucc_append]
  | succ a => writeInside_append p (n + 1) rest after a
  | var _ => by
    simp only [writeInside, Palette.closeSucc_append, ← List.append_assoc, Palette.openSucc_append]
  | call _ as => by
    rw [writeInside, writeInside, Palette.closeSucc_append, ← List.cons_append,
      writeArgs_append p _ after as, ← List.cons_append, ← List.append_assoc,
      Palette.openSucc_append]
  | cond a b c d => by
    simp only [writeInside, Palette.closeSucc_append]
    simp only [← List.cons_append, ← List.append_assoc, writeInside_append p _ _ after a,
      writeInside_append p _ _ after b, writeInside_append p _ _ after c,
      writeInside_append p _ _ after d, Palette.openSucc_append]
  | equation _ _ => rfl
  | text _ => rfl

theorem writeArgs_append (p : Palette) (rest after : List Char) :
    ∀ as : List Expr, writeArgs p as (rest ++ after) = writeArgs p as rest ++ after
  | [] => rfl
  | [a] => writeInside_append p 0 rest after a
  | a :: b :: as => by
    rw [writeArgs_cons_cons, writeArgs_cons_cons, writeArgs_append p rest after (b :: as),
      ← List.append_assoc, writeInside_append p 0 _ after a]

end

theorem write_append (p : Palette) (e : Expr) (rest : List Char) :
    e.write p ++ rest = e.writeInside p 0 rest := by
  rw [write, ← writeInside_append, List.nil_append]

end Expr

/-- A text at an offset is lexemes of a kind and then the rest. -/
def Begins (Kind : List Lexeme → Prop) (offset : Nat) (cs rest : List Char) : Prop :=
  ∃ ls offset', Kind ls ∧ Stream.ofOffset offset cs = .prepend ls (.ofOffset offset' rest)

/-- Whether a part of a text, written before any rest, is read as lexemes of a kind. -/
def Spells (Kind : List Lexeme → Prop) (write : List Char → List Char) : Prop :=
  ∀ offset rest, isBoundary rest = true → Begins Kind offset (write rest) rest

namespace Begins

variable {Kind Part : List Lexeme → Prop} {write : List Char → List Char} {offset : Nat}
variable {c : Char} {t : Token} {cs rest : List Char}

theorem finish (h : Kind []) : Begins Kind offset rest rest :=
  ⟨[], offset, h, rfl⟩

theorem blank (hc : Text.isBlank c = true) (h : Begins Kind (offset + 1) cs rest) :
    Begins Kind offset (c :: cs) rest := by
  obtain ⟨ls, stop, hk, hs⟩ := h
  exact ⟨ls, stop, hk, (Stream.ofOffset_blank hc offset cs).trans hs⟩

theorem lexeme {l : Lexeme} {text : List Char}
    (hl : Stream.ofOffset offset text = .prepend [l] (.ofOffset l.stop cs))
    (h : Begins (fun ls => Kind (l :: ls)) l.stop cs rest) : Begins Kind offset text rest := by
  obtain ⟨ls, stop, hk, hs⟩ := h
  refine ⟨l :: ls, stop, hk, ?_⟩
  rw [hl, hs]
  rfl

theorem mark (hc : Token.ofPunctuation? c = some t)
    (h : ∀ l, l.token = t → l.start = offset → Begins (fun ls => Kind (l :: ls)) l.stop cs rest) :
    Begins Kind offset (c :: cs) rest :=
  lexeme (Stream.ofOffset_mark hc offset cs) (h _ rfl rfl)

theorem word {w : List Char} (hw : isWord w = true) (hb : isBoundary cs = true)
    (h : ∀ l, l.token = .ofWord (String.ofList w) →
      Begins (fun ls => Kind (l :: ls)) l.stop cs rest) :
    Begins Kind offset (w ++ cs) rest :=
  lexeme (Stream.ofOffset_word hw hb offset) (h _ rfl)

theorem ident {name : String} (hn : isName name = true) (hb : isBoundary cs = true)
    (h : ∀ l, l.token = .ident name → Begins (fun ls => Kind (l :: ls)) l.stop cs rest) :
    Begins Kind offset (name.toList ++ cs) rest := by
  refine word (isWord_of_isName hn) hb fun l hl => h l ?_
  rw [hl, String.ofList_toList, Token.ofWord_of_isName hn]

theorem part (hp : Spells Part write) (hb : isBoundary cs = true)
    (h : ∀ ls stop, Part ls → Begins (fun ls' => Kind (ls ++ ls')) stop cs rest) :
    Begins Kind offset (write cs) rest := by
  obtain ⟨ls, stop, hk, hs⟩ := hp offset cs hb
  obtain ⟨ls', stop', hk', hs'⟩ := h ls stop hk
  refine ⟨ls ++ ls', stop', hk', ?_⟩
  rw [hs, hs']
  simp [Stream.prepend]

theorem mono (hp : Begins Part offset cs rest) (h : ∀ ls, Part ls → Kind ls) :
    Begins Kind offset cs rest := by
  obtain ⟨ls, stop, hk, hs⟩ := hp
  exact ⟨ls, stop, h ls hk, hs⟩

theorem last (hp : Spells Part write) (hb : isBoundary rest = true)
    (h : ∀ ls, Part ls → Kind ls) : Begins Kind offset (write rest) rest :=
  (hp offset rest hb).mono h

end Begins

namespace Expr

theorem writeInside_cond (p : Palette) (a b c d : Expr) (rest : List Char) :
    (cond a b c d).writeInside p 0 rest =
      p.keyword "if" ++ '(' :: (p.keyword "eq" ++ '(' :: a.writeInside p 0
        (',' :: ' ' :: b.writeInside p 0 (')' :: ')' :: ' ' :: (p.keyword "then" ++
          ' ' :: c.writeInside p 0 (' ' :: (p.keyword "else" ++
            ' ' :: d.writeInside p 0 rest)))))) := by
  simp [writeInside]

mutual

/-- An expression is read as lexemes that derive it. -/
theorem spells_writeInside : ∀ e : Expr, e.wellFormed = true →
    Spells (Grammar.Expression · e) (e.writeInside .plain 0)
  | zero, _ => by
    intro offset rest hb
    rw [writeInside, Palette.openSucc_zero, Palette.closeSucc_zero]
    exact .word rfl hb fun l hl => .finish (.zero hl)
  | succ a, he => by
    intro offset rest hb
    rw [wellFormed] at he
    rw [writeInside, writeInside_succ _ _ _ a he]
    refine .word rfl rfl fun l hl => ?_
    refine .mark rfl fun p hp _ => ?_
    refine .part (spells_writeInside a he) rfl fun inner stop ha => ?_
    exact .mark rfl fun q hq _ => .finish (.succ hl hp ha hq)
  | var x, he => by
    intro offset rest hb
    rw [writeInside, Palette.openSucc_zero, Palette.closeSucc_zero]
    exact .ident he hb fun l hl => .finish (.var hl)
  | call f as, he => by
    intro offset rest hb
    obtain ⟨hf, hne, has⟩ := wellFormed_call_iff.mp he
    rw [writeInside, Palette.openSucc_zero, Palette.closeSucc_zero]
    refine .ident hf rfl fun l hl => ?_
    -- Nothing is written between the name and the parenthesis, so it starts where the name stops.
    refine .mark rfl fun p hp hs => ?_
    refine .part (spells_writeArgs as hne has) rfl fun inner stop ha => ?_
    exact .mark rfl fun q hq _ => .finish (.call hl hp hs ha hq)
  | cond a b c d, he => by
    intro offset rest hb
    obtain ⟨ha, hb', hc, hd⟩ := wellFormed_cond_iff.mp he
    rw [writeInside_cond]
    refine .word rfl rfl fun i hi => ?_
    refine .mark rfl fun p hp _ => ?_
    refine .word rfl rfl fun q hq => ?_
    refine .mark rfl fun r hr _ => ?_
    refine .part (spells_writeInside a ha) rfl fun as _ has => ?_
    refine .mark rfl fun comma hcomma _ => .blank rfl ?_
    refine .part (spells_writeInside b hb') rfl fun bs _ hbs => ?_
    refine .mark rfl fun close hclose _ => ?_
    refine .mark rfl fun close' hclose' _ => .blank rfl ?_
    refine .word rfl rfl fun yes hyes => .blank rfl ?_
    refine .part (spells_writeInside c hc) rfl fun cs _ hcs => .blank rfl ?_
    refine .word rfl rfl fun no hno => .blank rfl ?_
    exact .last (spells_writeInside d hd) hb fun ds hds =>
      .cond hi hp hq hr has hcomma hbs hclose hclose' hyes hcs hno hds

theorem spells_writeArgs : ∀ as : List Expr, as ≠ [] → allWellFormed as = true →
    Spells (Grammar.Arguments · as) (writeArgs .plain as)
  | [a], _, has => by
    intro offset rest hb
    obtain ⟨ha, -⟩ := allWellFormed_cons_iff.mp has
    exact .last (spells_writeInside a ha) hb fun ls ha => .one ha
  | a :: b :: as, _, has => by
    intro offset rest hb
    obtain ⟨ha, has⟩ := allWellFormed_cons_iff.mp has
    rw [writeArgs_cons_cons]
    refine .part (spells_writeInside a ha) rfl fun ls stop ha => ?_
    refine .mark rfl fun comma hc _ => .blank rfl ?_
    exact .last (spells_writeArgs (b :: as) (List.cons_ne_nil b as) has) hb fun ls' has' =>
      .more ha hc has'

end

mutual

/-- Without a limit, every expression can be written. -/
theorem checkWrite_none (p : Palette) (depth : Nat) :
    ∀ e : Expr, e.wellFormed = true → e.checkWrite none p depth = .ok ()
  | zero, _ => rfl
  | succ a, he => by
    rw [wellFormed] at he
    exact checkWrite_none p (depth + 1) a he
  | var _, _ => rfl
  | call _ as, he => by
    obtain ⟨-, -, has⟩ := wellFormed_call_iff.mp he
    rw [checkWrite, checkWriteAll_none p (depth + 2) as has]
    rfl
  | cond a b c d, he => by
    obtain ⟨ha, hb, hc, hd⟩ := wellFormed_cond_iff.mp he
    rw [checkWrite, checkWrite_none p _ a ha, checkWrite_none p _ b hb, checkWrite_none p _ c hc,
      checkWrite_none p _ d hd]
    rfl

theorem checkWriteAll_none (p : Palette) (depth : Nat) :
    ∀ as : List Expr, allWellFormed as = true → checkWriteAll none p depth as = .ok ()
  | [], _ => rfl
  | a :: as, has => by
    obtain ⟨ha, has⟩ := allWellFormed_cons_iff.mp has
    rw [checkWriteAll, checkWrite_none p depth a ha, checkWriteAll_none p depth as has]
    rfl

end

end Expr

namespace Definition

theorem spells_params (params : List String) (hne : params ≠ [])
    (hps : params.all isName = true) :
    Spells (Grammar.Parameters · params)
      (Text.commaSeparated (params.map Palette.plain.name) ++ ·) := by
  induction params with
  | nil => exact absurd rfl hne
  | cons x params ih =>
    intro offset rest hb
    rw [List.all_cons, Bool.and_eq_true] at hps
    cases params with
    | nil =>
      simp only [List.map_cons, List.map_nil, Text.commaSeparated, List.intercalate_singleton]
      exact .ident hps.1 hb fun l hl => .finish (.one hl)
    | cons y params =>
      simp only [List.map_cons, Text.commaSeparated, List.intercalate_cons_cons, List.append_assoc]
      refine .ident hps.1 rfl fun l hl => ?_
      refine .mark rfl fun comma hc _ => .blank rfl ?_
      exact .last (ih (List.cons_ne_nil y params) hps.2) hb fun ls hls => .more hl hc hls

/-- A definition is read as lexemes that derive it. -/
theorem spells_write (d : Definition) (hd : d.wellFormed = true) :
    Spells (Grammar.Defines · d) (d.write .plain ++ ·) := by
  intro offset rest hb
  cases d with
  | value name body =>
    obtain ⟨hname, hbody⟩ := wellFormed_value_iff.mp hd
    change Begins _ offset ((value name body).write .plain ++ rest) rest
    rw [write, List.append_assoc, Palette.definition_append, Expr.write_append]
    refine .word rfl rfl fun d hd => .blank rfl ?_
    refine .ident hname rfl fun n hn => .blank rfl ?_
    refine .mark rfl fun q hq _ => .blank rfl ?_
    exact .last (body.spells_writeInside hbody) hb fun ls hls => .value hd hn hq hls
  | function name params body =>
    obtain ⟨hname, ⟨hne, hps⟩, hbody⟩ := wellFormed_function_iff.mp hd
    change Begins _ offset ((function name params body).write .plain ++ rest) rest
    rw [write, List.append_assoc, Palette.definition_append, Palette.signature_append,
      Expr.write_append]
    refine .word rfl rfl fun d hd => .blank rfl ?_
    refine .ident hname rfl fun n hn => ?_
    refine .mark rfl fun p hp _ => ?_
    refine .part (spells_params params hne hps) rfl fun inner _ hi => ?_
    refine .mark rfl fun r hr _ => .blank rfl ?_
    refine .mark rfl fun q hq _ => .blank rfl ?_
    exact .last (body.spells_writeInside hbody) hb fun ls hls => .function hd hn hp hi hr hq hls

end Definition

namespace Script

/-- A definition stands on a line of its own before the rest of a script, if there is one. -/
theorem write_after (p : Palette) (d : Definition) (s : Script) :
    (s.after [d]).write p = d.write p ++ '\n' :: s.write p ∨
      (s.after [d]).write p = d.write p ++ [] ∧ s.write p = [] := by
  have ha : (s.after [d]).write p =
      ['\n'].intercalate (d.write p :: (s.definitions.map (·.write p) ++
        (s.result.map (·.write p)).toList)) := rfl
  rw [ha, write]
  cases s.definitions.map (·.write p) ++ (s.result.map (·.write p)).toList with
  | nil => simp
  | cons part parts => simp

theorem begins_write (definitions : List Definition) (result : Option Expr)
    (hds : definitions.all Definition.wellFormed = true)
    (hr : result.all Expr.wellFormed = true) (offset : Nat) :
    Begins (Grammar.Program · ⟨definitions, result⟩) offset
      (write .plain ⟨definitions, result⟩) [] := by
  induction definitions generalizing offset with
  | nil =>
    cases result with
    | none => exact .finish (.definitions .nil)
    | some e =>
      rw [show write .plain ⟨[], some e⟩ = e.writeInside .plain 0 [] from List.intercalate_singleton]
      exact .last (e.spells_writeInside hr) rfl fun ls hls => .result .nil hls
  | cons d ds ih =>
    rw [List.all_cons, Bool.and_eq_true] at hds
    rcases write_after .plain d ⟨ds, result⟩ with hw | ⟨hw, hn⟩
    · refine hw ▸ .part (d.spells_write hds.1) rfl fun ls stop hls => .blank rfl ?_
      exact (ih hds.2 (stop + 1)).mono fun ls' hls' => hls'.cons hls
    · refine hw ▸ .part (d.spells_write hds.1) rfl fun ls stop hls => ?_
      exact (hn ▸ ih hds.2 stop).mono fun ls' hls' => hls'.cons hls

/-- What is written without colours is parsed back. -/
theorem parse_write (s : Script) (hs : s.wellFormed = true) :
    parse none (String.ofList (s.write .plain)) = .ok s := by
  obtain ⟨hds, hr⟩ := wellFormed_iff.mp hs
  obtain ⟨ls, stop, hp, ho⟩ := begins_write s.definitions s.result hds hr 0
  refine (parse_eq_ok_iff _ s).mpr ⟨ls, stop, ?_, hp⟩
  rw [String.toList_ofList]
  refine ho.trans ?_
  rw [Stream.ofOffset_nil, Stream.prepend, List.append_nil]

/-- An expression by itself is a script. -/
theorem parse_write_expression {e : Expr} (he : e.wellFormed = true) :
    parse none (String.ofList (e.write .plain)) = .ok ⟨[], some e⟩ := by
  have hone : (Script.mk [] (some e)).write .plain = e.write .plain := List.intercalate_singleton
  rw [← hone]
  exact parse_write _ (wellFormed_iff.mpr ⟨rfl, he⟩)

theorem format_none (p : Palette) (s : Script) (hs : s.wellFormed = true) :
    s.format none p = .ok (String.ofList (s.write p)) := by
  rw [wellFormed_iff, List.all_eq_true, Option.all_eq_true] at hs
  have hbodies : Expr.allWellFormed (s.definitions.map Definition.body) = true := by
    simp only [Expr.allWellFormed_eq, List.all_map, List.all_eq_true]
    exact fun d hd => d.wellFormed_body (hs.1 d hd)
  have hresult : Expr.allWellFormed s.result.toList = true := by
    simp only [Expr.allWellFormed_eq, List.all_eq_true, Option.mem_toList]
    exact hs.2
  rw [format, checkWrite, Expr.checkWriteAll_none p 4 _ hbodies, Expr.checkWriteAll_none p 2 _ hresult]
  rfl

end Script

/-- Scripts that are well formed are exactly those that are parsed from some text, and writing one
without colours gives such a text. -/
theorem Script.parse_format_exact (s : Script) :
    (s.wellFormed = true →
      ∃ text, s.format none .plain = .ok text ∧ parse none text = .ok s) ∧
    (∀ source, parse none source = .ok s → s.wellFormed = true ∧
      ∃ text, s.format none .plain = .ok text ∧ parse none text = .ok s) ∧
    (s.wellFormed = true ↔ ∃ source, parse none source = .ok s) := by
  have hback (hs : s.wellFormed = true) :
      ∃ text, s.format none .plain = .ok text ∧ parse none text = .ok s :=
    ⟨_, s.format_none .plain hs, s.parse_write hs⟩
  refine ⟨hback, ?_, ?_, ?_⟩
  · intro source hp
    exact ⟨wellFormed_of_parse hp, hback (wellFormed_of_parse hp)⟩
  · intro hs
    obtain ⟨text, -, hp⟩ := hback hs
    exact ⟨text, hp⟩
  · rintro ⟨source, hp⟩
    exact wellFormed_of_parse hp

/-- Names that start like keywords, and conditions and calls inside each other. -/
theorem Script.parse_format_nested :
    let s : Script := ⟨[.function "ifVal" ["s2", "s2"]
      (.cond (.var "s2") (.call "ifVal" [.zero, .succ (.var "defx")])
        (.cond .zero .zero (.var "s2") .zero) .zero)],
      some (.call "ifVal" [.call "x" [.succ (.succ .zero)], .zero])⟩
    s.wellFormed = true ∧ ∃ text, s.format none .plain = .ok text ∧ parse none text = .ok s :=
  ⟨by decide, (parse_format_exact _).1 (by decide)⟩

end Unary
