import Mathlib.Data.List.Forall2
import Unary.Colour.Escape
import Unary.Proofs.Limits
import Unary.Proofs.ProgramText
import Unary.Report
import Unary.Settings

/-!
Colours are decoration.

All that is asked of a painter is that it leaves a text as it is, or puts escape sequences before it and the one
that ends them after it. A painted text decorates a plain one if deleting the escape sequences gives the plain
one, whatever follows. Putting texts together keeps this, and it holds of a painted text that has no escape
character of its own. So it holds of everything that is written over names without escape characters, and of
every report. Painting takes frames, so a limit may cut short what is painted where it does not what is plain.
-/

namespace Unary

namespace Style

/-- What follows an escape sequence after its first character: a bracket, digits and an `m`. -/
def afterSequence? : List Char → Option (List Char)
  | '[' :: cs =>
    match cs.takeWhile Char.isDigit, cs.dropWhile Char.isDigit with
    | _ :: _, 'm' :: rest => some rest
    | _, _ => none
  | _ => none

theorem length_lt_of_afterSequence? {cs rest : List Char} (h : afterSequence? cs = some rest) :
    rest.length < cs.length := by
  unfold afterSequence? at h
  split at h
  next cs =>
    split at h
    next hdrop =>
      cases h
      have hle := (List.dropWhile_suffix (l := cs) Char.isDigit).length_le
      rw [hdrop, List.length_cons] at hle
      exact Nat.lt_succ_of_lt hle
    next => cases h
  next => cases h

/-- A text without its escape sequences. An escape character that begins none is kept. -/
def stripChars : List Char → List Char
  | [] => []
  | c :: cs =>
    if c = '\x1b' then
      match _h : afterSequence? cs with
      | some rest => stripChars rest
      | none => c :: stripChars cs
    else c :: stripChars cs
termination_by cs => cs.length
decreasing_by
  · exact Nat.lt_succ_of_lt (length_lt_of_afterSequence? _h)
  all_goals exact Nat.lt_succ_self cs.length

def strip (text : String) : String :=
  String.ofList (stripChars text.toList)

theorem stripChars_cons {c : Char} (hc : c ≠ '\x1b') (rest : List Char) :
    stripChars (c :: rest) = c :: stripChars rest := by
  rw [stripChars, if_neg hc]

/-- A painted text decorates a plain one if deleting the escape sequences gives the plain one, whatever
follows. -/
def Decorates (painted text : List Char) : Prop :=
  ∀ rest, stripChars (painted ++ rest) = text ++ stripChars rest

namespace Decorates

variable {painted painted' text text' : List Char}

theorem stripChars_eq (h : Decorates painted text) : stripChars painted = text := by
  have hnil := h []
  rwa [stripChars, List.append_nil, List.append_nil] at hnil

theorem cons {c : Char} (hc : c ≠ '\x1b') (h : Decorates painted text) :
    Decorates (c :: painted) (c :: text) := by
  intro rest
  rw [List.cons_append, stripChars_cons hc, h, List.cons_append]

theorem append (h : Decorates painted text) (h' : Decorates painted' text') :
    Decorates (painted ++ painted') (text ++ text') := by
  intro rest
  rw [List.append_assoc, h, h', List.append_assoc]

theorem nil : Decorates [] [] :=
  fun _ => rfl

/-- A text without escape characters decorates itself, also if its characters are those of a sequence. -/
theorem refl (h : '\x1b' ∉ text) : Decorates text text := by
  induction text with
  | nil => exact nil
  | cons c cs ih =>
    rw [List.mem_cons, not_or] at h
    exact cons (Ne.symm h.1) (ih h.2)

theorem intercalate {separator : List Char} (hs : '\x1b' ∉ separator) {parts parts' : List (List Char)}
    (h : List.Forall₂ Decorates parts parts') :
    Decorates (separator.intercalate parts) (separator.intercalate parts') := by
  induction h with
  | nil => exact nil
  | cons hpart hparts ih =>
    cases hparts with
    | nil => simpa using hpart
    | cons hnext hrest =>
      rw [List.intercalate_cons_cons, List.intercalate_cons_cons]
      exact (hpart.append (refl hs)).append ih

theorem forall₂_map {α : Type} {parts : List α} {write write' : α → List Char}
    (h : ∀ part ∈ parts, Decorates (write part) (write' part)) :
    List.Forall₂ Decorates (parts.map write) (parts.map write') := by
  rw [List.forall₂_map_left_iff, List.forall₂_map_right_iff, List.forall₂_same]
  exact h

/-- The escape sequence of a code decorates nothing. -/
theorem sequence {code : List Char} (hne : code ≠ []) (hcode : code.all Char.isDigit = true) :
    Decorates (Style.sequence code) [] := by
  intro rest
  have hdigits := List.all_eq_true.mp hcode
  have htake : (code ++ 'm' :: rest).takeWhile Char.isDigit = code := by
    rw [List.takeWhile_append_of_pos hdigits]
    simp
  have hdrop : (code ++ 'm' :: rest).dropWhile Char.isDigit = 'm' :: rest := by
    rw [List.dropWhile_append_of_pos hdigits]
    rfl
  have hafter : afterSequence? ('[' :: (code ++ 'm' :: rest)) = some rest := by
    rw [afterSequence?, htake, hdrop]
    obtain ⟨d, ds, rfl⟩ := List.exists_cons_of_ne_nil hne
    rfl
  have hshape : Style.sequence code ++ rest = '\x1b' :: '[' :: (code ++ 'm' :: rest) := by
    simp [Style.sequence]
  rw [hshape, stripChars, if_pos rfl]
  split
  next found =>
    rw [hafter] at found
    cases found
    rfl
  next missing =>
    rw [hafter] at missing
    cases missing

/-- A text that is wrapped in escape sequences decorates the text. -/
theorem wrapped {codes : List (List Char)}
    (hcodes : ∀ code ∈ codes, code ≠ [] ∧ code.all Char.isDigit = true) (h : Decorates painted text) :
    Decorates ((codes.map Style.sequence).flatten ++ painted ++ Style.sequence ['0']) text := by
  have hopen : Decorates (codes.map Style.sequence).flatten [] := by
    induction codes with
    | nil => exact nil
    | cons code codes ih =>
      obtain ⟨hcode, hcodes⟩ := List.forall_mem_cons.mp hcodes
      exact (sequence hcode.1 hcode.2).append (ih hcodes)
  have hend : Decorates (Style.sequence ['0']) [] := sequence (by decide) rfl
  have hall := (hopen.append h).append hend
  rwa [List.nil_append, List.append_nil] at hall

example : strip "\x1b[1m\x1b[31mm[\x1b[0m1m \x1b[m" = "m[1m \x1b[m" := by cbv

end Decorates

end Style

/-- Whether all that a way to paint adds is escape sequences. -/
def Paint.Decorating (paint : Paint) : Prop :=
  ∀ style text, '\x1b' ∉ text → Style.Decorates (paint style text) text

namespace Painter

/-- What is asked of a painter. It leaves a text as it is, or puts some escape sequences before it and the one that
ends them after it. -/
def Wraps (painter : Painter) : Prop :=
  ∀ forced style text, painter.paint forced style text = text ∨
    ∃ codes : List (List Char), (∀ code ∈ codes, code ≠ [] ∧ code.all Char.isDigit = true) ∧
      painter.paint forced style text = (codes.map Style.sequence).flatten ++ text ++ Style.sequence ['0']

theorem Wraps.paint {painter : Painter} (h : painter.Wraps) (forced : Bool) :
    (painter.paint forced).Decorating := by
  intro style text ht
  rcases h forced style text with hplain | ⟨codes, hcodes, hpainted⟩
  · rw [hplain]
    exact .refl ht
  · rw [hpainted]
    exact .wrapped hcodes (.refl ht)

theorem Wraps.styled {painter : Painter} (h : painter.Wraps) : (painter.styled true).Decorating :=
  h.paint false

/-- The painter by escape sequences does what is asked, whatever the variables are set to. -/
theorem wraps_escaping (c : Colouring) : (escaping c).Wraps := by
  intro forced style text
  cases hon : forced || c.allows with
  | false => exact .inl (by simp only [escaping, hon, Bool.false_eq_true, if_false])
  | true =>
    refine .inr ⟨style.codes, ?_, by simp only [escaping, hon, if_true, Style.escape]⟩
    obtain ⟨_ | colour, bold⟩ := style
    · cases bold <;> decide
    · cases bold <;> cases colour <;> decide

end Painter

section Names

mutual

/-- The names that are written in an expression. -/
def Expr.names : Expr → List String
  | .zero => []
  | .succ arg => names arg
  | .var name => [name]
  | .call callee args => callee :: namesAll args
  | .cond left right yes no => names left ++ (names right ++ (names yes ++ names no))
  | .equation left right => names left ++ names right
  | .text _ => []

def Expr.namesAll : List Expr → List String
  | [] => []
  | e :: es => names e ++ namesAll es

end

def Term.names (t : Term) : List String :=
  t.toExpr.names

def Definition.names : Definition → List String
  | .value name body => name :: body.names
  | .function name params body => name :: (params ++ body.names)

def Script.names (s : Script) : List String :=
  s.definitions.flatMap Definition.names ++ s.result.toList.flatMap Expr.names

/-- The names that are written in the text of a program. -/
def Program.names (program : Program) : List String :=
  program.toScript.names

theorem Expr.names_addSucc (n : Nat) (e : Expr) : (addSucc n e).names = e.names := by
  induction n generalizing e with
  | zero => rfl
  | succ n ih => rw [addSucc, ih, names]

/-- Whether none of the texts has an escape character in it. -/
def Unescaped (texts : List String) : Prop :=
  ∀ text ∈ texts, '\x1b' ∉ text.toList

instance (texts : List String) : Decidable (Unescaped texts) :=
  inferInstanceAs (Decidable (∀ text ∈ texts, '\x1b' ∉ text.toList))

end Names

/-- Whether all that a pen adds is escape sequences. -/
def Pen.Decorating (pen : Pen) : Prop :=
  ∀ word, '\x1b' ∉ word.toList → Style.Decorates (pen.write word) word.toList

namespace Palette

open Style

structure Decorating (p : Palette) : Prop where
  keywords : p.keywords.Decorating
  constructors : p.constructors.Decorating
  names : p.names.Decorating

/-- The palettes of a painter add escape sequences at most. -/
theorem decorating_ofPainter {painter : Painter} (h : painter.Wraps) (choice : Choice) :
    (ofPainter painter choice).Decorating := by
  have hpen (chosen : Bool) (colour : Colour) :
      (if chosen then Pen.ofPainter painter colour else .plain).Decorating := by
    cases chosen with
    | false => exact fun _ hword => .refl hword
    | true => exact fun word hword => h.paint true _ word.toList hword
  exact ⟨hpen _ _, hpen _ _, hpen _ _⟩

/-- Plain pens have more room than those of a painter. -/
theorem roomier_ofPainter (painter : Painter) (choice : Choice) (limit : Option Nat) :
    (ofPainter painter choice).Roomier limit limit plain := by
  have hpen (chosen : Bool) (colour : Colour) :
      (if chosen then Pen.ofPainter painter colour else .plain).Roomier limit limit .plain := by
    intro depth hdeep
    cases chosen with
    | false => exact hdeep
    | true =>
      by_contra hfits
      rw [Bool.not_eq_true] at hfits
      have hle : depth + Pen.plain.frames ≤ depth + (Pen.ofPainter painter colour).frames :=
        Nat.add_le_add_left (Nat.le_add_right _ _) _
      rw [exceeds_eq_false_of_le hle hfits] at hdeep
      cases hdeep
  exact ⟨fun _ => id, hpen _ _, hpen _ _, hpen _ _⟩

/-- With as many frames more as painting takes, the pens of a painter have no less room than plain ones. -/
theorem roomier_plain (painter : Painter) (choice : Choice) (limit : Nat) :
    plain.Roomier (some limit) (some (limit + painter.frames)) (ofPainter painter choice) := by
  have hpen (chosen : Bool) (colour : Colour) :
      Pen.plain.Roomier (some limit) (some (limit + painter.frames))
        (if chosen then .ofPainter painter colour else .plain) := by
    intro depth hdeep
    cases chosen with
    | false =>
      simp only [exceeds_some, Bool.false_eq_true, if_false, decide_eq_true_eq] at hdeep ⊢
      omega
    | true =>
      simp only [exceeds_some, Pen.ofPainter, if_true, decide_eq_true_eq] at hdeep ⊢
      omega
  exact ⟨wider_some (Nat.le_add_right _ _), hpen _ _, hpen _ _, hpen _ _⟩

/-- Without a limit there is room for everything. -/
theorem roomier_none (p p' : Palette) : p.Roomier none none p' :=
  ⟨fun _ => id, fun _ h => (by cases h), fun _ h => (by cases h), fun _ h => (by cases h)⟩

theorem decorates_closeSucc (n : Nat) {painted text : List Char} (h : Decorates painted text) :
    Decorates (closeSucc n painted) (closeSucc n text) := by
  refine .append (.refl fun hm => ?_) h
  exact absurd (List.eq_of_mem_replicate hm) (by decide)

variable {p : Palette} (hp : p.Decorating)
include hp

theorem Decorating.keyword (word : String) (h : '\x1b' ∉ word.toList) :
    Decorates (p.keyword word) (plain.keyword word) :=
  hp.keywords word h

theorem Decorating.constructor (word : String) (h : '\x1b' ∉ word.toList) :
    Decorates (p.constructor word) (plain.constructor word) :=
  hp.constructors word h

theorem Decorating.name (word : String) (h : '\x1b' ∉ word.toList) :
    Decorates (p.name word) (plain.name word) :=
  hp.names word h

theorem Decorating.openSucc (n : Nat) {painted text : List Char} (h : Decorates painted text) :
    Decorates (p.openSucc n painted) (plain.openSucc n text) := by
  induction n with
  | zero => exact h
  | succ n ih =>
    rw [openSucc_succ, openSucc_succ]
    exact (hp.constructor "s" (by decide)).append (.cons (by decide) ih)

theorem Decorating.definition {head head' : List Char} (h : Decorates head head') :
    Decorates (p.definition head) (plain.definition head') :=
  ((hp.keyword "def" (by decide)).append (.cons (by decide) h)).append (.refl (by decide))

theorem Decorating.signature {name : String} {params : List String} (hname : '\x1b' ∉ name.toList)
    (hparams : Unescaped params) :
    Decorates (p.signature name params) (plain.signature name params) := by
  have hlist : Decorates (Text.commaSeparated (params.map p.name))
      (Text.commaSeparated (params.map plain.name)) :=
    .intercalate (by decide) (Decorates.forall₂_map fun param hm => hp.name param (hparams param hm))
  exact ((hp.name name hname).append (.cons (by decide) hlist)).append (.refl (by decide))

end Palette

namespace Expr

open Style

variable {p : Palette}

mutual

theorem decorates_writeInside (hp : p.Decorating) (n : Nat) {painted text : List Char}
    (h : Decorates painted text) :
    ∀ e : Expr, Unescaped e.names → Decorates (e.writeInside p n painted) (e.writeInside .plain n text)
  | zero, _ => hp.openSucc n (.append (hp.constructor "z" (by decide)) (Palette.decorates_closeSucc n h))
  | succ arg, he => decorates_writeInside hp (n + 1) h arg he
  | var name, he =>
    hp.openSucc n
      (.append (hp.name name (he name List.mem_cons_self)) (Palette.decorates_closeSucc n h))
  | call callee args, he => by
    obtain ⟨hf, hargs⟩ := List.forall_mem_cons.mp he
    refine hp.openSucc n (.append (hp.name callee hf) (.cons (by decide) ?_))
    exact decorates_writeArgs hp (.cons (by decide) (Palette.decorates_closeSucc n h)) args hargs
  | cond left right yes no, he => by
    obtain ⟨hl, he⟩ := List.forall_mem_append.mp he
    obtain ⟨hr, he⟩ := List.forall_mem_append.mp he
    obtain ⟨hy, hn⟩ := List.forall_mem_append.mp he
    have hif : Decorates (p.keyword "if" ++ '(' :: p.keyword "eq")
        (Palette.plain.keyword "if" ++ '(' :: Palette.plain.keyword "eq") :=
      (hp.keyword "if" (by decide)).append
        (.cons (by decide) (hp.keyword "eq" (by decide)))
    have hthen : Decorates (")) ".toList ++ p.keyword "then")
        (")) ".toList ++ Palette.plain.keyword "then") :=
      .append (.refl (by decide)) (hp.keyword "then" (by decide))
    have helse : Decorates (' ' :: p.keyword "else") (' ' :: Palette.plain.keyword "else") :=
      .cons (by decide) (hp.keyword "else" (by decide))
    -- The text is taken apart from the left: what stands before each part, and then the part.
    refine hp.openSucc n (.append hif (.cons (by decide) ?_))
    refine decorates_writeInside hp 0 (.append (.refl (by decide)) ?_) left hl
    refine decorates_writeInside hp 0 (.append hthen (.cons (by decide) ?_)) right hr
    refine decorates_writeInside hp 0 (.append helse (.cons (by decide) ?_)) yes hy
    exact decorates_writeInside hp 0 (Palette.decorates_closeSucc n h) no hn
  | equation _ _, _ => h
  | .text _, _ => h

theorem decorates_writeArgs (hp : p.Decorating) {painted text : List Char} (h : Decorates painted text) :
    ∀ es : List Expr, Unescaped (namesAll es) →
      Decorates (writeArgs p es painted) (writeArgs .plain es text)
  | [], _ => h
  | [e], hes => decorates_writeInside hp 0 h e (List.forall_mem_append.mp hes).1
  | e :: e' :: es, hes => by
    obtain ⟨he, hes⟩ := List.forall_mem_append.mp hes
    rw [writeArgs_cons_cons, writeArgs_cons_cons]
    exact decorates_writeInside hp 0 (.append (.refl (by decide)) (decorates_writeArgs hp h (e' :: es) hes)) e he

end

theorem decorates_write (hp : p.Decorating) {e : Expr} (h : Unescaped e.names) :
    Decorates (e.write p) (e.write .plain) :=
  decorates_writeInside hp 0 .nil e h

end Expr

namespace Definition

open Style

theorem decorates_write {p : Palette} (hp : p.Decorating) {d : Definition} (h : Unescaped d.names) :
    Decorates (d.write p) (d.write .plain) := by
  cases d with
  | value name body =>
    obtain ⟨hname, hbody⟩ := List.forall_mem_cons.mp h
    exact (hp.definition (hp.name name hname)).append (Expr.decorates_write hp hbody)
  | function name params body =>
    obtain ⟨hname, h⟩ := List.forall_mem_cons.mp h
    obtain ⟨hparams, hbody⟩ := List.forall_mem_append.mp h
    exact (hp.definition (hp.signature hname hparams)).append
      (Expr.decorates_write hp hbody)

end Definition

namespace Script

open Style

theorem decorates_write {p : Palette} (hp : p.Decorating) {s : Script} (h : Unescaped s.names) :
    Decorates (s.write p) (s.write .plain) := by
  obtain ⟨hdefinitions, hresult⟩ := List.forall_mem_append.mp h
  rw [List.forall_mem_flatMap] at hdefinitions hresult
  rw [write, write, Option.toList_map, Option.toList_map]
  refine .intercalate (by decide) (List.rel_append (Decorates.forall₂_map ?_) (Decorates.forall₂_map ?_))
  · exact fun d hd => Definition.decorates_write hp (hdefinitions d hd)
  · exact fun e he => Expr.decorates_write hp (hresult e he)

end Script

theorem Term.decorates_write {p : Palette} (hp : p.Decorating) {t : Term} (h : Unescaped t.names) :
    Style.Decorates (t.write p) (t.write .plain) := by
  rw [write, write, ← writeInside_toExpr, ← writeInside_toExpr]
  exact Expr.decorates_write hp h

theorem Program.decorates_write {p : Palette} (hp : p.Decorating) {program : Program}
    (h : Unescaped program.names) :
    Style.Decorates (program.write p) (program.write .plain) := by
  rw [← write_toScript, ← write_toScript]
  exact Script.decorates_write hp h

/-- Characters of a line are characters of the text, or of what stands before it on its first line. -/
theorem Text.mem_of_mem_linesFrom {before source line : List Char} (h : line ∈ linesFrom before source)
    {c : Char} (hc : c ∈ line) : c ∈ before ∨ c ∈ source := by
  fun_induction linesFrom before source <;> grind

/-- A line taken by its number has only characters of the text. -/
theorem Text.not_mem_getD_lines {c : Char} {source : List Char} (h : c ∉ source) (i : Nat) :
    c ∉ (lines source).getD i [] := by
  intro hc
  rw [List.getD_eq_getElem?_getD] at hc
  cases hi : (lines source)[i]? with
  | none =>
    rw [hi] at hc
    cases hc
  | some line =>
    rw [hi] at hc
    rcases mem_of_mem_linesFrom (List.mem_of_getElem? hi) hc with hnil | hsource
    · cases hnil
    · exact h hsource

namespace Report

open Style

theorem escape_not_mem_toString (n : Nat) : '\x1b' ∉ (toString n).toList := by
  intro h
  rw [Nat.toString_eq_repr, Nat.toList_repr] at h
  have hdigit := Nat.isDigit_of_mem_toDigits (by decide) (by decide) h
  cases hdigit

theorem escape_not_mem_locationChars (notice : Notice) {source : Option String} {path : String}
    (hp : '\x1b' ∉ path.toList) : '\x1b' ∉ locationChars notice source path := by
  unfold locationChars
  split
  next =>
    simp only [List.mem_append, List.mem_cons, not_or]
    exact ⟨⟨hp, by decide, escape_not_mem_toString _⟩, by decide, escape_not_mem_toString _⟩
  next => exact hp

variable {painter : Painter} (hw : painter.Wraps)
include hw

theorem decorates_excerptChars {source : List Char} (h : '\x1b' ∉ source) (offset : Int) :
    Decorates (excerptChars (painter.styled true) source offset)
      (excerptChars (painter.styled false) source offset) := by
  let line := (Text.lines source).getD ((Text.Position.ofOffset source offset).line - 1) []
  let start := (Text.Position.ofOffset source offset).column - 1
  have hline : '\x1b' ∉ line := Text.not_mem_getD_lines h _
  have hbefore : '\x1b' ∉ line.take start := fun hm => hline (List.mem_of_mem_take hm)
  have hat : '\x1b' ∉ (line.drop start).take 1 := fun hm =>
    hline (List.mem_of_mem_drop (List.mem_of_mem_take hm))
  have hafter : '\x1b' ∉ line.drop (start + 1) := fun hm => hline (List.mem_of_mem_drop hm)
  have hindent : '\x1b' ∉ List.replicate start ' ' := fun hm =>
    absurd (List.eq_of_mem_replicate hm) (by decide)
  unfold excerptChars
  -- The pieces are taken off from the end.
  refine .append ?_ (hw.styled alarm _ (by decide))
  refine .append ?_ (.refl hindent)
  refine .append ?_ (.refl (by decide))
  refine .append ?_ (.refl hafter)
  refine .append ?_ (hw.styled alarm _ hat)
  exact .append (.refl (by decide)) (.refl hbefore)

theorem decorates_heading (notice : Notice) {source path : Option String} (hp : Unescaped path.toList) :
    Decorates (heading (painter.styled true) notice source path)
      (heading (painter.styled false) notice source path) := by
  cases path with
  | none => exact .nil
  | some path =>
    rw [heading, heading]
    split
    next => exact .nil
    next =>
      refine hw.styled place _ ?_
      rw [List.mem_append, not_or]
      exact ⟨escape_not_mem_locationChars notice (hp path List.mem_cons_self), by decide⟩

theorem decorates_renderChars {notice : Notice} {source path : Option String}
    (hm : '\x1b' ∉ messageChars notice) (hs : Unescaped source.toList) (hp : Unescaped path.toList) :
    Decorates (renderChars (painter.styled true) notice source path)
      (renderChars (painter.styled false) notice source path) := by
  unfold renderChars
  refine .append ?_ ?_
  · refine .append ?_ (.refl hm)
    exact (decorates_heading hw notice hp).append (hw.styled alarm _ (by decide))
  · split
    next text offset _ =>
      exact .cons (by decide) (decorates_excerptChars hw (hs text List.mem_cons_self) offset)
    next => exact .nil

end Report

namespace Style

theorem strip_ofList {painted text : List Char} (h : Decorates painted text) :
    strip (String.ofList painted) = String.ofList text := by
  rw [strip, String.toList_ofList, h.stripChars_eq]

/-- Whether what is painted, as it comes out under each limit, is what is plain with escape sequences. Without a
limit there is a text of both or the same error. A limit can do no more than to stop the painting sooner, and by
no more than the frames that painting takes. -/
structure Ornate (frames : Nat) (painted plain : Option Nat → Except FormatError String) : Prop where
  unbounded : (painted none).map strip = plain none
  bounded : ∀ limit, Widened .tooDeep ((painted limit).map strip) (plain limit)
  covered : ∀ limit : Nat, Widened .tooDeep (plain (some limit)) ((painted (some (limit + frames))).map strip)

/-- Whether there is a text does not depend on how it is painted, but for the frames. -/
theorem Ornate.of_widened (painter : Painter) (choice : Palette.Choice) {painted text : List Char}
    (h : Decorates painted text) (check : Option Nat → Palette → Except FormatError Unit)
    (hcheck : ∀ {limit limit' p p'}, Palette.Roomier limit p limit' p' →
      Widened .tooDeep (check limit p) (check limit' p')) :
    Ornate painter.frames
      (fun limit => do check limit (.ofPainter painter choice); return String.ofList painted)
      fun limit => do check limit .plain; return String.ofList text := by
  have hmap (x : Except FormatError Unit) :
      (do x; return String.ofList painted : Except FormatError String).map strip =
        do x; return String.ofList text := by
    cases x with
    | error e => rfl
    | ok => exact congrArg Except.ok (strip_ofList h)
  have hroom := Palette.roomier_ofPainter painter choice
  refine ⟨?_, fun limit => ?_, fun limit => ?_⟩
  · have hback := Palette.roomier_none .plain (.ofPainter painter choice)
    rw [hmap, (hcheck (hroom none)).antisymm (hcheck hback)]
  · rw [hmap]
    exact (hcheck (hroom limit)).bind fun _ => .same _
  · rw [hmap]
    exact (hcheck (Palette.roomier_plain painter choice limit)).bind fun _ => .same _

/-- Colours add nothing but escape sequences, whatever painter is given for each setting of the variables, if it
does no more than to wrap texts in escape sequences. Of a tree, a definition, a script or a program over names
without escape characters, the text with any choice of colours is the text without any once the sequences are
deleted, and if nothing can be written the error is the same. A limit can stop the painting sooner, as painting
takes frames, and with so many frames more it does not. So it is with excerpts and reports in every environment,
if the source, the path and the message have no escape characters. -/
theorem strip_coloured (painters : Colouring → Painter) (hwraps : ∀ c, (painters c).Wraps)
    (env : Environment) :
    let painter := painters env.colouring
    (∀ choice : Palette.Choice, let p := Palette.ofPainter painter choice
      let off := Palette.ofPainter painter ⟨false, false, false⟩
      (∀ e : Expr, Unescaped e.names → Ornate painter.frames (e.format · p) (e.format · off)) ∧
      (∀ t : Term, Unescaped t.names → Ornate painter.frames (t.format · p) (t.format · off)) ∧
      (∀ d : Definition, Unescaped d.names → Ornate painter.frames (d.format · p) (d.format · off)) ∧
      (∀ s : Script, Unescaped s.names → Ornate painter.frames (s.format · p) (s.format · off)) ∧
      ∀ program : Program, Unescaped program.names →
        Ornate painter.frames (program.format · p) (program.format · off)) ∧
    (∀ (source : String) (offset : Int), '\x1b' ∉ source.toList →
      strip (Report.excerpt (painter.styled true) source offset) =
        Report.excerpt (painter.styled false) source offset) ∧
    ∀ (notice : Notice) (source path : Option String), '\x1b' ∉ Report.messageChars notice →
      Unescaped source.toList → Unescaped path.toList →
      strip (Report.render (painter.styled true) notice source path) =
        Report.render (painter.styled false) notice source path := by
  intro painter
  have hw : painter.Wraps := hwraps env.colouring
  refine ⟨fun choice => ?_, ?_, ?_⟩
  · intro p off
    have hp : p.Decorating := Palette.decorating_ofPainter hw choice
    refine ⟨?_, ?_, ?_, ?_, ?_⟩
    · exact fun e he => .of_widened painter choice (Expr.decorates_write hp he)
        (fun limit p => e.checkWrite limit p 2) fun hroom => Expr.widened_checkWrite hroom 2 e
    · exact fun t ht => .of_widened painter choice (Term.decorates_write hp ht)
        (fun limit p => t.checkWrite limit p 2) fun hroom => Term.widened_checkWrite hroom 2 t
    · exact fun d hd => .of_widened painter choice (Definition.decorates_write hp hd)
        (fun limit p => d.body.checkWrite limit p 3) fun hroom => Expr.widened_checkWrite hroom 3 d.body
    · exact fun s hs => .of_widened painter choice (Script.decorates_write hp hs)
        (fun limit p => s.checkWrite limit p) fun hroom => Script.widened_checkWrite hroom s
    · exact fun program h => .of_widened painter choice (Program.decorates_write hp h)
        (fun limit p => program.checkWrite limit p) fun hroom => Term.widened_checkWriteAll hroom 2 _
  · exact fun source offset hs => strip_ofList (Report.decorates_excerptChars hw hs offset)
  · exact fun notice source path hm hs hp => strip_ofList (Report.decorates_renderChars hw hm hs hp)

/-- Names, a source, a path and a message that could go on or end a sequence, next to the colours. -/
theorem strip_coloured_brackets :
    let env : Environment := { Environment.empty with forceColor := some "1" }
    let painter := Painter.escaping env.colouring
    let p : Palette := .ofPainter painter ⟨true, true, true⟩
    let e : Expr := .succ (.call "[0m" [.var "m", .cond .zero (.var "[") .zero (.call "1m" [])])
    let d : Definition := .function "f" ["m", "["] e
    let program : Program := ⟨⟨[("f", ⟨["m", "["], e.toTerm⟩)]⟩, ⟨[("31m", 1)]⟩, none⟩
    let notice : Notice := ⟨none, "[31m", some 2⟩
    (∀ c, (Painter.escaping c).Wraps) ∧ Unescaped program.names ∧ '\x1b' ∉ Report.messageChars notice ∧
      program.format none p ≠ program.format none .plain ∧
      painter.styled true Report.alarm ['m'] ≠ ['m'] ∧
      (e.format none p).map strip = .ok "s([0m(m, if(eq(z, [)) then z else 1m()))" ∧
      (e.toTerm.format none p).map strip = .ok "s([0m(m, if(eq(z, [)) then z else 1m()))" ∧
      (d.format none p).map strip = .ok "def f(m, [) = s([0m(m, if(eq(z, [)) then z else 1m()))" ∧
      (Script.format none p ⟨[d], some (.var "m")⟩).map strip =
        .ok "def f(m, [) = s([0m(m, if(eq(z, [)) then z else 1m()))\nm" ∧
      (program.format none p).map strip =
        .ok "def f(m, [) = s([0m(m, if(eq(z, [)) then z else 1m()))\ndef 31m = s(z)" ∧
      strip (Report.excerpt (painter.styled true) "z [m" 2) = "  z [m\n    ^" ∧
      strip (Report.render (painter.styled true) notice (some "z [m") (some "[0m")) =
        "[0m:1:3: error: [31m\n  z [m\n    ^" := by
  intro env painter p e d program notice
  obtain ⟨hformat, hexcerpt, hrender⟩ := strip_coloured .escaping Painter.wraps_escaping env
  obtain ⟨hexpr, hterm, hdefinition, hscript, hprogram⟩ := hformat ⟨true, true, true⟩
  have hnames : Unescaped program.names := by decide
  have hmessage : '\x1b' ∉ Report.messageChars notice := by decide
  refine ⟨Painter.wraps_escaping, hnames, hmessage, by decide +kernel, by decide, ?_, ?_, ?_, ?_, ?_, ?_, ?_⟩
  · exact (hexpr e (by decide)).unbounded.trans (by decide)
  · exact (hterm e.toTerm (by decide)).unbounded.trans (by decide)
  · exact (hdefinition d (by decide)).unbounded.trans (by decide)
  · exact (hscript _ (by decide)).unbounded.trans (by decide)
  · exact (hprogram program hnames).unbounded.trans (by decide)
  · exact (hexcerpt _ _ (by decide)).trans (by decide)
  · exact (hrender notice _ _ hmessage (by decide) (by decide)).trans (by decide)

/-- A numeral so long that there is just room to write it without colours. -/
theorem strip_coloured_long_numeral :
    let painter := Painter.escaping Environment.empty.colouring
    let p : Palette := .ofPainter painter ⟨false, true, false⟩
    let off : Palette := .ofPainter painter ⟨false, false, false⟩
    let e : Expr := .numeral 995
    painter.Wraps ∧ Unescaped e.names ∧
      e.format (some 1000) off = .ok (String.ofList (off.numeral 995)) ∧
      e.format (some 1000) p = .error .tooDeep ∧
      (e.format (some 1000) p).map strip ≠ e.format (some 1000) off := by
  intro painter p off e
  have hnames : e.names = [] := Expr.names_addSucc 995 .zero
  have hoff : e.format (some 1000) off = .ok (String.ofList (off.numeral 995)) :=
    Expr.format_numeral_within (some 1000) off 995
  have hp : e.format (some 1000) p = .error .tooDeep :=
    Expr.format_numeral_within (some 1000) p 995
  refine ⟨Painter.wraps_escaping _, ?_, hoff, hp, ?_⟩
  · rw [hnames]
    exact List.forall_mem_nil _
  · rw [hp, hoff]
    intro heq
    cases heq

end Style

end Unary
