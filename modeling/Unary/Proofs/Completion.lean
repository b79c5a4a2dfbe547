import Unary.Proofs.Composition
import Unary.Proofs.RoundTrip

/-!
Wherever a reading stands, the text can still become a script.

A reading is `Completable` when some tokens lead it to an end that is allowed. Each place in an expression
is filled with zero and closed in turn, so the proof goes through the places that are open. The tokens are
then written with blanks between them.
-/

namespace Unary

/-- Whether the text of a token is read as that token. -/
def Token.isWritten : Token → Bool
  | .ident name => isName name
  | _ => true

namespace Reading

/-- Lexemes of some tokens, wherever they stand in a text, end the reading with a script. -/
def Completable (r : Reading) : Prop :=
  ∃ tokens : List Token, (∀ t ∈ tokens, t.isWritten = true) ∧
    ∀ ls : List Lexeme, ls.map Lexeme.token = tokens → ∃ s, r.reads ls = some s

theorem completable_of_finish {r : Reading} {s : Script} (h : r.finish = some s) :
    Completable r := by
  refine ⟨[], by simp, fun ls hls => ⟨s, ?_⟩⟩
  rw [List.map_eq_nil_iff.mp hls]
  exact h

/-- A reading can be completed if one token leads to a reading that can be. -/
theorem completable_of_expects {r r' : Reading} {token : Token}
    (h : ∀ ls s, Expects token r' ls s → r.reads ls = some s) (htoken : token.isWritten = true)
    (hr : Completable r') : Completable r := by
  obtain ⟨tokens, hwritten, hread⟩ := hr
  refine ⟨token :: tokens, ?_, fun ls hls => ?_⟩
  · intro t ht
    rcases List.mem_cons.mp ht with rfl | ht
    · exact htoken
    · exact hwritten t ht
  · obtain ⟨l, rest, rfl, hl, hrest⟩ := List.map_eq_cons_iff.mp hls
    obtain ⟨s, hs⟩ := hread rest hrest
    exact ⟨s, h _ s ⟨l, rest, rfl, hl, hs⟩⟩

theorem completable_of_accept {r r' : Reading} (token : Token) (htoken : token.isWritten = true)
    (hr : Completable r') (h : ∀ l, l.token = token → r.accept l = some r') : Completable r := by
  refine completable_of_expects ?_ htoken hr
  rintro _ s ⟨l, rest, rfl, hl, hs⟩
  exact reads_cons.mpr ⟨r', h l hl, hs⟩

section Places

variable {defs : List Definition} {target : Target} {depth : Nat} {slots : List Slot}

theorem completable_of_only {want : Want} {token : Token} {r : Reading}
    (h : only defs target depth slots want = some (token, r)) (htoken : token.isWritten = true)
    (hr : Completable r) : Completable (inside defs target depth slots want) :=
  completable_of_expects (fun ls s => (reads_only h ls s).mpr) htoken hr

theorem completable_expression (h : Completable (fill defs target depth .zero slots)) :
    Completable (inside defs target depth slots .expression) := by
  refine completable_of_accept .zero rfl h fun l hl => ?_
  simp [accept, acceptInside, start, hl]

variable (defs target slots) in
/-- Whatever expression comes to stand in the innermost place, the reading can be completed. -/
def Closable : Prop :=
  ∀ depth e, Completable (fill defs target depth e slots)

/-! What is wanted in a conditional, from its end to its beginning, and then in successors and calls. -/

theorem Closable.no (h : Closable defs target slots) (a b c : Expr) :
    Completable (inside defs target depth slots (.no a b c)) :=
  completable_of_only rfl rfl (completable_expression (h _ _))

theorem Closable.yes (h : Closable defs target slots) (a b : Expr) :
    Completable (inside defs target depth slots (.yes a b)) :=
  completable_of_only rfl rfl (completable_expression (h.no _ _ _))

theorem Closable.condClose (h : Closable defs target slots) (a b : Expr) :
    Completable (inside defs target depth slots (.condClose a b)) :=
  completable_of_only rfl rfl (h.yes a b)

theorem Closable.equateClose (h : Closable defs target slots) (a b : Expr) :
    Completable (inside defs target depth slots (.equateClose a b)) :=
  completable_of_only rfl rfl (h.condClose a b)

theorem Closable.operandEnd (h : Closable defs target slots) (a : Expr) :
    Completable (inside defs target depth slots (.operandEnd a)) :=
  completable_of_only rfl rfl (completable_expression (h.equateClose _ _))

theorem Closable.equateOpen (h : Closable defs target slots) :
    Completable (inside defs target depth slots .equateOpen) :=
  completable_of_only rfl rfl (completable_expression (h.operandEnd _))

theorem Closable.equate (h : Closable defs target slots) :
    Completable (inside defs target depth slots .equate) :=
  completable_of_only rfl rfl h.equateOpen

theorem Closable.argEnd (h : Closable defs target slots) (callee : String) (done : List Expr)
    (e : Expr) : Completable (inside defs target depth slots (.argEnd callee done e)) :=
  completable_of_expects (fun _ _ hs => reads_argEnd.mpr (.inr hs)) rfl (h _ _)

theorem Closable.succClose (h : Closable defs target slots) (count : Nat) (e : Expr) :
    Completable (inside defs target depth slots (.succClose count e)) := by
  induction count generalizing e with
  | zero =>
    refine completable_of_accept .rparen rfl (h depth (.succ e)) fun l hl => ?_
    simp [accept, acceptInside, hl]
  | succ count ih =>
    refine completable_of_accept .rparen rfl (ih (.succ e)) fun l hl => ?_
    simp [accept, acceptInside, hl]

theorem Closable.succOpen (h : Closable defs target slots) :
    Completable (inside defs target depth slots .succOpen) := by
  obtain ⟨depth', slots', hopen, hclose⟩ := reads_succOpen defs target depth slots
  have hzero : Completable (fill defs target depth' .zero slots') :=
    completable_of_expects (fun ls s => (hclose .zero ls s).mpr) rfl (h depth (.succ .zero))
  exact completable_of_expects (fun ls s => (hopen ls s).mpr) rfl (completable_expression hzero)

/-- An expression in an open place closes what is around it, place by place. -/
theorem closable (slots : List Slot) : Closable defs target slots := by
  induction slots with
  | nil =>
    intro depth e
    cases target with
    | result => exact completable_of_finish rfl
    | value name => exact completable_of_finish rfl
    | function name params => exact completable_of_finish rfl
  | cons slot slots ih =>
    intro depth e
    cases slot with
    | succ count => exact ih.succClose count e
    | arg callee done => exact ih.argEnd callee done e
    | left => exact ih.operandEnd e
    | right a => exact ih.equateClose a e
    | yes a b => exact ih.no a b e
    | no a b c => exact ih (depth - 2) (.cond a b c e)

theorem completable_inside (want : Want) : Completable (inside defs target depth slots want) := by
  have h : Closable defs target slots := closable slots
  cases want with
  | expression => exact completable_expression (h _ _)
  | succOpen => exact h.succOpen
  | succClose count e => exact h.succClose count e
  | callOpen callee => exact completable_of_only rfl rfl (completable_expression (h.argEnd _ _ _))
  | argEnd callee done e => exact h.argEnd callee done e
  | condOpen => exact completable_of_only rfl rfl h.equate
  | equate => exact h.equate
  | equateOpen => exact h.equateOpen
  | operandEnd a => exact h.operandEnd a
  | equateClose a b => exact h.equateClose a b
  | condClose a b => exact h.condClose a b
  | yes a b => exact h.yes a b
  | no a b c => exact h.no a b c

end Places

/-- Every reading can be completed. -/
theorem completable (r : Reading) : Completable r := by
  have hequals (defs : List Definition) (target : Target) : Completable (equals defs target) :=
    completable_of_expects (fun ls s => (reads_equals ls s).mpr) rfl (completable_inside _)
  have hend (defs : List Definition) (name : String) (params : List String) :
      Completable (parameterEnd defs name params) := by
    have hfunction := hequals defs (.function name params.reverse)
    exact completable_of_accept .rparen rfl hfunction fun l hl => by simp [accept, hl]
  have hhead (defs : List Definition) (name : String) : Completable (head defs name) :=
    completable_of_expects (fun _ _ h => reads_head_iff.mpr (.inl h)) rfl (completable_inside _)
  cases r with
  | item defs => exact completable_of_finish rfl
  | definedName defs =>
    exact completable_of_expects (fun _ _ h => reads_definedName_iff.mpr ⟨"x", h⟩) rfl (hhead defs "x")
  | head defs name => exact hhead defs name
  | parameter defs name params =>
    have hnext := hend defs name ("x" :: params)
    exact completable_of_accept (.ident "x") rfl hnext fun l hl => by simp [accept, hl]
  | parameterEnd defs name params => exact hend defs name params
  | equals defs target => exact hequals defs target
  | inside defs target depth slots want => exact completable_inside want
  | closed defs e => exact completable_of_finish rfl

end Reading

namespace Stream

/-- Tokens with a blank after each of them. -/
def spaced (tokens : List Token) : List Char :=
  tokens.flatMap fun t => t.text.toList ++ [' ']

theorem begins_token {t : Token} (ht : t.isWritten = true) {Kind : List Lexeme → Prop}
    {offset : Nat} {cs rest : List Char} (hb : isBoundary cs = true)
    (h : ∀ l, l.token = t → Begins (fun ls => Kind (l :: ls)) l.stop cs rest) :
    Begins Kind offset (t.text.toList ++ cs) rest := by
  cases t with
  | ident name => exact .ident ht hb h
  | lparen => exact .mark rfl fun l hl _ => h l hl
  | rparen => exact .mark rfl fun l hl _ => h l hl
  | equals => exact .mark rfl fun l hl _ => h l hl
  | comma => exact .mark rfl fun l hl _ => h l hl
  | _ => exact .word rfl hb h

theorem begins_spaced {tokens : List Token} (ht : ∀ t ∈ tokens, t.isWritten = true)
    (offset : Nat) : Begins (fun ls => ls.map Lexeme.token = tokens) offset (spaced tokens) [] := by
  induction tokens generalizing offset with
  | nil => exact .finish rfl
  | cons t tokens ih =>
    have htext : spaced (t :: tokens) = t.text.toList ++ ' ' :: spaced tokens := by
      simp [spaced]
    rw [htext]
    refine begins_token (ht t List.mem_cons_self) rfl fun l hl => .blank rfl ?_
    have hrest := ih (fun t' ht' => ht t' (List.mem_cons_of_mem t ht')) (l.stop + 1)
    exact hrest.mono fun ls hls => by rw [List.map_cons, hl, hls]

end Stream

namespace Reading

theorem acceptAll_cons_eq_ok_iff {r last : Reading} {l : Lexeme} {ls : List Lexeme} :
    acceptAll none r (l :: ls) = .ok last ↔
      ∃ r', r.accept l = some r' ∧ acceptAll none r' ls = .ok last := by
  rw [acceptAll]
  cases r.accept l <;> simp

theorem reads_append {r r' : Reading} {ls : List Lexeme} (h : acceptAll none r ls = .ok r')
    (ls' : List Lexeme) : r.reads (ls ++ ls') = r'.reads ls' := by
  induction ls generalizing r with
  | nil =>
    cases h
    rfl
  | cons l ls ih =>
    obtain ⟨next, ha, hls⟩ := acceptAll_cons_eq_ok_iff.mp h
    rw [List.cons_append, reads, ha]
    exact ih hls

end Reading

/-- A text of lexemes that may all come can be continued to a script. -/
theorem Script.exists_parse_append {cs : List Char} {ls : List Lexeme} {k : Nat} {r : Reading}
    (hs : Stream.ofChars cs = ⟨ls, .finish k⟩) (ha : Reading.acceptAll none (.item []) ls = .ok r) :
    ∃ (t : String) (s : Script), parse none (String.ofList cs ++ t) = .ok s := by
  obtain ⟨tokens, hwritten, hread⟩ := r.completable
  obtain ⟨ls', k', htokens, hs'⟩ := Stream.begins_spaced hwritten (0 + cs.length + 1)
  obtain ⟨s, hr⟩ := hread ls' htokens
  refine ⟨String.ofList (' ' :: Stream.spaced tokens), s, ?_⟩
  have hblank : Text.isBlank ' ' = true := rfl
  have hstream : Stream.ofChars (cs ++ ' ' :: Stream.spaced tokens) = ⟨ls ++ ls', .finish k'⟩ := by
    refine (Stream.ofOffset_append hblank (Stream.spaced tokens) hs).trans ?_
    rw [Stream.ofOffset_blank hblank, hs', Stream.ofOffset_nil]
    simp [Stream.prepend]
  refine (parse_eq_ok_iff _ s).mpr ((derives_iff_reads _ s).mpr ⟨k', ?_⟩)
  rw [String.toList_append, String.toList_ofList, String.toList_ofList, hstream]
  exact ⟨rfl, (Reading.reads_append ha ls').trans hr⟩

end Unary
