import Mathlib.Data.List.Chain
import Unary.Proofs.Completion
import Unary.Proofs.Composition
import Unary.Proofs.Nesting
import Unary.Proofs.ProgramText
import Unary.Proofs.Sessions
import Unary.Store

/-!
Numerals of any size, from their text to their number.

The reading counts the successors that are opened and then those that are closed, and depth is spent on the
run of them and not on each. So zero inside opened and closed successors is read if there are as many of one
as of the other, and if not the error is where the shorter count ends, whatever the size is and wherever
blanks stand. What is read comes to its number, and the cells of that number count to it.
-/

namespace Unary

namespace Token

/-- Whether a token is a mark of punctuation and no word. -/
def isMark : Token → Bool
  | lparen | rparen | equals | comma => true
  | _ => false

/-- Tokens written one after the other, with any blanks before each of them and at the end. -/
inductive Spread : List Token → List Char → Prop
  | finish {gap : List Char} : gap.all Text.isBlank = true → Spread [] gap
  | token {gap cs : List Char} {t : Token} {tokens : List Token} :
      gap.all Text.isBlank = true → Spread tokens cs → Spread (t :: tokens) (gap ++ (t.text.toList ++ cs))

/-- The tokens that open successors one inside the other. -/
def openings : Nat → List Token
  | 0 => []
  | n + 1 => succ :: lparen :: openings n

/-- Zero after successors that are opened and before parentheses that close them. -/
def nest (opened closed : Nat) : List Token :=
  openings opened ++ zero :: List.replicate closed rparen

theorem isBoundary_of_blank {c : Char} (hc : Text.isBlank c = true) (cs : List Char) :
    isBoundary (c :: cs) = true := by
  simp [isBoundary, Text.isAlphanum_of_isBlank hc]

/-- No word goes on into tokens of which the first is a mark. -/
theorem Spread.boundary {tokens : List Token} {cs : List Char} (h : Spread tokens cs)
    (hm : ∀ t ∈ tokens.head?, t.isMark = true) : isBoundary cs = true := by
  cases h with
  | finish hgap =>
    cases cs with
    | nil => rfl
    | cons c gap =>
      rw [List.all_cons, Bool.and_eq_true] at hgap
      exact isBoundary_of_blank hgap.1 gap
  | @token gap cs t tokens hgap _ =>
    cases gap with
    | nil =>
      have ht : t.isMark = true := hm t rfl
      cases t <;> first | rfl | cases ht
    | cons c gap =>
      rw [List.all_cons, Bool.and_eq_true] at hgap
      exact isBoundary_of_blank hgap.1 _

/-- Tokens are read from where they are spread if no word comes right after another one. -/
theorem Spread.begins {tokens : List Token} {cs : List Char} (h : Spread tokens cs)
    (hw : ∀ t ∈ tokens, t.isWritten = true)
    (hm : tokens.IsChain fun t t' => t.isMark = true ∨ t'.isMark = true) (offset : Nat) :
    Begins (fun ls => ls.map Lexeme.token = tokens) offset cs [] := by
  induction h generalizing offset with
  | @finish gap hgap =>
    refine ⟨[], offset + gap.length, rfl, ?_⟩
    rw [Stream.ofOffset_of_blanks hgap, Stream.ofOffset_nil]
    rfl
  | @token gap cs t tokens hgap hrest ih =>
    obtain ⟨hnext, hchain⟩ := List.isChain_cons.mp hm
    obtain ⟨ht, hwritten⟩ := List.forall_mem_cons.mp hw
    have hafter (l : Lexeme) (hl : l.token = t) :
        Begins (fun ls => (l :: ls).map Lexeme.token = t :: tokens) l.stop cs [] :=
      (ih hwritten hchain l.stop).mono fun ls hls => by rw [List.map_cons, hl, hls]
    have htoken : Begins (fun ls => ls.map Lexeme.token = t :: tokens) (offset + gap.length)
        (t.text.toList ++ cs) [] := by
      cases hmark : t.isMark with
      | false =>
        have hboundary : isBoundary cs = true := by
          refine hrest.boundary fun t' ht' => (hnext t' ht').resolve_left ?_
          simp [hmark]
        exact Stream.begins_token ht hboundary hafter
      | true =>
        cases t with
        | lparen | rparen | equals | comma => exact .mark rfl fun l hl _ => hafter l hl
        | _ => cases hmark
    obtain ⟨ls, stop, hls, hs⟩ := htoken
    exact ⟨ls, stop, hls, (Stream.ofOffset_blanks hgap offset _).trans hs⟩

theorem Spread.blank {tokens : List Token} {cs : List Char} (h : Spread tokens cs) {c : Char}
    (hc : Text.isBlank c = true) : Spread tokens (c :: cs) := by
  have hgap {gap : List Char} (h : gap.all Text.isBlank = true) : (c :: gap).all Text.isBlank = true := by
    rw [List.all_cons, hc, h]
    rfl
  cases h with
  | finish h => exact .finish (hgap h)
  | token h hrest => exact .token (hgap h) hrest

theorem spread_spaced (tokens : List Token) : Spread tokens (Stream.spaced tokens) := by
  induction tokens with
  | nil => exact .finish rfl
  | cons t tokens ih =>
    have htext : Stream.spaced (t :: tokens) = [] ++ (t.text.toList ++ ' ' :: Stream.spaced tokens) := by
      simp [Stream.spaced]
    rw [htext]
    exact .token rfl (ih.blank rfl)

theorem isWritten_of_mem_nest {m n : Nat} {t : Token} (h : t ∈ nest m n) : t.isWritten = true := by
  have hopenings (m : Nat) : ∀ t ∈ openings m, t.isWritten = true := by
    induction m with
    | zero => simp [openings]
    | succ m ih => exact List.forall_mem_cons.mpr ⟨rfl, List.forall_mem_cons.mpr ⟨rfl, ih⟩⟩
  rcases List.mem_append.mp h with h | h
  · exact hopenings m t h
  · rcases List.mem_cons.mp h with rfl | h
    · rfl
    · rw [List.eq_of_mem_replicate h]
      rfl

theorem isChain_nest (m n : Nat) :
    (nest m n).IsChain fun t t' => t.isMark = true ∨ t'.isMark = true := by
  have hmark (t : Token) {tokens : List Token} (ht : t.isMark = true)
      (h : tokens.IsChain fun t t' => t.isMark = true ∨ t'.isMark = true) :
      (t :: tokens).IsChain fun t t' => t.isMark = true ∨ t'.isMark = true :=
    List.isChain_cons.mpr ⟨fun _ _ => .inl ht, h⟩
  induction m with
  | zero =>
    refine List.isChain_cons.mpr ⟨fun t ht => .inr ?_, ?_⟩
    · rw [List.eq_of_mem_replicate (List.mem_of_mem_head? ht)]
      rfl
    · induction n with
      | zero => exact .nil
      | succ n ih => exact hmark rparen rfl ih
  | succ m ih => exact List.isChain_cons_cons.mpr ⟨.inr rfl, hmark lparen rfl ih⟩

end Token

namespace Reading

/-- The reading of a final expression inside successors of which so many are still to be closed. -/
def unclosed (e : Expr) : Nat → Reading
  | 0 => closed [] e
  | count + 1 => inside [] .result 0 [] (.succClose count e)

variable {limit : Option Nat} (hlimit : exceeds limit 1 = false)
include hlimit

theorem upTo_one (next : Except Stop Reading) : upTo limit 1 next = next := by
  simp [upTo, hlimit]

/-- A run of successors that is open gets longer, and no deeper. -/
theorem acceptAll_openings {n : Nat} {ls : List Lexeme} (h : ls.map Lexeme.token = Token.openings n)
    (count : Nat) (rest : List Lexeme) :
    acceptAll limit (inside [] .result 1 [.succ count] .expression) (ls ++ rest) =
      acceptAll limit (inside [] .result 1 [.succ (count + n)] .expression) rest := by
  induction n generalizing ls count with
  | zero => rw [List.map_eq_nil_iff.mp h, List.nil_append, Nat.add_zero]
  | succ n ih =>
    obtain ⟨s, _, rfl, hs, h⟩ := List.map_eq_cons_iff.mp h
    obtain ⟨p, ls, rfl, hp, h⟩ := List.map_eq_cons_iff.mp h
    have hsucc : (inside [] .result 1 [.succ count] .expression).accept s =
        some (inside [] .result 1 [.succ count] .succOpen) := by simp [accept, acceptInside, start, hs]
    have hopen : (inside [] .result 1 [.succ count] .succOpen).accept p =
        some (inside [] .result 1 [.succ (count + 1)] .expression) := by simp [accept, acceptInside, hp]
    rw [List.cons_append, List.cons_append, acceptAll_cons hsucc, acceptAll_cons hopen, depth_inside,
      depth_inside, upTo_one hlimit, upTo_one hlimit, ih h, Nat.add_right_comm, Nat.add_assoc]

/-- After openings and zero, as many successors are to be closed as were opened. -/
theorem acceptAll_opened {m : Nat} {ls : List Lexeme} (h : ls.map Lexeme.token = Token.openings m)
    {l : Lexeme} (hl : l.token = .zero) (rest : List Lexeme) :
    acceptAll limit (item []) (ls ++ l :: rest) = acceptAll limit (unclosed .zero m) rest := by
  cases m with
  | zero =>
    have hzero : (item []).accept l = some (closed [] .zero) := by simp [accept, start, hl, fill, close]
    rw [List.map_eq_nil_iff.mp h, List.nil_append, acceptAll_cons hzero]
    exact upTo_zero limit _
  | succ m =>
    obtain ⟨s, _, rfl, hs, h⟩ := List.map_eq_cons_iff.mp h
    obtain ⟨p, ls, rfl, hp, h⟩ := List.map_eq_cons_iff.mp h
    have hsucc : (item []).accept s = some (inside [] .result 0 [] .succOpen) := by
      simp [accept, start, hs]
    have hopen : (inside [] .result 0 [] .succOpen).accept p =
        some (inside [] .result 1 [.succ 0] .expression) := by
      simp [accept, acceptInside, hp, push, Slot.weight]
    have hzero : (inside [] .result 1 [.succ (0 + m)] .expression).accept l =
        some (inside [] .result 0 [] (.succClose m .zero)) := by
      simp [accept, acceptInside, start, hl, fill]
    rw [List.cons_append, List.cons_append, acceptAll_cons hsucc, acceptAll_cons hopen,
      acceptAll_openings hlimit h, acceptAll_cons hzero]
    simp only [depth_inside, upTo_zero, upTo_one hlimit]
    rfl

omit hlimit in
/-- Each closing puts one successor around what is read. -/
theorem acceptAll_closings (limit : Option Nat) {n : Nat} {ls : List Lexeme}
    (h : ls.map Lexeme.token = List.replicate n .rparen) (e : Expr) (count : Nat) (rest : List Lexeme) :
    acceptAll limit (unclosed e (count + n)) (ls ++ rest) =
      acceptAll limit (unclosed (.addSucc n e) count) rest := by
  induction n generalizing ls e with
  | zero =>
    rw [List.map_eq_nil_iff.mp h]
    rfl
  | succ n ih =>
    obtain ⟨q, ls, rfl, hq, h⟩ := List.map_eq_cons_iff.mp h
    have hclose : (unclosed e (count + (n + 1))).accept q = some (unclosed (.succ e) (count + n)) := by
      rw [← Nat.add_assoc]
      cases count + n <;> simp [unclosed, accept, acceptInside, hq, fill, close]
    have hdepth : (unclosed (.succ e) (count + n)).depth = 0 := by cases count + n <;> rfl
    rw [List.cons_append, acceptAll_cons hclose, hdepth, upTo_zero, ih h]
    rfl

omit hlimit in
theorem exists_nest {m n : Nat} {ls : List Lexeme} (h : ls.map Lexeme.token = Token.nest m n) :
    ∃ opened l closed, ls = opened ++ l :: closed ∧ opened.map Lexeme.token = Token.openings m ∧
      l.token = .zero ∧ closed.map Lexeme.token = List.replicate n .rparen := by
  obtain ⟨opened, _, rfl, hopened, h⟩ := List.map_eq_append_iff.mp h
  obtain ⟨l, closed, rfl, hl, hclosed⟩ := List.map_eq_cons_iff.mp h
  exact ⟨opened, l, closed, rfl, hopened, hl, hclosed⟩

/-- If no more are closed than opened, all lexemes are taken and the others are left to close. -/
theorem acceptAll_nest_of_le {m n : Nat} (hle : n ≤ m) {ls : List Lexeme}
    (h : ls.map Lexeme.token = Token.nest m n) :
    acceptAll limit (item []) ls = .ok (unclosed (.numeral n) (m - n)) := by
  obtain ⟨opened, l, closed, rfl, hopened, hl, hclosed⟩ := exists_nest h
  have hall := acceptAll_closings limit hclosed .zero (m - n) []
  rw [List.append_nil, Nat.sub_add_cancel hle] at hall
  rw [acceptAll_opened hlimit hopened hl, hall]
  rfl

/-- If more are closed than opened, the first one too many is refused. -/
theorem acceptAll_nest_of_lt {m n : Nat} (hlt : m < n) {ls : List Lexeme}
    (h : ls.map Lexeme.token = Token.nest m n) :
    ∃ k, acceptAll limit (item []) ls = .error (.cause (.expected .ending (some .rparen)) k) := by
  obtain ⟨opened, l, closed, rfl, hopened, hl, hclosed⟩ := exists_nest h
  obtain ⟨extra, rfl⟩ := Nat.exists_eq_add_of_lt hlt
  rw [Nat.add_assoc, List.replicate_add, List.replicate_succ] at hclosed
  obtain ⟨front, _, rfl, hfront, hrest⟩ := List.map_eq_append_iff.mp hclosed
  obtain ⟨q, back, rfl, hq, -⟩ := List.map_eq_cons_iff.mp hrest
  have hfirst := acceptAll_closings limit hfront .zero 0 (q :: back)
  rw [Nat.zero_add] at hfirst
  refine ⟨q.start, ?_⟩
  rw [acceptAll_opened hlimit hopened hl, hfirst, acceptAll, ← hq]
  rfl

end Reading

namespace Store

theorem countFrom_zero (s : Store) (count : Nat) : s.countFrom count zero = count := by
  rw [countFrom]
  rfl

/-- New cells leave the older ones as they are. -/
theorem pred?_addSucc (s : Store) (cell n : Nat) {old : Nat} (h : old ≤ s.wrapped.size) :
    (s.addSucc cell n).1.pred? old = s.pred? old := by
  induction n generalizing s cell with
  | zero => rfl
  | succ n ih =>
    rw [addSucc]
    have hsize : old ≤ (s.succ cell).1.wrapped.size := by
      simp only [succ, Array.size_push]
      omega
    rw [ih _ _ hsize]
    cases old with
    | zero => rfl
    | succ old => simp [pred?, succ, Array.getElem?_push_lt h]

/-- A walk from the last of `n` new cells passes them and comes to the cell that they are around. -/
theorem countFrom_addSucc (s : Store) {cell : Nat} (h : cell ≤ s.wrapped.size) (n count : Nat) :
    (s.addSucc cell n).1.countFrom count (s.addSucc cell n).2 =
      (s.addSucc cell n).1.countFrom (count + n) cell := by
  induction n generalizing s cell with
  | zero => rfl
  | succ n ih =>
    let s' := (s.succ cell).1
    have hsize : s'.wrapped.size = s.wrapped.size + 1 := by simp [s', succ]
    have hfresh : s.wrapped.size + 1 ≤ s'.wrapped.size := by omega
    have hpred : (s'.addSucc (s.wrapped.size + 1) n).1.pred? (s.wrapped.size + 1) = some cell := by
      rw [pred?_addSucc _ _ _ hfresh]
      simp [s', pred?, succ]
    have hwalk := ih s' hfresh
    have hstep : (s'.addSucc (s.wrapped.size + 1) n).1.countFrom (count + n) (s.wrapped.size + 1) =
        (s'.addSucc (s.wrapped.size + 1) n).1.countFrom (count + n + 1) cell := by
      rw [countFrom, hpred]
      simp only
      rw [if_pos (by omega)]
    exact hwalk.trans hstep

/-- The cells that are made for a number count to it. -/
theorem toNat_ofNat (s : Store) (n : Nat) : (s.ofNat n).1.toNat (s.ofNat n).2 = n := by
  have hwalk := s.countFrom_addSucc (Nat.zero_le s.wrapped.size) n 0
  rw [Nat.zero_add] at hwalk
  exact hwalk.trans (countFrom_zero _ n)

end Store

namespace Script

variable {limit : Option Nat} (hlimit : exceeds limit 1 = false)
include hlimit

/-- How a text of successors around zero is read under a limit that allows one level of nesting. -/
theorem parse_nest {m n : Nat} {source : String} (h : Token.Spread (Token.nest m n) source.toList) :
    (m = n → parse limit source = .ok ⟨[], some (.numeral m)⟩) ∧
    (n < m → ∃ e, parse limit source = .error (.read e) ∧ e.cause = .expected .succClose none) ∧
    (m < n → ∃ e, parse limit source = .error (.read e) ∧ e.cause = .expected .ending (some .rparen)) := by
  obtain ⟨ls, stop, hls, hs⟩ := h.begins (fun _ => Token.isWritten_of_mem_nest) (Token.isChain_nest m n) 0
  have hstream : Stream.ofChars source.toList = ⟨ls, .finish stop⟩ := by
    refine hs.trans ?_
    rw [Stream.ofOffset_nil, Stream.prepend, List.append_nil]
  refine ⟨?_, fun hlt => ?_, fun hlt => ?_⟩
  · rintro rfl
    rw [parse, ofStream, hstream, Reading.acceptAll_nest_of_le hlimit (Nat.le_refl m) hls, Nat.sub_self]
    rfl
  · obtain ⟨count, hcount⟩ := Nat.exists_eq_add_of_lt (Nat.sub_pos_of_lt hlt)
    rw [Nat.zero_add] at hcount
    refine ⟨.locate source.toList (.expected .succClose none) stop, ?_, rfl⟩
    rw [parse, ofStream, hstream, Reading.acceptAll_nest_of_le hlimit (Nat.le_of_lt hlt) hls, hcount]
    rfl
  · obtain ⟨k, hall⟩ := Reading.acceptAll_nest_of_lt hlimit hlt hls
    refine ⟨.locate source.toList (.expected .ending (some .rparen)) k, ?_, rfl⟩
    rw [parse, ofStream, hstream, hall]
    rfl

end Script

/-- A session without definitions comes to the number of a numeral. -/
theorem Session.exists_eval_numeral {room : Option Nat} {source : String} {n : Nat}
    (h : Script.parse none source = .ok ⟨[], some (.numeral n)⟩)
    (hroom : exceeds room (Script.readingFrames + 2) = false) (mode : Mode) :
    ∃ least, ∀ fuel ≥ least, ∃ s', eval ⟨room, fuel⟩ ⟨mode, [], .empty⟩ source = (.ok (some n), s') := by
  obtain ⟨least, hl⟩ := (evaluates_numeral mode .empty .empty n).exists_least
  refine ⟨least, fun fuel hle => ⟨⟨mode, [], ⟨.empty, .empty, some (Expr.numeral n).toTerm⟩⟩, ?_⟩⟩
  have hinside : exceeds (Bounds.inside ⟨room, fuel⟩ 1).depth (Script.readingFrames + 1) = false := by
    rwa [Bounds.depth_inside, exceeds_remaining _ _ (by decide)]
  have hread : Script.read (Bounds.inside ⟨room, fuel⟩ 1) source = .ok ⟨[], some (.numeral n)⟩ :=
    Script.read_of_nesting_le h (Script.nesting_numeral_le n) hinside
  have hresult : Program.lowerResult none (some (.numeral n)) = .ok (some (Expr.numeral n).toTerm) :=
    Program.lowerResult_eq none (Expr.wellFormed_numeral n)
  refine eval_eq_ok_iff.mpr ⟨_, hread, Program.ofScript_eq_ok_iff.mpr ⟨rfl, rfl, hresult⟩, ?_, rfl, rfl⟩
  simp only [Program.run, Bounds.inside, hl fuel hle]
  rfl

/-- Numerals of any size go all the way, under every limit that allows one level of nesting. Zero after `m`
opened successors and before `n` closing parentheses, with any blanks between the tokens, is read exactly if
`m` is `n`, and it never nests too deep. If it is read, its term and its value in a session without
definitions come to `m`, in either mode and wherever there are frames for the session to read at all, and `m`
cells around the one that is zero count to `m`. If a parenthesis is missing the text ends where it is expected,
which is an error of the grammar, and if there is one too many the program should have ended before it, which
is one of trailing input. -/
theorem Script.numeral_exact (limit : Option Nat) (hlimit : exceeds limit 1 = false) (m n : Nat)
    (source : String) (h : Token.Spread (Token.nest m n) source.toList) :
    ((∃ s, parse limit source = .ok s) ↔ m = n) ∧
    parse limit source ≠ .error .tooDeep ∧
    (m = n →
      parse limit source = .ok ⟨[], some (.numeral m)⟩ ∧
      (∃ t, (∀ room, (Expr.numeral m).lower room = .ok t) ∧ ∀ mode env functions,
        ∃ least, ∀ fuel ≥ least, evaluate fuel mode t env functions = .value m) ∧
      (∀ room, exceeds room (readingFrames + 2) = false → ∀ mode env disk,
        ∃ least, ∀ fuel ≥ least, ∃ s s',
          Session.start ⟨room, fuel⟩ mode .none env disk = .ok s ∧
          s.eval ⟨room, fuel⟩ source = (.ok (some m), s')) ∧
      ∀ store : Store, (store.ofNat m).1.toNat (store.ofNat m).2 = m) ∧
    (n < m → ∃ e, parse limit source = .error (.read e) ∧ e.kind = .grammar ∧
      e.cause = .expected .succClose none) ∧
    (m < n → ∃ e, parse limit source = .error (.read e) ∧ e.kind = .trailing ∧
      e.cause = .expected .ending (some .rparen)) := by
  obtain ⟨hequal, hless, hmore⟩ := parse_nest hlimit h
  have hcases : m = n ∧ parse limit source = .ok ⟨[], some (.numeral m)⟩ ∨
      m ≠ n ∧ ∃ e, parse limit source = .error (.read e) := by
    rcases Nat.lt_trichotomy m n with hlt | heq | hlt
    · obtain ⟨e, he, -⟩ := hmore hlt
      exact .inr ⟨Nat.ne_of_lt hlt, e, he⟩
    · exact .inl ⟨heq, hequal heq⟩
    · obtain ⟨e, he, -⟩ := hless hlt
      exact .inr ⟨Nat.ne_of_gt hlt, e, he⟩
  refine ⟨?_, ?_, fun heq => ⟨hequal heq, ?_, ?_, fun store => store.toNat_ofNat m⟩, ?_, ?_⟩
  · rcases hcases with ⟨heq, hs⟩ | ⟨hne, e, he⟩ <;> simp_all
  · rcases hcases with ⟨-, hs⟩ | ⟨-, e, he⟩ <;> simp_all
  · have hwell := (Expr.numeral m).wellFormed_toTerm (Expr.wellFormed_numeral m)
    exact ⟨_, fun room => (Expr.numeral m).lower_eq room hwell,
      fun mode env functions => (evaluates_numeral mode functions env m).exists_least⟩
  · intro room hroom mode env disk
    have hparse := (parse_nest (exceeds_none 1) h).1 heq
    obtain ⟨least, hl⟩ := Session.exists_eval_numeral hparse hroom mode
    refine ⟨least, fun fuel hle => ?_⟩
    obtain ⟨s', hs'⟩ := hl fuel hle
    exact ⟨_, s', rfl, hs'⟩
  · intro hlt
    obtain ⟨e, he, hcause⟩ := hless hlt
    exact ⟨e, he, congrArg ReadCause.kind hcause, hcause⟩
  · intro hlt
    obtain ⟨e, he, hcause⟩ := hmore hlt
    exact ⟨e, he, congrArg ReadCause.kind hcause, hcause⟩

/-- Numerals that would be far too deep if each successor cost depth, with a blank after every token. One of
them lacks its last parenthesis. -/
theorem Script.numeral_exact_three_thousand :
    let source (closed : Nat) : String := String.ofList (Stream.spaced (Token.nest 3000 closed))
    (∃ fuel s', Session.eval ⟨some 1000, fuel⟩ ⟨.strict, [], .empty⟩ (source 3000) = (.ok (some 3000), s')) ∧
      ∃ e, parse (some 1000) (source 2999) = .error (.read e) ∧ e.kind = .grammar ∧
        e.cause = .expected .succClose none := by
  intro source
  have hspread (closed : Nat) : Token.Spread (Token.nest 3000 closed) (source closed).toList := by
    rw [String.toList_ofList]
    exact Token.spread_spaced _
  obtain ⟨-, -, hequal, -, -⟩ := numeral_exact (some 1000) rfl 3000 3000 (source 3000) (hspread 3000)
  obtain ⟨-, -, hsession, -⟩ := hequal rfl
  obtain ⟨least, hl⟩ := hsession (some 1000) rfl .strict .empty ⟨fun _ => .error .missing⟩
  obtain ⟨s, s', hs, hs'⟩ := hl least (Nat.le_refl least)
  obtain ⟨-, -, -, hless, -⟩ := numeral_exact (some 1000) rfl 3000 2999 (source 2999) (hspread 2999)
  cases hs
  exact ⟨⟨least, s', hs'⟩, hless (by decide)⟩

end Unary
