import Unary.CommandLine
import Unary.Proofs.Offence
import Unary.Proofs.Programs

/-!
Reading on demand: a reading that scans a lexeme when it needs one, at the offset that it has come to, and
passes over the parenthesis of a call without a scan.

It takes the lexemes of the text in their order and stops for the same reason as the reading of all lexemes.
So the lexemes of a text that is read are those that were taken, and a character that starts no lexeme stops
both, unless the reading has stopped before it.
-/

namespace Unary

/-- What a reading on demand comes to: the lexemes that it takes, and how it ends. -/
structure Pulled where
  taken : List Lexeme
  outcome : Except Reading.Stop Script
deriving DecidableEq

/-- What is read after some lexemes are taken. -/
def Pulled.after (ls : List Lexeme) (p : Pulled) : Pulled :=
  ⟨ls ++ p.taken, p.outcome⟩

namespace Reading

/-- The reading after the parenthesis of a call, if the next lexeme is one. -/
def passOpen? : Reading → Option Reading
  | inside defs target depth slots (.callOpen callee) =>
    some (push defs target depth slots (.arg callee []))
  | _ => none

/-- The parenthesis that opens at an offset. -/
def openAt (text : List Char) (offset : Nat) : Lexeme :=
  ⟨.lparen, offset, offset + 1, (text.drop (offset + 1)).head? == some '('⟩

theorem stop_of_next {text rest : List Char} {offset : Nat} {l : Lexeme}
    (h : Scan.next offset (text.drop offset) = .lexeme l rest) :
    offset < l.stop ∧ offset < text.length ∧ rest = text.drop l.stop := by
  obtain ⟨front, hne, htext, hstop, -⟩ := Scan.exists_front_of_next h
  have hpos : 0 < front.length := List.length_pos_iff.mpr hne
  have hlength := congrArg List.length htext
  rw [List.length_drop, List.length_append] at hlength
  refine ⟨by omega, by omega, ?_⟩
  rw [hstop, ← List.drop_drop, htext, List.drop_left]

/-- Read on from an offset of a text. No lexeme is scanned before it is needed. -/
def pull (text : List Char) (r : Reading) (offset : Nat) : Pulled :=
  match _h : Scan.next offset (text.drop offset) with
  | .ending ending => ⟨[], r.conclude ending⟩
  | .lexeme l _ =>
    match r.accept l with
    | none => ⟨[], .error (.cause (.expected r.expects (some l.token)) l.start)⟩
    | some r' =>
      match r'.passOpen? with
      | none => (pull text r' l.stop).after [l]
      | some r'' => (pull text r'' (l.stop + 1)).after [l, openAt text l.stop]
termination_by text.length - offset
decreasing_by
  all_goals
    have hstop := stop_of_next _h
    omega

/-- The lexemes that a reading takes before it refuses one. -/
def taken : Reading → List Lexeme → List Lexeme
  | _, [] => []
  | r, l :: ls =>
    match r.accept l with
    | none => []
    | some r' => l :: r'.taken ls

theorem taken_of_acceptAll {r last : Reading} {ls : List Lexeme} (h : acceptAll none r ls = .ok last) :
    r.taken ls = ls := by
  induction ls generalizing r with
  | nil => rfl
  | cons l ls ih =>
    obtain ⟨r', hr, hls⟩ := acceptAll_cons_eq_ok_iff.mp h
    rw [taken, hr]
    exact congrArg (l :: ·) (ih hls)

theorem taken_prefix (r : Reading) (ls : List Lexeme) : r.taken ls <+: ls := by
  induction ls generalizing r with
  | nil => exact List.nil_prefix
  | cons l ls ih =>
    rw [taken]
    cases r.accept l with
    | none => exact List.nil_prefix
    | some r' => exact (List.prefix_cons_inj l).mpr (ih r')

theorem passOpen?_fill (defs : List Definition) (target : Target) (depth : Nat) (e : Expr)
    (slots : List Slot) : (fill defs target depth e slots).passOpen? = none := by
  induction slots generalizing depth e with
  | nil => cases target <;> rfl
  | cons slot slots ih =>
    cases slot with
    | no left right yes => exact ih _ _
    | _ => rfl

theorem opens_of_start {l : Lexeme} {defs : List Definition} {target : Target} {depth : Nat}
    {slots : List Slot} {r r' : Reading} (h : start l defs target depth slots = some r)
    (hr : r.passOpen? = some r') : l.opens = true := by
  unfold start at h
  split at h
  · cases h
    rw [passOpen?_fill] at hr
    cases hr
  · cases h
    cases hr
  · cases h
    cases hr
  · split at h
    · assumption
    · cases h
      rw [passOpen?_fill] at hr
      cases hr
  · cases h

theorem opens_of_acceptInside {l : Lexeme} {defs : List Definition} {target : Target} {depth : Nat}
    {slots : List Slot} {want : Want} {r r' : Reading}
    (h : acceptInside l defs target depth slots want = some r) (hr : r.passOpen? = some r') :
    l.opens = true := by
  cases want with
  | expression => exact opens_of_start h hr
  | _ =>
    simp only [acceptInside] at h
    split at h <;> cases h
    all_goals first
      | cases hr
      | rw [passOpen?_fill] at hr; cases hr

/-- Only a name that is followed by a parenthesis makes a call. -/
theorem opens_of_accept {l : Lexeme} {r r' r'' : Reading} (h : r.accept l = some r')
    (hr : r'.passOpen? = some r'') : l.opens = true := by
  cases r with
  | item defs =>
    rw [accept] at h
    split at h
    · cases h
      cases hr
    · exact opens_of_start h hr
  | inside defs target depth slots want => exact opens_of_acceptInside h hr
  | closed defs e => cases h
  | _ =>
    rw [accept] at h
    split at h <;> cases h
    all_goals cases hr

/-- The reading passes over a parenthesis as if it had been scanned. -/
theorem accept_openAt {r r' : Reading} (h : r.passOpen? = some r') (text : List Char) (offset : Nat) :
    r.accept (openAt text offset) = some r' := by
  unfold passOpen? at h
  split at h
  · exact h
  · cases h

section Pull

variable {text rest : List Char} {offset : Nat} {r r' : Reading} {l : Lexeme}

theorem pull_of_ending {ending : Ending} (h : Scan.next offset (text.drop offset) = .ending ending) :
    r.pull text offset = ⟨[], r.conclude ending⟩ := by
  rw [pull]
  split <;> simp_all

theorem pull_of_refused (h : Scan.next offset (text.drop offset) = .lexeme l rest)
    (ha : r.accept l = none) :
    r.pull text offset = ⟨[], .error (.cause (.expected r.expects (some l.token)) l.start)⟩ := by
  rw [pull]
  split <;> simp_all

theorem pull_of_accepted (h : Scan.next offset (text.drop offset) = .lexeme l rest)
    (ha : r.accept l = some r') :
    r.pull text offset =
      match r'.passOpen? with
      | none => (pull text r' l.stop).after [l]
      | some r'' => (pull text r'' (l.stop + 1)).after [l, openAt text l.stop] := by
  rw [pull]
  split <;> simp_all

/-- A reading on demand takes the lexemes of the text that follows as long as each one may come, and ends as
the reading of all of them does. -/
theorem pull_eq (text : List Char) (r : Reading) (offset : Nat) :
    let stream := Stream.ofOffset offset (text.drop offset)
    r.pull text offset = ⟨r.taken stream.lexemes,
      acceptAll none r stream.lexemes >>= fun last => last.conclude stream.ending⟩ := by
  induction hk : text.length - offset using Nat.strongRecOn generalizing r offset with
  | ind k ih =>
    intro stream
    cases hn : Scan.next offset (text.drop offset) with
    | ending ending =>
      have hstream : stream = ⟨[], ending⟩ := Stream.ofOffset_of_ending hn
      rw [pull_of_ending hn, hstream]
      rfl
    | lexeme l rest =>
      obtain ⟨hstop, hoffset, rfl⟩ := stop_of_next hn
      have hstream : stream = .prepend [l] (.ofOffset l.stop (text.drop l.stop)) :=
        Stream.ofOffset_of_lexeme hn
      cases ha : r.accept l with
      | none =>
        rw [pull_of_refused hn ha, hstream]
        simp [Stream.prepend, taken, acceptAll, ha, bind, Except.bind]
      | some r' =>
        rw [pull_of_accepted hn ha]
        cases hp : r'.passOpen? with
        | none =>
          have hrest := ih (text.length - l.stop) (by omega) r' l.stop rfl
          simp [hrest, hstream, Pulled.after, Stream.prepend, taken, acceptAll, ha]
        | some r'' =>
          -- The parenthesis stands right after the name, so a scan would have found it there.
          have hopen : (text.drop l.stop).head? = some '(' := by
            have hopens := Scan.opens_of_next hn
            rw [opens_of_accept ha hp] at hopens
            exact beq_iff_eq.mp hopens.symm
          have hparen : Stream.ofOffset l.stop (text.drop l.stop) =
              .prepend [openAt text l.stop] (.ofOffset (l.stop + 1) (text.drop (l.stop + 1))) := by
            obtain ⟨tail, htail⟩ := List.head?_eq_some_iff.mp hopen
            have hdrop : tail = text.drop (l.stop + 1) := by
              rw [← List.drop_drop, htail]
              rfl
            rw [htail, hdrop]
            exact Stream.ofOffset_mark rfl l.stop _
          have hrest := ih (text.length - (l.stop + 1)) (by omega) r'' (l.stop + 1) rfl
          simp [hrest, hstream, hparen, Pulled.after, Stream.prepend, taken, acceptAll, ha,
            accept_openAt hp]

end Pull

end Reading

theorem Scan.eq_of_unexpected {offset k : Nat} {cs : List Char} {c : Char}
    (h : next offset cs = .ending (.unexpected c k)) :
    k = offset + (cs.takeWhile Text.isBlank).length := by
  unfold next at h
  simp only at h
  split at h
  · cases h
  · obtain ⟨he, -⟩ := ending_of_atChar h
    cases he
    rfl

/-- A character that starts no lexeme does not come before the text that it is found in. -/
theorem Stream.le_of_unexpected {offset k : Nat} {cs : List Char} {c : Char}
    (h : (ofOffset offset cs).ending = .unexpected c k) : offset ≤ k := by
  induction offset, cs using scan_induction with
  | ending offset cs e hn =>
    rw [ofOffset_of_ending hn] at h
    have he : e = .unexpected c k := h
    rw [he] at hn
    have hk := Scan.eq_of_unexpected hn
    omega
  | lexeme offset cs l rest hn ih =>
    rw [ofOffset_of_lexeme hn] at h
    have hlength := Scan.next_length hn
    have hlt := Scan.next_length_lt hn
    have hle := ih h
    omega

namespace Script

/-- A stream is read when all of its lexemes are taken and the text may end after them. -/
theorem ofStream_eq_ok_iff {stream : Stream} {s : Script} :
    ofStream none stream = .ok s ↔ ∃ last offset,
      Reading.acceptAll none (.item []) stream.lexemes = .ok last ∧
      stream.ending = .finish offset ∧ last.finish = some s := by
  rw [ofStream_eq_bind, bind_eq_ok_iff]
  refine exists_congr fun last => ?_
  cases stream.ending with
  | unexpected c offset => simp [Reading.conclude]
  | finish offset =>
    rw [Reading.conclude]
    cases last.finish <;> simp

/-- An unexpected character stops the reading only when everything before it has been taken. -/
theorem ofStream_eq_unexpected_iff {stream : Stream} {c : Char} {k : Nat} :
    ofStream none stream = .error (.cause (.unexpectedChar c) k) ↔
      (∃ last, Reading.acceptAll none (.item []) stream.lexemes = .ok last) ∧
        stream.ending = .unexpected c k := by
  rw [ofStream_eq_error_iff]
  constructor
  · rintro ⟨before, rest, r, rfl, ha, hr⟩
    cases hr
    refine ⟨⟨r, ?_⟩, rfl⟩
    rw [Stream.prepend, List.append_nil]
    exact ha
  · rintro ⟨⟨last, ha⟩, he⟩
    refine ⟨stream.lexemes, ⟨[], .unexpected c k⟩, last, ?_, ha, .char⟩
    simp [Stream.prepend, ← he]

/-- Whatever stops a reading is not beyond a character that starts no lexeme. -/
theorem offset_le_of_unexpected {source : String} {e : ReadError} {c : Char} {k : Nat}
    (h : parse none source = .error (.read e))
    (he : (Stream.ofChars source.toList).ending = .unexpected c k) : e.offset ≤ k := by
  obtain ⟨before, r, front, back, htext, hcut, -, hr, -⟩ := exists_cut_of_parse h
  have hstream := hcut.replaced back rfl
  rw [Nat.zero_add, ← htext] at hstream
  obtain ⟨hoffset, -⟩ := hr.at_start hcut.starts
  have hback : (Stream.ofOffset front.length back).ending = .unexpected c k :=
    (congrArg Stream.ending hstream).symm.trans he
  rw [hoffset]
  exact Stream.le_of_unexpected hback

/-- The scan of a text and its reading agree. The reading takes lexemes on demand. A text that is read is all
lexemes, and they are those that the reading has taken. If a character that starts no lexeme stops the
reading, the scan stops there too, with the same error and after the lexemes that the reading has taken. And
if the scan stops at such a character, the reading stops there or before. -/
theorem parse_agrees_with_scan (source : String) :
    let text := source.toList
    let stream := Stream.ofChars text
    let pulled := (Reading.item []).pull text 0
    parse none source = pulled.outcome.mapError (locate text) ∧
    pulled.taken <+: stream.lexemes ∧
    (∀ s, parse none source = .ok s → ∃ offset, stream = ⟨pulled.taken, .finish offset⟩) ∧
    (∀ e c, parse none source = .error (.read e) → e.cause = .unexpectedChar c →
      stream = ⟨pulled.taken, .unexpected c e.offset⟩ ∧
        CommandLine.checkEnding text stream.ending = .error (.read e)) ∧
    ∀ c k, stream.ending = .unexpected c k →
      ∃ e, parse none source = .error (.read e) ∧ e.offset ≤ k := by
  intro text stream pulled
  have hpulled : pulled = ⟨(Reading.item []).taken stream.lexemes, ofStream none stream⟩ := by
    rw [ofStream_eq_bind]
    exact Reading.pull_eq text (.item []) 0
  refine ⟨?_, ?_, ?_, ?_, ?_⟩
  · rw [hpulled]
    rfl
  · rw [hpulled]
    exact Reading.taken_prefix _ _
  · intro s hs
    obtain ⟨last, offset, ha, he, -⟩ := ofStream_eq_ok_iff.mp (mapError_eq_ok_iff.mp hs)
    refine ⟨offset, ?_⟩
    rw [hpulled, Reading.taken_of_acceptAll ha, ← he]
  · intro e c hp hc
    obtain ⟨cause, k, hstop, rfl⟩ := parse_eq_error_iff.mp hp
    have hcause : cause = .unexpectedChar c := hc
    subst hcause
    obtain ⟨⟨last, ha⟩, he⟩ := ofStream_eq_unexpected_iff.mp hstop
    constructor
    · rw [hpulled, Reading.taken_of_acceptAll ha]
      change stream = ⟨stream.lexemes, .unexpected c k⟩
      rw [← he]
    · rw [he]
      rfl
  · intro c k hk
    rcases parse_none source with ⟨s, hp, -⟩ | ⟨e, hp, -⟩
    · obtain ⟨last, offset, -, he, -⟩ := ofStream_eq_ok_iff.mp (mapError_eq_ok_iff.mp hp)
      rw [hk] at he
      cases he
    · exact ⟨e, hp, offset_le_of_unexpected hp hk⟩

/-- A character that starts no lexeme, after a call in a call. -/
theorem parse_agrees_with_scan_unexpected :
    let source := "f(f(x), ?)"
    let e : ReadError := ⟨.unexpectedChar '?', 8, ⟨1, 9⟩⟩
    let pulled := (Reading.item []).pull source.toList 0
    parse none source = .error (.read e) ∧
      pulled.taken.map Lexeme.token =
        [.ident "f", .lparen, .ident "f", .lparen, .ident "x", .rparen, .comma] ∧
      Stream.ofChars source.toList = ⟨pulled.taken, .unexpected '?' 8⟩ := by
  intro source e pulled
  have herror : parse none source = .error (.read e) := by decide +kernel
  have htaken : pulled.taken.map Lexeme.token =
      [.ident "f", .lparen, .ident "f", .lparen, .ident "x", .rparen, .comma] := by decide +kernel
  obtain ⟨-, -, -, hunexpected, -⟩ := parse_agrees_with_scan source
  exact ⟨herror, htaken, (hunexpected e '?' herror rfl).1⟩

end Script

end Unary
