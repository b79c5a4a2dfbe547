import Unary.Proofs.Completion

/-!
Where an error in a text is found: at the first lexeme or character that no script can have there.

A text is cut before what the reading refuses. What stands before the cut can be continued to a script,
and what stands at it is refused for the same cause, whatever comes after it.
-/

namespace Unary

theorem isBoundary_dropWhile (cs : List Char) : isBoundary (cs.dropWhile Char.isAlphanum) = true := by
  have hh := List.head?_dropWhile_not Char.isAlphanum cs
  cases hd : cs.dropWhile Char.isAlphanum with
  | nil => rfl
  | cons c tail =>
    rw [hd] at hh
    have hc : c.isAlphanum = false := hh
    simp [isBoundary, hc]

theorem isBoundary_congr {cs cs' : List Char} (h : cs.head? = cs'.head?) :
    isBoundary cs = isBoundary cs' := by
  cases cs <;> cases cs' <;> simp_all [isBoundary]

namespace Scan

variable {offset : Nat} {cs rest : List Char} {l : Lexeme}

/-- A lexeme, or a character that starts none, stands at an offset and reaches to the other. -/
def Spans (offset : Nat) (cs : List Char) (stop : Nat) : Prop :=
  match next offset cs with
  | .lexeme l _ => l.start = offset ∧ l.stop = stop
  | .ending (.unexpected _ start) => start = offset ∧ stop = offset + 1
  | .ending (.finish _) => False

theorem exists_tail_of_atChar {c : Char} (h : atChar offset c cs = .lexeme l rest) :
    ∃ tail, cs = tail ++ rest ∧ l.stop = offset + (tail.length + 1) ∧
      ∀ u, isBoundary u = true ∨ u.head? = rest.head? →
        atChar offset c (tail ++ u) = .lexeme { l with opens := u.head? == some '(' } u := by
  unfold atChar at h
  split at h
  · next hc =>
    simp only [found, lexeme.injEq] at h
    obtain ⟨rfl, rfl⟩ := h
    refine ⟨cs.takeWhile Char.isAlphanum, List.takeWhile_append_dropWhile.symm, rfl, fun u hu => ?_⟩
    have hb : isBoundary u = true := by
      rcases hu with hu | hu
      · exact hu
      · rw [isBoundary_congr hu, isBoundary_dropWhile]
    obtain ⟨htake, hdrop⟩ := takeWhile_of_isBoundary hb
    have hall : ∀ a ∈ cs.takeWhile Char.isAlphanum, a.isAlphanum = true :=
      List.all_eq_true.mp List.all_takeWhile
    rw [atChar, if_pos hc, List.takeWhile_append_of_pos hall, List.dropWhile_append_of_pos hall, htake,
      hdrop, List.append_nil]
    rfl
  · next hc =>
    cases ht : Token.ofPunctuation? c with
    | none =>
      rw [ht] at h
      cases h
    | some token =>
      simp only [ht, found, lexeme.injEq] at h
      obtain ⟨rfl, rfl⟩ := h
      refine ⟨[], rfl, rfl, fun u _ => ?_⟩
      rw [atChar, if_neg hc, ht]
      rfl

theorem ending_of_atChar {c : Char} {e : Ending} (h : atChar offset c cs = .ending e) :
    e = .unexpected c offset ∧ ∀ u, atChar offset c u = .ending (.unexpected c offset) := by
  unfold atChar at h
  split at h
  · cases h
  · next hc =>
    cases ht : Token.ofPunctuation? c with
    | some token =>
      rw [ht] at h
      cases h
    | none =>
      rw [ht] at h
      cases h
      exact ⟨rfl, fun u => by simp [atChar, hc, ht]⟩

/-- A lexeme is read from its own characters, whatever comes after them, if only no word goes on there. -/
theorem exists_front_of_next (h : next offset cs = .lexeme l rest) :
    ∃ front, front ≠ [] ∧ cs = front ++ rest ∧ l.stop = offset + front.length ∧
      ∀ u, isBoundary u = true ∨ u.head? = rest.head? →
        next offset (front ++ u) = .lexeme { l with opens := u.head? == some '(' } u := by
  induction cs generalizing offset with
  | nil => cases h
  | cons d cs ih =>
    by_cases hd : Text.isBlank d = true
    · rw [next_blank hd] at h
      obtain ⟨front, -, rfl, hstop, hnext⟩ := ih h
      refine ⟨d :: front, List.cons_ne_nil _ _, rfl, ?_, fun u hu => ?_⟩
      · rw [hstop, List.length_cons]
        omega
      · rw [List.cons_append, next_blank hd]
        exact hnext u hu
    · rw [Bool.not_eq_true] at hd
      rw [next_char hd] at h
      obtain ⟨tail, rfl, hstop, hchar⟩ := exists_tail_of_atChar h
      refine ⟨d :: tail, List.cons_ne_nil _ _, rfl, hstop, fun u hu => ?_⟩
      rw [List.cons_append, next_char hd]
      exact hchar u hu

end Scan

namespace Stream

variable {offset : Nat} {cs : List Char} {ls : List Lexeme} {ending : Ending}

theorem next_of_ofOffset_cons {l : Lexeme} (h : ofOffset offset cs = ⟨l :: ls, ending⟩) :
    ∃ rest, Scan.next offset cs = .lexeme l rest ∧ ofOffset l.stop rest = ⟨ls, ending⟩ := by
  cases hn : Scan.next offset cs with
  | ending e =>
    rw [ofOffset_of_ending hn] at h
    cases h
  | lexeme l' rest =>
    rw [ofOffset_of_lexeme hn] at h
    obtain ⟨rfl, hls⟩ := List.cons.inj (congrArg lexemes h)
    have he : (ofOffset l'.stop rest).ending = ending := congrArg Stream.ending h
    refine ⟨rest, rfl, ?_⟩
    rw [← hls, ← he]
    rfl

theorem next_of_ofOffset_nil (h : ofOffset offset cs = ⟨[], ending⟩) :
    Scan.next offset cs = .ending ending := by
  cases hn : Scan.next offset cs with
  | ending e =>
    rw [ofOffset_of_ending hn] at h
    cases h
    rfl
  | lexeme l rest =>
    rw [ofOffset_of_lexeme hn] at h
    cases congrArg lexemes h

end Stream

namespace Reading

theorem isSome_start (l : Lexeme) (opens : Bool) (defs : List Definition) (target : Target)
    (depth : Nat) (slots : List Slot) :
    (start { l with opens := opens } defs target depth slots).isSome =
      (start l defs target depth slots).isSome := by
  unfold start
  cases l.token with
  | ident name => cases opens <;> cases l.opens <;> rfl
  | _ => rfl

/-- Whether a lexeme may come does not depend on what comes after it. -/
theorem isSome_accept (r : Reading) (l : Lexeme) (opens : Bool) :
    (r.accept { l with opens := opens }).isSome = (r.accept l).isSome := by
  cases r with
  | item defs =>
    have hstart := isSome_start l opens defs .result 0 []
    cases ht : l.token with
    | define => simp [accept, ht]
    | _ => simpa [accept, ht] using hstart
  | inside defs target depth slots want =>
    cases want with
    | expression => exact isSome_start l opens defs target depth slots
    | _ => rfl
  | _ => rfl

/-- Wherever the first lexemes may all come, the second may too. -/
def Admits (ls ls' : List Lexeme) : Prop :=
  ∀ r last, acceptAll none r ls = .ok last → ∃ last', acceptAll none r ls' = .ok last'

theorem Admits.cons {ls ls' : List Lexeme} (h : Admits ls ls') (l : Lexeme) :
    Admits (l :: ls) (l :: ls') := by
  intro r last ha
  obtain ⟨r', hr, hls⟩ := acceptAll_cons_eq_ok_iff.mp ha
  obtain ⟨last', hls'⟩ := h r' last hls
  exact ⟨last', acceptAll_cons_eq_ok_iff.mpr ⟨r', hr, hls'⟩⟩

theorem admits_single (l : Lexeme) (ls : List Lexeme) (opens : Bool) :
    Admits (l :: ls) [{ l with opens := opens }] := by
  intro r last ha
  obtain ⟨r', hr, -⟩ := acceptAll_cons_eq_ok_iff.mp ha
  have hsome := r.isSome_accept l opens
  rw [hr] at hsome
  obtain ⟨last', hlast⟩ := Option.isSome_iff_exists.mp hsome
  exact ⟨last', acceptAll_cons_eq_ok_iff.mpr ⟨last', hlast, rfl⟩⟩

end Reading

namespace Stream

/-- A text is cut after some lexemes, before the first character of what follows. What follows may be
replaced by a text that begins with the same character, and left out. -/
structure Cut (offset : Nat) (front back : List Char) (before : List Lexeme) : Prop where
  starts : ∀ c ∈ back.head?, Text.isBlank c = false
  replaced : ∀ u : List Char, u.head? = back.head? →
    ofOffset offset (front ++ u) = prepend before (ofOffset (offset + front.length) u)
  alone : ∃ before', ofOffset offset front = ⟨before', .finish (offset + front.length)⟩ ∧
    Reading.Admits before before'

theorem cut_blanks (offset : Nat) (cs : List Char) :
    Cut offset (cs.takeWhile Text.isBlank) (cs.dropWhile Text.isBlank) [] := by
  have hblanks : (cs.takeWhile Text.isBlank).all Text.isBlank = true := List.all_takeWhile
  refine ⟨?_, fun u _ => ofOffset_blanks hblanks offset u, [], ?_, ?_⟩
  · intro c hc
    have hh := List.head?_dropWhile_not Text.isBlank cs
    rw [Option.mem_def.mp hc] at hh
    exact hh
  · exact ofOffset_of_blanks hblanks offset
  · exact fun r last ha => ⟨last, ha⟩

theorem Cut.cons {offset : Nat} {cs front back : List Char} {l : Lexeme} {before : List Lexeme}
    (hn : Scan.next offset cs = .lexeme l (front ++ back)) (h : Cut l.stop front back before) :
    ∃ first, cs = first ++ (front ++ back) ∧ l.stop = offset + first.length ∧
      Cut offset (first ++ front) back (l :: before) := by
  obtain ⟨first, -, hcs, hstop, hnext⟩ := Scan.exists_front_of_next hn
  have hopens : l.opens = ((front ++ back).head? == some '(') := Scan.opens_of_next hn
  have hsame (u : List Char) (hu : u.head? = (front ++ back).head?) :
      Scan.next offset (first ++ u) = .lexeme l u := by
    rw [hnext u (.inr hu), hu, ← hopens]
  have hlength : offset + (first ++ front).length = l.stop + front.length := by
    rw [List.length_append, hstop, Nat.add_assoc]
  refine ⟨first, hcs, hstop, h.starts, fun u hu => ?_, ?_⟩
  · have hhead : (front ++ u).head? = (front ++ back).head? := by
      rw [List.head?_append, List.head?_append, hu]
    rw [List.append_assoc, ofOffset_of_lexeme (hsame _ hhead), h.replaced u hu, hlength]
    rfl
  · obtain ⟨before', hbefore, hadmits⟩ := h.alone
    cases front with
    | nil =>
      -- The lexeme comes last, and then no parenthesis opens after it.
      have hlast := hnext [] (.inl rfl)
      refine ⟨[{ l with opens := false }], ?_, Reading.admits_single l before false⟩
      rw [List.append_nil] at hlast
      rw [List.append_nil, ofOffset_of_lexeme hlast, ofOffset_nil, hstop]
      rfl
    | cons c front =>
      refine ⟨l :: before', ?_, hadmits.cons l⟩
      rw [ofOffset_of_lexeme (hsame (c :: front) rfl), hbefore, hlength]
      rfl

/-- A text can be cut before any of its lexemes and before its ending. -/
theorem exists_cut {offset : Nat} {cs : List Char} {before : List Lexeme} {rest : Stream}
    (h : ofOffset offset cs = prepend before rest) :
    ∃ front back, cs = front ++ back ∧ Cut offset front back before ∧
      ofOffset (offset + front.length) back = rest := by
  induction before generalizing offset cs with
  | nil =>
    refine ⟨_, _, List.takeWhile_append_dropWhile.symm, cut_blanks offset cs, ?_⟩
    rw [← ofOffset_blanks List.all_takeWhile, List.takeWhile_append_dropWhile, h]
    rfl
  | cons l before ih =>
    obtain ⟨tail, hn, hrest⟩ := next_of_ofOffset_cons h
    obtain ⟨front, back, rfl, hcut, hback⟩ := ih hrest
    obtain ⟨first, rfl, hstop, hcut'⟩ := hcut.cons hn
    refine ⟨first ++ front, back, (List.append_assoc ..).symm, hcut', ?_⟩
    rw [← hback, hstop, List.length_append, Nat.add_assoc]

end Stream

namespace Reading

/-- Why a reading does not come to a script through what is left of a text, and where this shows. -/
inductive Refuses (r : Reading) : Stream → ReadCause → Nat → Prop
  | lexeme {l : Lexeme} {ls : List Lexeme} {ending : Ending} (h : r.accept l = none) :
      Refuses r ⟨l :: ls, ending⟩ (.expected r.expects (some l.token)) l.start
  | char {c : Char} {k : Nat} : Refuses r ⟨[], .unexpected c k⟩ (.unexpectedChar c) k
  | ending {k : Nat} (h : r.finish = none) : Refuses r ⟨[], .finish k⟩ (.expected r.expects none) k

theorem exists_refuses_of_acceptAll {r : Reading} {ls : List Lexeme} {cause : ReadCause} {k : Nat}
    (h : acceptAll none r ls = .error (.cause cause k)) (ending : Ending) :
    ∃ before rest r', Stream.prepend before rest = ⟨ls, ending⟩ ∧
      acceptAll none r before = .ok r' ∧ r'.Refuses rest cause k := by
  induction ls generalizing r with
  | nil => cases h
  | cons l ls ih =>
    rw [acceptAll] at h
    cases ha : r.accept l with
    | none =>
      rw [ha] at h
      cases h
      exact ⟨[], ⟨l :: ls, ending⟩, r, rfl, rfl, .lexeme ha⟩
    | some next =>
      simp only [ha, exceeds_none, Bool.false_eq_true, if_false] at h
      obtain ⟨before, rest, r', hs, hb, hr⟩ := ih h
      refine ⟨l :: before, rest, r', ?_, acceptAll_cons_eq_ok_iff.mpr ⟨next, ha, hb⟩, hr⟩
      cases hs
      rfl

end Reading

namespace Script

/-- A stream is refused where a reading that has come so far refuses what is left. -/
theorem ofStream_eq_error_iff {stream : Stream} {cause : ReadCause} {k : Nat} :
    ofStream none stream = .error (.cause cause k) ↔
      ∃ before rest r, stream = .prepend before rest ∧
        Reading.acceptAll none (.item []) before = .ok r ∧ r.Refuses rest cause k := by
  rw [ofStream_eq_bind]
  constructor
  · intro h
    obtain ⟨ls, ending⟩ := stream
    cases ha : Reading.acceptAll none (.item []) ls with
    | error stop =>
      simp only [ha, bind, Except.bind] at h
      cases h
      obtain ⟨before, rest, r, hs, hb, hr⟩ := Reading.exists_refuses_of_acceptAll ha ending
      exact ⟨before, rest, r, hs.symm, hb, hr⟩
    | ok r =>
      simp only [ha, bind, Except.bind] at h
      refine ⟨ls, ⟨[], ending⟩, r, by simp [Stream.prepend], ha, ?_⟩
      cases ending with
      | unexpected c offset =>
        cases h
        exact .char
      | finish offset =>
        rw [Reading.conclude] at h
        cases hf : r.finish with
        | some s =>
          rw [hf] at h
          cases h
        | none =>
          rw [hf] at h
          cases h
          exact .ending hf
  · rintro ⟨before, rest, r, rfl, ha, hr⟩
    rw [Stream.prepend, Reading.acceptAll_append, ha]
    cases hr with
    | lexeme h => simp [bind, Except.bind, Reading.acceptAll, h]
    | char => rfl
    | ending h => simp [bind, Except.bind, Reading.acceptAll, Reading.conclude, h]

end Script

namespace Reading

variable {r : Reading} {k : Nat} {cs : List Char} {cause : ReadCause} {offset : Nat}

/-- A lexeme that is refused is refused whatever comes after it. -/
theorem refuses_of_lexeme {l : Lexeme} {rest : List Char}
    (hn : Scan.next offset cs = .lexeme l rest) (hstart : l.start = offset)
    (ha : r.accept l = none) :
    ∃ front, cs = front ++ rest ∧ front ≠ [] ∧ Scan.Spans offset cs (offset + front.length) ∧
      ∀ u, isBoundary u = true →
        r.Refuses (.ofOffset offset (front ++ u)) (.expected r.expects (some l.token)) offset := by
  obtain ⟨front, hne, hcs, hstop, hnext⟩ := Scan.exists_front_of_next hn
  refine ⟨front, hcs, hne, ?_, fun u hu => ?_⟩
  · rw [Scan.Spans, hn]
    exact ⟨hstart, hstop⟩
  · have hrefused : r.accept { l with opens := u.head? == some '(' } = none := by
      rw [← Option.isNone_iff_eq_none, ← Option.not_isSome, isSome_accept, ha]
      rfl
    rw [Stream.ofOffset_of_lexeme (hnext u (.inl hu)), ← hstart]
    exact .lexeme hrefused

/-- What is refused at the first character of a text is the end of the text, or a lexeme or a character
that is refused there before every other text too. -/
theorem Refuses.at_start (h : r.Refuses (.ofOffset offset cs) cause k)
    (hc : ∀ c ∈ cs.head?, Text.isBlank c = false) :
    k = offset ∧ (cs = [] ∧ cause = .expected r.expects none ∨
      ∃ front rest, cs = front ++ rest ∧ front ≠ [] ∧
        Scan.Spans offset cs (offset + front.length) ∧
        ∀ u, isBoundary u = true → r.Refuses (.ofOffset offset (front ++ u)) cause offset) := by
  generalize hs : Stream.ofOffset offset cs = stream at h
  cases cs with
  | nil =>
    rw [Stream.ofOffset_nil] at hs
    subst hs
    cases h with
    | ending _ => exact ⟨rfl, .inl ⟨rfl, rfl⟩⟩
  | cons c tail =>
    have hnext := Scan.next_char (hc c rfl) offset
    cases h with
    | lexeme ha =>
      obtain ⟨rest, hn, -⟩ := Stream.next_of_ofOffset_cons hs
      have hstart := (Scan.of_atChar ((hnext tail).symm.trans hn)).1
      obtain ⟨front, hcs, hne, hspans, hrefuses⟩ := refuses_of_lexeme hn hstart ha
      exact ⟨hstart, .inr ⟨front, rest, hcs, hne, hspans, hrefuses⟩⟩
    | char =>
      have hn := Stream.next_of_ofOffset_nil hs
      obtain ⟨he, hchar⟩ := Scan.ending_of_atChar ((hnext tail).symm.trans hn)
      cases he
      refine ⟨rfl, .inr ⟨[c], tail, rfl, List.cons_ne_nil c [], ?_, fun u _ => ?_⟩⟩
      · rw [Scan.Spans, hn]
        exact ⟨rfl, rfl⟩
      · rw [List.singleton_append, Stream.ofOffset_of_ending ((hnext u).trans (hchar u))]
        exact .char
    | ending _ =>
      have hn := Stream.next_of_ofOffset_nil hs
      cases (Scan.ending_of_atChar ((hnext tail).symm.trans hn)).1

/-- The error is one of a lexeme exactly if a character that starts none comes next. -/
theorem Refuses.kind_eq_lexeme_iff (h : r.Refuses (.ofOffset offset cs) cause k) :
    cause.kind = .lexeme ↔ ∃ c, Scan.next offset cs = .ending (.unexpected c k) := by
  have hexpected (what : Expectation) (found : Option Token) :
      (ReadCause.expected what found).kind ≠ .lexeme := by
    cases what <;> exact ReadErrorKind.noConfusion
  generalize hs : Stream.ofOffset offset cs = stream at h
  cases h with
  | lexeme _ =>
    obtain ⟨rest, hn, -⟩ := Stream.next_of_ofOffset_cons hs
    simp [hexpected, hn]
  | char =>
    have hn := Stream.next_of_ofOffset_nil hs
    exact ⟨fun _ => ⟨_, hn⟩, fun _ => rfl⟩
  | ending _ =>
    have hn := Stream.next_of_ofOffset_nil hs
    simp [hexpected, hn]

end Reading

namespace Script

theorem locate_congr {cs cs' : List Char} {k : Nat} (h : cs.take k = cs'.take k)
    (cause : ReadCause) : ReadError.locate cs cause k = .locate cs' cause k := by
  simp [ReadError.locate, Text.Position.ofOffset, h]

theorem parse_eq_error_iff {source : String} {e : ReadError} :
    parse none source = .error (.read e) ↔ ∃ cause k,
      ofStream none (.ofChars source.toList) = .error (.cause cause k) ∧
      e = .locate source.toList cause k := by
  rw [parse]
  constructor
  · intro h
    rcases ofStream_none (.ofChars source.toList) with ⟨s, _, ho, -⟩ | ⟨cause, k, ho, -⟩
    · rw [ho] at h
      cases h
    · rw [ho] at h
      cases h
      exact ⟨cause, k, ho, rfl⟩
  · rintro ⟨cause, k, ho, rfl⟩
    rw [ho]
    rfl

/-- A text with an error is cut where a reading of what comes before refuses what follows. -/
theorem exists_cut_of_parse {source : String} {e : ReadError}
    (h : parse none source = .error (.read e)) :
    ∃ before r front back, source.toList = front ++ back ∧ Stream.Cut 0 front back before ∧
      Reading.acceptAll none (.item []) before = .ok r ∧
      r.Refuses (.ofOffset front.length back) e.cause e.offset ∧
      e = .locate source.toList e.cause e.offset := by
  obtain ⟨cause, k, hstop, rfl⟩ := parse_eq_error_iff.mp h
  obtain ⟨before, rest, r, hs, ha, hr⟩ := ofStream_eq_error_iff.mp hstop
  obtain ⟨front, back, htext, hcut, rfl⟩ := Stream.exists_cut hs
  rw [Nat.zero_add] at hr
  exact ⟨before, r, front, back, htext, hcut, ha, hr, rfl⟩

/-- What a reading refuses after a cut is an error of the whole text. -/
theorem parse_of_refuses {front back u : List Char} {before : List Lexeme} {r : Reading}
    {cause : ReadCause} {k : Nat} (hcut : Stream.Cut 0 front back before)
    (ha : Reading.acceptAll none (.item []) before = .ok r) (hu : u.head? = back.head?)
    (hr : r.Refuses (.ofOffset front.length u) cause k) :
    parse none (String.ofList (front ++ u)) = .error (.read (.locate (front ++ u) cause k)) := by
  have hs : Stream.ofChars (front ++ u) = .prepend before (.ofOffset front.length u) := by
    have hreplaced := hcut.replaced u hu
    rw [Nat.zero_add] at hreplaced
    exact hreplaced
  refine parse_eq_error_iff.mpr ⟨cause, k, ?_, by rw [String.toList_ofList]⟩
  rw [String.toList_ofList]
  exact ofStream_eq_error_iff.mpr ⟨before, _, r, hs, ha, hr⟩

/-- An error in a text is at the first place where the text goes wrong. Up to there the text can be
continued to a script. If it does not merely end too early, a lexeme or a character that starts none stands
there, and up to the end of that the text has the same error whatever comes after it. The error is one of a
lexeme exactly if such a character stands there. -/
theorem parse_error_at_first_offence (source : String) (e : ReadError)
    (h : parse none source = .error (.read e)) :
    let text := source.toList
    let place := Text.Position.ofOffset text e.offset
    e.offset ≤ text.length ∧
    e.message = e.cause.text ++ " at line " ++ toString place.line ++
      ", column " ++ toString place.column ∧
    (e.kind = .lexeme ↔ ∃ c, Scan.next e.offset (text.drop e.offset) = .ending (.unexpected c e.offset)) ∧
    (∃ t s, parse none (String.ofList (text.take e.offset) ++ t) = .ok s) ∧
    ((e.offset = text.length ∧ ∃ what, e.cause = .expected what none) ∨
      ∃ stop, Scan.Spans e.offset (text.drop e.offset) stop ∧
        ∀ u : String, isBoundary u.toList = true →
          parse none (String.ofList (text.take stop) ++ u) = .error (.read e)) := by
  intro text place
  obtain ⟨before, r, front, back, htext, hcut, ha, hr, he⟩ := exists_cut_of_parse h
  change text = front ++ back at htext
  obtain ⟨hoffset, hcases⟩ := hr.at_start hcut.starts
  have hlength : text.length = front.length + back.length := by rw [htext, List.length_append]
  have htake : text.take e.offset = front := by rw [htext, hoffset, List.take_left]
  have hdrop : text.drop e.offset = back := by rw [htext, hoffset, List.drop_left]
  refine ⟨by omega, ?_, ?_, ?_, ?_⟩
  · have hplace : e.position = place := congrArg ReadError.position he
    rw [← hplace]
    rfl
  · have hkind := hr.kind_eq_lexeme_iff
    rwa [← hoffset, ← hdrop] at hkind
  · obtain ⟨before', hfront, hadmits⟩ := hcut.alone
    obtain ⟨r', ha'⟩ := hadmits _ r ha
    rw [htake]
    exact exists_parse_append hfront ha'
  · rcases hcases with ⟨rfl, hcause⟩ | ⟨own, after, rfl, hne, hspans, hrefuses⟩
    · exact .inl ⟨by simp only [List.length_nil] at hlength; omega, r.expects, hcause⟩
    · refine .inr ⟨front.length + own.length, ?_, fun u hu => ?_⟩
      · rw [hdrop, hoffset]
        exact hspans
      have hstop : text.take (front.length + own.length) = front ++ own := by
        rw [htext, ← List.append_assoc, ← List.length_append, List.take_left]
      have hhead : (own ++ u.toList).head? = (own ++ after).head? := by
        obtain ⟨c, own, rfl⟩ := List.exists_cons_of_ne_nil hne
        rfl
      have hparse := parse_of_refuses hcut ha hhead (hrefuses u.toList hu)
      -- The error is the same one, since nothing before its place has changed.
      have hsame : ReadError.locate (front ++ (own ++ u.toList)) e.cause front.length = e := by
        have hfront : (front ++ (own ++ u.toList)).take front.length = text.take front.length := by
          rw [← hoffset, htake, hoffset, List.take_left]
        rw [locate_congr hfront, ← hoffset]
        exact he.symm
      rw [hstop, ← String.ofList_toList (s := u), ← String.ofList_append, List.append_assoc, hparse, hsame]

/-- A parenthesis that opens right after a parameter on the second line. -/
theorem parse_error_at_first_offence_parameter :
    let e : ReadError := ⟨.expected .parameterEnd (some .lparen), 9, ⟨2, 3⟩⟩
    parse none "def f(\n x(y)) = z" = .error (.read e) ∧
      (∃ t s, parse none ("def f(\n x" ++ t) = .ok s) ∧
      ∀ u : String, isBoundary u.toList = true →
        parse none ("def f(\n x(" ++ u) = .error (.read e) := by
  intro e
  have herror : parse none "def f(\n x(y)) = z" = .error (.read e) := by decide +kernel
  obtain ⟨-, -, -, hcontinued, hend⟩ := parse_error_at_first_offence _ e herror
  refine ⟨herror, hcontinued, ?_⟩
  rcases hend with ⟨hoffset, -⟩ | ⟨stop, hspans, hsame⟩
  · exact absurd hoffset (by decide +kernel)
  · have hnext : Scan.next 9 ("def f(\n x(y)) = z".toList.drop 9) =
        .lexeme ⟨.lparen, 9, 10, false⟩ "y)) = z".toList := by decide +kernel
    rw [Scan.Spans, hnext] at hspans
    obtain ⟨-, rfl⟩ := hspans
    exact hsame

end Script

end Unary
