import Unary.Proofs.Parsing

/-!
Texts one after the other.

After a text of definitions and a blank, a text is read as it is read alone: its lexemes are the same and
only their offsets have moved, and each reading is the same with the definitions put before it. So it
gives its script after those definitions, or it is refused for the same cause at the moved offset.
-/

namespace Unary

section Moved

/-- A lexeme moved along its text. -/
def Lexeme.shift (d : Nat) (l : Lexeme) : Lexeme :=
  ⟨l.token, l.start + d, l.stop + d, l.opens⟩

def Ending.shift (d : Nat) : Ending → Ending
  | .finish offset => .finish (offset + d)
  | .unexpected c offset => .unexpected c (offset + d)

def Scan.shift (d : Nat) : Scan → Scan
  | .lexeme l rest => .lexeme (l.shift d) rest
  | .ending e => .ending (e.shift d)

def Stream.shift (d : Nat) (stream : Stream) : Stream :=
  ⟨stream.lexemes.map (Lexeme.shift d), stream.ending.shift d⟩

theorem Scan.atChar_shift (d start : Nat) (c : Char) (cs : List Char) :
    atChar (start + d) c cs = (atChar start c cs).shift d := by
  unfold atChar
  split
  · simp only [found, shift, Lexeme.shift, Nat.add_right_comm]
  · cases Token.ofPunctuation? c with
    | none => rfl
    | some token => simp only [found, shift, Lexeme.shift, Nat.add_right_comm]

theorem Scan.next_shift (d offset : Nat) (cs : List Char) :
    next (offset + d) cs = (next offset cs).shift d := by
  unfold next
  rw [Nat.add_right_comm]
  cases cs.dropWhile Text.isBlank with
  | nil => rfl
  | cons c rest => exact atChar_shift d _ c rest

/-- A text that starts further on has the same lexemes, moved. -/
theorem Stream.ofOffset_shift (d offset : Nat) (cs : List Char) :
    ofOffset (offset + d) cs = (ofOffset offset cs).shift d := by
  induction offset, cs using scan_induction with
  | ending offset cs e h =>
    have hd : Scan.next (offset + d) cs = .ending (e.shift d) := by
      rw [Scan.next_shift, h]
      rfl
    rw [ofOffset_of_ending h, ofOffset_of_ending hd]
    rfl
  | lexeme offset cs l rest h ih =>
    have hd : Scan.next (offset + d) cs = .lexeme (l.shift d) rest := by
      rw [Scan.next_shift, h]
      rfl
    rw [ofOffset_of_lexeme h, ofOffset_of_lexeme hd]
    change prepend [l.shift d] (ofOffset (l.stop + d) rest) = _
    rw [ih]
    rfl

end Moved

section Blank

variable {c : Char} {cs rest : List Char}

theorem Text.isAlphanum_of_isBlank (hc : isBlank c = true) : c.isAlphanum = false := by
  have ha : c.isAlpha = false := by
    by_contra h
    rw [Bool.not_eq_false] at h
    rw [isBlank_of_isAlpha h] at hc
    cases hc
  have hd : c.isDigit = false := by
    by_contra h
    rw [Bool.not_eq_false] at h
    have hr := toNat_of_isDigit h
    simp only [isBlank, Bool.or_eq_true, Bool.and_eq_true, decide_eq_true_eq, beq_iff_eq] at hc
    omega
  rw [Char.isAlphanum, ha, hd]
  rfl

theorem head?_append_blank (hc : Text.isBlank c = true) (cs rest : List Char) :
    ((cs ++ c :: rest).head? == some '(') = (cs.head? == some '(') := by
  cases cs with
  | cons d cs => rfl
  | nil =>
    have hne : c ≠ '(' := by
      rintro rfl
      exact absurd hc (by decide)
    simp [hne]

theorem takeWhile_append_blank (hc : Text.isBlank c = true) (cs rest : List Char) :
    (cs ++ c :: rest).takeWhile Char.isAlphanum = cs.takeWhile Char.isAlphanum ∧
      (cs ++ c :: rest).dropWhile Char.isAlphanum = cs.dropWhile Char.isAlphanum ++ c :: rest := by
  have hn := Text.isAlphanum_of_isBlank hc
  induction cs with
  | nil => simp [hn]
  | cons d cs ih =>
    by_cases hd : d.isAlphanum = true
    · simp [hd, ih]
    · simp [hd]

namespace Scan

variable {offset : Nat} {l : Lexeme} {tail : List Char}

theorem atChar_append {d : Char} (hc : Text.isBlank c = true)
    (h : atChar offset d cs = .lexeme l tail) (rest : List Char) :
    atChar offset d (cs ++ c :: rest) = .lexeme l (tail ++ c :: rest) := by
  unfold atChar at h ⊢
  split at h
  · next hd =>
    obtain ⟨ht, hr⟩ := takeWhile_append_blank hc cs rest
    simp only [found, lexeme.injEq] at h
    obtain ⟨rfl, rfl⟩ := h
    simp only [if_pos hd, found, ht, hr, head?_append_blank hc]
  · next hd =>
    rw [if_neg hd]
    cases hp : Token.ofPunctuation? d with
    | none =>
      rw [hp] at h
      cases h
    | some token =>
      simp only [hp, found, lexeme.injEq] at h
      obtain ⟨rfl, rfl⟩ := h
      simp only [found, head?_append_blank hc]

/-- A lexeme ends before a blank, whatever comes after it. -/
theorem next_append (hc : Text.isBlank c = true) (h : next offset cs = .lexeme l tail)
    (rest : List Char) : next offset (cs ++ c :: rest) = .lexeme l (tail ++ c :: rest) := by
  induction cs generalizing offset with
  | nil => cases h
  | cons d cs ih =>
    by_cases hd : Text.isBlank d = true
    · rw [next_blank hd] at h
      rw [List.cons_append, next_blank hd]
      exact ih h
    · rw [Bool.not_eq_true] at hd
      rw [next_char hd] at h
      rw [List.cons_append, next_char hd]
      exact atChar_append hc h rest

theorem atChar_length {d : Char} (h : atChar offset d cs = .lexeme l tail) :
    l.stop + tail.length = offset + (cs.length + 1) := by
  unfold atChar at h
  split at h
  · simp only [found, lexeme.injEq] at h
    obtain ⟨rfl, rfl⟩ := h
    have hlen := congrArg List.length (List.takeWhile_append_dropWhile (p := Char.isAlphanum) (l := cs))
    rw [List.length_append] at hlen
    dsimp only
    omega
  · split at h
    · simp only [found, lexeme.injEq] at h
      obtain ⟨rfl, rfl⟩ := h
      dsimp only
      omega
    · cases h

/-- What is left after a lexeme starts where the lexeme stops. -/
theorem next_length (h : next offset cs = .lexeme l tail) :
    l.stop + tail.length = offset + cs.length := by
  induction cs generalizing offset with
  | nil => cases h
  | cons d cs ih =>
    rw [List.length_cons]
    by_cases hd : Text.isBlank d = true
    · rw [next_blank hd] at h
      have := ih h
      omega
    · rw [Bool.not_eq_true] at hd
      rw [next_char hd] at h
      exact atChar_length h

theorem next_of_finish {k : Nat} (h : next offset cs = .ending (.finish k)) (rest : List Char) :
    next offset (cs ++ rest) = next (offset + cs.length) rest := by
  induction cs generalizing offset with
  | nil => rfl
  | cons d cs ih =>
    by_cases hd : Text.isBlank d = true
    · rw [next_blank hd] at h
      rw [List.cons_append, next_blank hd, ih h, List.length_cons, Nat.add_right_comm, Nat.add_assoc]
    · rw [Bool.not_eq_true] at hd
      rw [next_char hd] at h
      unfold atChar at h
      split at h
      · cases h
      · split at h <;> cases h

end Scan

namespace Stream

theorem ofOffset_congr {offset offset' : Nat} {cs cs' : List Char}
    (h : Scan.next offset cs = Scan.next offset' cs') : ofOffset offset cs = ofOffset offset' cs' := by
  cases hn : Scan.next offset' cs' with
  | ending e => rw [ofOffset_of_ending (h.trans hn), ofOffset_of_ending hn]
  | lexeme l rest => rw [ofOffset_of_lexeme (h.trans hn), ofOffset_of_lexeme hn]

/-- The lexemes of a text that is followed by a blank are its own, and then those of what follows. -/
theorem ofOffset_append (hc : Text.isBlank c = true) (rest : List Char) {offset : Nat}
    {ls : List Lexeme} {k : Nat} (h : ofOffset offset cs = ⟨ls, .finish k⟩) :
    ofOffset offset (cs ++ c :: rest) = prepend ls (ofOffset (offset + cs.length) (c :: rest)) := by
  induction offset, cs using scan_induction generalizing ls with
  | ending offset cs e hn =>
    rw [ofOffset_of_ending hn] at h
    cases h
    exact ofOffset_congr (Scan.next_of_finish hn (c :: rest))
  | lexeme offset cs l tail hn ih =>
    rw [ofOffset_of_lexeme hn] at h
    have hl : ls = l :: (ofOffset l.stop tail).lexemes := (congrArg lexemes h).symm
    have he : (ofOffset l.stop tail).ending = .finish k := congrArg ending h
    have hs : ofOffset l.stop tail = ⟨(ofOffset l.stop tail).lexemes, .finish k⟩ := by rw [← he]
    have ht := ih hs
    rw [ofOffset_of_lexeme (Scan.next_append hc hn rest), ht, Scan.next_length hn, hl]
    rfl

theorem ofOffset_blanks {blanks : List Char} (hb : blanks.all Text.isBlank = true) (offset : Nat)
    (cs : List Char) : ofOffset offset (blanks ++ cs) = ofOffset (offset + blanks.length) cs := by
  induction blanks generalizing offset with
  | nil => rfl
  | cons c blanks ih =>
    rw [List.all_cons, Bool.and_eq_true] at hb
    rw [List.cons_append, ofOffset_blank hb.1, ih hb.2, List.length_cons, Nat.add_right_comm,
      Nat.add_assoc]

theorem ofOffset_of_blanks {blanks : List Char} (hb : blanks.all Text.isBlank = true) (offset : Nat) :
    ofOffset offset blanks = ⟨[], .finish (offset + blanks.length)⟩ := by
  have h := ofOffset_blanks hb offset []
  rw [List.append_nil, ofOffset_nil] at h
  exact h

end Stream

end Blank

namespace Reading

/-- A reading with definitions, which are in reverse order, put before all that it has read. -/
def precede (old : List Definition) : Reading → Reading
  | item defs => item (defs ++ old)
  | definedName defs => definedName (defs ++ old)
  | head defs name => head (defs ++ old) name
  | parameter defs name params => parameter (defs ++ old) name params
  | parameterEnd defs name params => parameterEnd (defs ++ old) name params
  | equals defs target => equals (defs ++ old) target
  | inside defs target depth slots want => inside (defs ++ old) target depth slots want
  | closed defs result => closed (defs ++ old) result

variable (old : List Definition)

theorem expects_precede (r : Reading) : (r.precede old).expects = r.expects := by
  cases r <;> rfl

theorem finish_precede (r : Reading) :
    (r.precede old).finish = r.finish.map (Script.after old.reverse) := by
  cases r <;> simp [precede, finish, Script.after]

theorem fill_precede (defs : List Definition) (target : Target) (depth : Nat) (e : Expr)
    (slots : List Slot) :
    fill (defs ++ old) target depth e slots = (fill defs target depth e slots).precede old := by
  induction slots generalizing depth e with
  | nil => cases target <;> rfl
  | cons slot slots ih =>
    cases slot with
    | no left right yes => exact ih _ _
    | _ => rfl

theorem start_precede (l : Lexeme) (defs : List Definition) (target : Target) (depth : Nat)
    (slots : List Slot) :
    start l (defs ++ old) target depth slots =
      (start l defs target depth slots).map (precede old) := by
  unfold start
  cases l.token with
  | ident name => cases l.opens <;> simp [fill_precede, precede]
  | _ => simp [fill_precede, precede]

theorem acceptInside_precede (l : Lexeme) (defs : List Definition) (target : Target) (depth : Nat)
    (slots : List Slot) (want : Want) :
    acceptInside l (defs ++ old) target depth slots want =
      (acceptInside l defs target depth slots want).map (precede old) := by
  cases want with
  | expression => exact start_precede old l defs target depth slots
  | succOpen =>
    cases slots with
    | nil => cases hl : l.token <;> simp [acceptInside, hl, push, precede]
    | cons slot slots =>
      cases slot <;> cases hl : l.token <;> simp [acceptInside, hl, push, precede]
  | succClose count arg =>
    cases count <;> cases hl : l.token <;> simp [acceptInside, hl, fill_precede, precede]
  | _ => cases hl : l.token <;> simp [acceptInside, hl, fill_precede, push, precede]

/-- Definitions that came before do not change which lexeme is taken. -/
theorem accept_precede (l : Lexeme) (r : Reading) :
    (r.precede old).accept l = (r.accept l).map (precede old) := by
  cases r with
  | item defs =>
    change accept l (item (defs ++ old)) = _
    cases hl : l.token <;> simp [accept, hl, start_precede, precede]
  | inside defs target depth slots want => exact acceptInside_precede old l defs target depth slots want
  | closed defs result => rfl
  | _ => cases hl : l.token <;> simp [precede, accept, hl]

theorem accept_shift (d : Nat) (l : Lexeme) (r : Reading) : r.accept (l.shift d) = r.accept l := rfl

/-- A cause moved along its text. -/
def Stop.shift (d : Nat) : Stop → Stop
  | .cause why offset => .cause why (offset + d)
  | .tooDeep => .tooDeep

theorem acceptAll_append (r : Reading) (ls ls' : List Lexeme) :
    acceptAll none r (ls ++ ls') = acceptAll none r ls >>= fun r' => acceptAll none r' ls' := by
  induction ls generalizing r with
  | nil => rfl
  | cons l ls ih =>
    rw [List.cons_append, acceptAll, acceptAll]
    cases r.accept l with
    | none => rfl
    | some r' => exact ih r'

theorem acceptAll_precede_shift (d : Nat) (r : Reading) (ls : List Lexeme) :
    acceptAll none (r.precede old) (ls.map (Lexeme.shift d)) =
      ((acceptAll none r ls).map (precede old)).mapError (Stop.shift d) := by
  induction ls generalizing r with
  | nil => rfl
  | cons l ls ih =>
    rw [List.map_cons, acceptAll, acceptAll, accept_shift, accept_precede]
    cases r.accept l with
    | none =>
      rw [expects_precede]
      rfl
    | some r' => exact ih r'

theorem conclude_precede_shift (d : Nat) (r : Reading) (ending : Ending) :
    (r.precede old).conclude (ending.shift d) =
      ((r.conclude ending).map (Script.after old.reverse)).mapError (Stop.shift d) := by
  cases ending with
  | unexpected c offset => rfl
  | finish offset =>
    simp only [Ending.shift, conclude, finish_precede, expects_precede]
    cases r.finish <;> rfl

theorem eq_item_of_finish {r : Reading} {defs : List Definition}
    (h : r.finish = some ⟨defs, none⟩) : r = item defs.reverse := by
  cases r with
  | item ds =>
    have hd : ds.reverse = defs := by simpa [finish] using h
    rw [← hd, List.reverse_reverse]
  | _ => simp [finish] at h

end Reading

namespace Script

/-- A text of definitions is all lexemes, and reading them leads to where the next definition may begin. -/
theorem acceptAll_of_parse {source : String} {defs : List Definition}
    (h : parse none source = .ok ⟨defs, none⟩) :
    ∃ ls k, Stream.ofChars source.toList = ⟨ls, .finish k⟩ ∧
      Reading.acceptAll none (.item []) ls = .ok (.item defs.reverse) := by
  have hd := (parse_eq_ok_iff source ⟨defs, none⟩).mp h
  obtain ⟨k, he, hr⟩ := (derives_iff_reads source ⟨defs, none⟩).mp hd
  rcases Reading.acceptAll_none (.item []) (Stream.ofChars source.toList).lexemes with
    ⟨r, ha, hf⟩ | ⟨cause, offset, -, hn⟩
  · rw [Reading.eq_item_of_finish (hf.symm.trans hr)] at ha
    refine ⟨(Stream.ofChars source.toList).lexemes, k, ?_, ha⟩
    rw [← he]
  · rw [hn] at hr
    cases hr

theorem ofStream_eq_bind (limit : Option Nat) (stream : Stream) :
    ofStream limit stream = Reading.acceptAll limit (.item []) stream.lexemes >>= fun r =>
      r.conclude stream.ending := by
  rw [ofStream]
  cases Reading.acceptAll limit (.item []) stream.lexemes <;> rfl

/-- Definitions, blanks and then another text are read as that text after the definitions. -/
theorem ofStream_append {source : String} {defs : List Definition}
    (h : parse none source = .ok ⟨defs, none⟩) {blanks : List Char} (hne : blanks ≠ [])
    (hb : blanks.all Text.isBlank = true) (cs : List Char) :
    ofStream none (.ofChars (source.toList ++ blanks ++ cs)) =
      ((ofStream none (.ofChars cs)).map (after defs)).mapError
        (Reading.Stop.shift (source.toList.length + blanks.length)) := by
  obtain ⟨ls, k, hs, ha⟩ := acceptAll_of_parse h
  obtain - | ⟨c, blanks⟩ := blanks
  · exact absurd rfl hne
  have hc : Text.isBlank c = true := by
    rw [List.all_cons, Bool.and_eq_true] at hb
    exact hb.1
  let d := source.toList.length + (c :: blanks).length
  have hstream : Stream.ofChars (source.toList ++ (c :: blanks) ++ cs) =
      .prepend ls ((Stream.ofChars cs).shift d) := by
    rw [List.append_assoc, List.cons_append]
    have happ : Stream.ofOffset 0 (source.toList ++ c :: (blanks ++ cs)) =
        .prepend ls (.ofOffset (0 + source.toList.length) (c :: (blanks ++ cs))) :=
      Stream.ofOffset_append hc (blanks ++ cs) hs
    have hblanks := Stream.ofOffset_blanks hb (0 + source.toList.length) cs
    have hshift := Stream.ofOffset_shift d 0 cs
    rw [List.cons_append] at hblanks
    rw [← Nat.add_assoc] at hshift
    exact happ.trans (congrArg _ (hblanks.trans hshift))
  -- The reading after the definitions is the one before any, with the definitions put before it.
  have hread := Reading.acceptAll_precede_shift defs.reverse d (.item []) (Stream.ofChars cs).lexemes
  have hend := Reading.conclude_precede_shift defs.reverse d
  rw [List.reverse_reverse] at hend
  rw [hstream, ofStream_eq_bind, Stream.prepend, Reading.acceptAll_append, ha]
  change (Reading.acceptAll none (.precede defs.reverse (.item []))
    ((Stream.ofChars cs).lexemes.map (Lexeme.shift d)) >>= fun r =>
      r.conclude ((Stream.ofChars cs).ending.shift d)) = _
  rw [hread, ofStream_eq_bind]
  cases Reading.acceptAll none (.item []) (Stream.ofChars cs).lexemes with
  | error stop => rfl
  | ok r => exact hend r (Stream.ofChars cs).ending

/-- After a text of definitions and a blank, a text gives its script after those definitions, or it is
refused for the same cause, which has moved by what stands before it. -/
theorem parse_append {source : String} {defs : List Definition}
    (h : parse none source = .ok ⟨defs, none⟩) {blanks : List Char} (hne : blanks ≠ [])
    (hb : blanks.all Text.isBlank = true) (next : String) :
    let whole := source ++ String.ofList blanks ++ next
    (∃ s, parse none next = .ok s ∧ parse none whole = .ok (s.after defs)) ∨
      ∃ cause offset, parse none next = .error (.read (.locate next.toList cause offset)) ∧
        parse none whole = .error (.read (.locate whole.toList cause
          (offset + (source.toList.length + blanks.length)))) := by
  intro whole
  have hwhole : whole.toList = source.toList ++ blanks ++ next.toList := by
    simp [whole, String.toList_append]
  have hstream := ofStream_append h hne hb next.toList
  rw [← hwhole] at hstream
  unfold parse
  rw [hstream]
  rcases ofStream_none (.ofChars next.toList) with ⟨s, k, ho, -⟩ | ⟨cause, offset, ho, -⟩
  · rw [ho]
    exact .inl ⟨s, rfl, rfl⟩
  · rw [ho]
    exact .inr ⟨cause, offset, rfl, rfl⟩

theorem parse_append_newline {source : String} {defs : List Definition}
    (h : parse none source = .ok ⟨defs, none⟩) (next : String) :
    let whole := source ++ "\n" ++ next
    (∃ s, parse none next = .ok s ∧ parse none whole = .ok (s.after defs)) ∨
      ∃ cause offset, parse none next = .error (.read (.locate next.toList cause offset)) ∧
        parse none whole = .error (.read (.locate whole.toList cause
          (offset + (source.toList.length + 1)))) :=
  parse_append h (List.cons_ne_nil '\n' []) rfl next

/-- After definitions and blanks, a text gives its own definitions after the earlier ones and its own final
expression. If it is refused alone, it is refused there with an error of the same kind and for the same cause,
as far on as the text has moved, and the two messages differ only in the line and the column. -/
theorem parse_after_definitions {source : String} {defs : List Definition}
    (h : parse none source = .ok ⟨defs, none⟩) {blanks : String} (hne : blanks ≠ "")
    (hb : blanks.toList.all Text.isBlank = true) (next : String) :
    let whole := source ++ blanks ++ next
    (∀ s, parse none next = .ok s → parse none whole = .ok ⟨defs ++ s.definitions, s.result⟩) ∧
      ∀ error, parse none next = .error error → ∃ e e' : ReadError,
        error = .read e ∧ parse none whole = .error (.read e') ∧ e'.kind = e.kind ∧ e'.cause = e.cause ∧
          e'.offset = e.offset + source.length + blanks.length ∧
          e.position = .ofOffset next.toList e.offset ∧
          e'.position = .ofOffset whole.toList e'.offset ∧
          ∃ text, ∀ x ∈ [e, e'], x.message =
            text ++ " at line " ++ toString x.position.line ++ ", column " ++ toString x.position.column := by
  intro whole
  have hchars : blanks.toList ≠ [] := by
    intro hnil
    exact hne (String.toList_eq_nil_iff.mp hnil)
  have hread := parse_append h hchars hb next
  rw [String.ofList_toList] at hread
  rcases hread with ⟨s, hnext, hwhole⟩ | ⟨cause, offset, hnext, hwhole⟩
  · refine ⟨fun s' hs' => ?_, fun error herror => ?_⟩
    · rw [hnext] at hs'
      cases hs'
      exact hwhole
    · rw [hnext] at herror
      cases herror
  · refine ⟨fun s' hs' => ?_, fun error herror => ?_⟩
    · rw [hnext] at hs'
      cases hs'
    · rw [hnext] at herror
      cases herror
      have hmoved : offset + (source.toList.length + blanks.toList.length) =
          offset + source.length + blanks.length := by
        rw [String.length_toList, String.length_toList, Nat.add_assoc]
      refine ⟨_, _, rfl, hwhole, rfl, rfl, hmoved, rfl, rfl, cause.text, fun x hx => ?_⟩
      have hcause : x.cause = cause := by
        simp only [List.mem_cons, List.not_mem_nil, or_false] at hx
        rcases hx with rfl | rfl <;> rfl
      rw [ReadError.message, hcause]

/-- The last body is a name and so could go on with what comes next. A parenthesis after blanks is no part
of it and is refused as it is alone, a name is the final expression. -/
theorem parse_after_definitions_name :
    let source := "def f(x) = x\ndef a = f"
    let blanks := "\n "
    parse none source = .ok ⟨[.function "f" ["x"] (.var "x"), .value "a" (.var "f")], none⟩ ∧
      parse none "(z)" = .error (.read ⟨.expected .item (some .lparen), 0, ⟨1, 1⟩⟩) ∧
      parse none (source ++ blanks ++ "(z)") =
        .error (.read ⟨.expected .item (some .lparen), 24, ⟨3, 2⟩⟩) ∧
      parse none "def b = s(a) f(b)" =
        .ok ⟨[.value "b" (.succ (.var "a"))], some (.call "f" [.var "b"])⟩ ∧
      parse none (source ++ blanks ++ "def b = s(a) f(b)") =
        .ok ⟨[.function "f" ["x"] (.var "x"), .value "a" (.var "f"), .value "b" (.succ (.var "a"))],
          some (.call "f" [.var "b"])⟩ := by
  intro source blanks
  have h : parse none source =
      .ok ⟨[.function "f" ["x"] (.var "x"), .value "a" (.var "f")], none⟩ := by decide +kernel
  have hopen : parse none "(z)" = .error (.read ⟨.expected .item (some .lparen), 0, ⟨1, 1⟩⟩) := by
    decide +kernel
  have hdefine : parse none "def b = s(a) f(b)" =
      .ok ⟨[.value "b" (.succ (.var "a"))], some (.call "f" [.var "b"])⟩ := by decide +kernel
  have hblanks : blanks.toList.all Text.isBlank = true := by decide
  have hafter := parse_after_definitions h (by decide) hblanks
  obtain ⟨e, e', he, hwhole, -, hcause, hoffset, -, hposition, -⟩ := (hafter "(z)").2 _ hopen
  cases he
  have hoffset' : e'.offset = 24 := hoffset.trans (by decide +kernel)
  rw [hoffset'] at hposition
  have hposition' : e'.position = ⟨3, 2⟩ := hposition.trans (by decide +kernel)
  obtain ⟨cause, offset, position⟩ := e'
  cases hcause
  cases hoffset'
  cases hposition'
  exact ⟨h, hopen, hwhole, hdefine, (hafter "def b = s(a) f(b)").1 _ hdefine⟩

end Script

end Unary
