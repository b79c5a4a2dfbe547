import Mathlib.Data.String.Basic
import Unary.Disk.Tree
import Unary.Proofs.Programs

/-!
Paths in trees of directories.

A path is followed component by component. Leaving out what does not change it leads to the same place if it
leads anywhere, and its last name is looked up in the directory to which the rest of it leads.
-/

namespace Unary

namespace Path

/-- Whether a component leads anywhere but to the place at which it is followed. -/
def moves (part : String) : Bool :=
  part ≠ "" && part ≠ "."

@[simp]
theorem moves_empty : moves "" = false := rfl

@[simp]
theorem moves_dot : moves "." = false := rfl

theorem ne_empty_of_moves {part : String} (h : moves part = true) : part ≠ "" := by
  rintro rfl
  cases h

structure IsComponent (part : String) : Prop where
  moves : moves part = true
  no_slash : '/' ∉ part.toList

/-- A path that is written as it is read. -/
structure Normal (p : Path) : Prop where
  root : p.root = "" ∨ p.root = "/" ∨ p.root = "//"
  parts : ∀ part ∈ p.parts, IsComponent part

/-- The texts between the slashes of a text. -/
def pieces (s : String) : List String :=
  (s.toList.splitOn '/').map String.ofList

theorem not_mem_of_mem_splitOn {cs piece : List Char} (h : piece ∈ cs.splitOn '/') : '/' ∉ piece := by
  induction cs generalizing piece with
  | nil =>
    rw [List.splitOn_nil, List.mem_singleton] at h
    simp [h]
  | cons c cs ih =>
    rw [List.splitOn_cons_eq_if_modifyHead] at h
    by_cases hc : c = '/'
    · rw [if_pos (beq_iff_eq.mpr hc), List.mem_cons] at h
      rcases h with rfl | h
      · exact List.not_mem_nil
      · exact ih h
    · rw [if_neg (by simpa using hc)] at h
      obtain ⟨first, rest, hsplit⟩ := List.exists_cons_of_ne_nil (List.splitOn_ne_nil '/' cs)
      rw [hsplit] at ih h
      rcases List.mem_cons.mp h with rfl | h
      · rw [List.mem_cons, not_or]
        exact ⟨fun heq => hc heq.symm, ih List.mem_cons_self⟩
      · exact ih (List.mem_cons_of_mem first h)

theorem splitOn_slash (cs : List Char) : ('/' :: cs).splitOn '/' = [] :: cs.splitOn '/' := by
  rw [List.splitOn_cons_eq_if_modifyHead, if_pos (by decide)]

theorem rootOf_eq_empty_iff (cs : List Char) : rootOf cs = "" ↔ cs.head? ≠ some '/' := by
  rw [Ne, List.head?_eq_some_iff]
  unfold rootOf
  split <;> simp_all

theorem normal_ofString (s : String) : (ofString s).Normal where
  root := by
    change rootOf s.toList = "" ∨ rootOf s.toList = "/" ∨ rootOf s.toList = "//"
    unfold rootOf
    split <;> simp
  parts part hmem := by
    obtain ⟨hpiece, hkept⟩ := List.mem_filter.mp hmem
    obtain ⟨piece, hsplit, rfl⟩ := List.mem_map.mp hpiece
    refine ⟨hkept, ?_⟩
    rw [String.toList_ofList]
    exact not_mem_of_mem_splitOn hsplit

variable {p : Path} {name : String}

theorem Normal.join (h : p.Normal) (hname : IsComponent name) : (p.join name).Normal where
  root := h.root
  parts part hmem := by
    rcases List.mem_append.mp hmem with hold | hnew
    · exact h.parts part hold
    · exact List.mem_singleton.mp hnew ▸ hname

theorem Normal.parent (h : p.Normal) : p.parent.Normal where
  root := h.root
  parts part hmem := h.parts part ((List.dropLast_sublist _).subset hmem)

/-- Between the slashes of joined components are the components, or nothing if there are none. -/
theorem exists_pieces_intercalate {parts : List String} (h : ∀ part ∈ parts, IsComponent part) :
    ∃ blanks : List String, (∀ blank ∈ blanks, moves blank = false) ∧
      pieces ("/".intercalate parts) = blanks ++ parts := by
  by_cases hparts : parts = []
  · subst hparts
    exact ⟨[""], by simp, rfl⟩
  · refine ⟨[], by simp, ?_⟩
    have hslash : ∀ l ∈ parts.map String.toList, '/' ∉ l := by
      intro l hl
      obtain ⟨part, hpart, rfl⟩ := List.mem_map.mp hl
      exact (h part hpart).no_slash
    rw [pieces, String.toList_intercalate]
    change (List.splitOn '/' (['/'].intercalate _)).map _ = _
    rw [List.splitOn_intercalate '/' hslash (by simpa using hparts), List.map_map]
    simp

theorem pieces_slash (s : String) : pieces ("/" ++ s) = "" :: pieces s := by
  rw [pieces, String.toList_append]
  exact congrArg (List.map String.ofList) (splitOn_slash s.toList)

/-- Between the slashes of a path are its components, after what does not change it. -/
theorem Normal.exists_pieces (h : p.Normal) : ∃ blanks : List String,
    (∀ blank ∈ blanks, moves blank = false) ∧ pieces p.text = blanks ++ p.parts := by
  obtain ⟨blanks, hblanks, hpieces⟩ := exists_pieces_intercalate h.parts
  rw [text]
  split
  next hempty =>
    rw [Bool.and_eq_true, List.isEmpty_iff] at hempty
    rw [hempty.2]
    exact ⟨["."], by simp, by decide⟩
  next =>
    rcases h.root with hroot | hroot | hroot
    · rw [hroot, String.empty_append]
      exact ⟨blanks, hblanks, hpieces⟩
    · rw [hroot, pieces_slash, hpieces]
      exact ⟨"" :: blanks, by simpa using hblanks, rfl⟩
    · rw [hroot, show "//" = "/" ++ "/" by decide, String.append_assoc, pieces_slash, pieces_slash, hpieces]
      exact ⟨"" :: "" :: blanks, by simpa using hblanks, rfl⟩

/-- The text of a path is not empty, and starts with a slash exactly if the path has a root. -/
theorem Normal.exists_text_eq_cons (h : p.Normal) :
    ∃ c cs, p.text.toList = c :: cs ∧ (c = '/' ↔ p.root ≠ "") := by
  rw [text]
  split
  next hempty =>
    rw [Bool.and_eq_true, decide_eq_true_eq] at hempty
    exact ⟨'.', [], rfl, by simp [hempty.1]⟩
  next hne =>
    rcases h.root with hroot | hroot | hroot
    · rw [hroot] at hne ⊢
      cases hparts : p.parts with
      | nil => simp [hparts] at hne
      | cons part rest =>
        have hpart := h.parts part (hparts ▸ List.mem_cons_self)
        obtain ⟨c, cs, hcs⟩ :=
          List.exists_cons_of_ne_nil (String.toList_eq_nil_iff.not.mpr (ne_empty_of_moves hpart.moves))
        have hc : c ≠ '/' := fun heq => hpart.no_slash (hcs ▸ heq ▸ List.mem_cons_self)
        rw [String.empty_append, String.toList_intercalate, List.map_cons, hcs]
        cases rest with
        | nil => exact ⟨c, _, rfl, by simp [hc]⟩
        | cons next rest => exact ⟨c, _, rfl, by simp [hc]⟩
    · rw [hroot, String.toList_append]
      exact ⟨'/', _, rfl, by simp⟩
    · rw [hroot, String.toList_append]
      exact ⟨'/', _, rfl, by simp⟩

theorem Normal.text_ne_empty (h : p.Normal) : p.text ≠ "" := by
  obtain ⟨c, cs, htext, -⟩ := h.exists_text_eq_cons
  intro hempty
  rw [hempty] at htext
  cases htext

theorem Normal.head?_text (h : p.Normal) : p.text.toList.head? = some '/' ↔ p.root ≠ "" := by
  obtain ⟨c, cs, htext, hroot⟩ := h.exists_text_eq_cons
  rw [htext, List.head?_cons, Option.some.injEq, hroot]

theorem intercalate_sublist {as bs : List (List Char)} (h : as.Sublist bs) :
    (['/'].intercalate as).Sublist (['/'].intercalate bs) := by
  induction h with
  | slnil => exact .slnil
  | @cons as bs b _ ih =>
    refine ih.trans ?_
    cases bs with
    | nil => exact List.nil_sublist _
    | cons b' bs =>
      rw [List.intercalate_cons_cons]
      exact List.sublist_append_right _ _
  | @cons_cons as bs b h ih =>
    cases as with
    | nil =>
      cases bs with
      | nil => exact .refl _
      | cons b' bs =>
        rw [List.intercalate_singleton, List.intercalate_cons_cons, List.append_assoc]
        exact List.sublist_append_left _ _
    | cons a as =>
      cases bs with
      | nil => cases h
      | cons b' bs =>
        rw [List.intercalate_cons_cons, List.intercalate_cons_cons]
        exact (List.Sublist.refl _).append ih

theorem intercalate_components_sublist (cs : List Char) :
    ("/".intercalate (components cs)).toList.Sublist cs := by
  have hsublist : ((components cs).map String.toList).Sublist (cs.splitOn '/') := by
    have h := (List.filter_sublist (p := moves) (l := (cs.splitOn '/').map String.ofList)).map String.toList
    rw [List.map_map, List.map_id''] at h
    · exact h
    · exact fun _ => String.toList_ofList
  have h := intercalate_sublist hsublist
  rw [List.intercalate_splitOn] at h
  rw [String.toList_intercalate]
  exact h

theorem components_slash (cs : List Char) : components ('/' :: cs) = components cs := by
  rw [components, splitOn_slash]
  rfl

/-- A text without a slash in front that has no component starts with a dot. -/
theorem head_eq_dot {c : Char} {cs : List Char} (hslash : c ≠ '/') (h : components (c :: cs) = []) : c = '.' := by
  obtain ⟨first, rest, hsplit⟩ := List.exists_cons_of_ne_nil (List.splitOn_ne_nil '/' cs)
  rw [components, List.splitOn_cons_eq_if_modifyHead, if_neg (by simpa using hslash), hsplit,
    List.filter_eq_nil_iff] at h
  have hfirst : ¬moves (String.ofList (c :: first)) = true := h _ List.mem_cons_self
  by_contra hdot
  refine hfirst ?_
  have hne (word : List Char) (hword : c :: first ≠ word) : String.ofList (c :: first) ≠ String.ofList word :=
    fun heq => hword (String.ofList_injective heq)
  rw [moves, Bool.and_eq_true, decide_eq_true_eq, decide_eq_true_eq]
  exact ⟨hne [] (by simp), hne ['.'] (by simp [hdot])⟩

/-- The text of a path that was read leaves characters out, and puts none in. -/
theorem text_ofString_sublist {s : String} (h : s ≠ "") : (ofString s).text.toList.Sublist s.toList := by
  have hparts : (ofString s).parts = components s.toList := rfl
  have hroot : (ofString s).root = rootOf s.toList := rfl
  obtain ⟨c, cs, hs⟩ := List.exists_cons_of_ne_nil (String.toList_eq_nil_iff.not.mpr h)
  rw [text, hparts, hroot, hs]
  split
  next hempty =>
    rw [Bool.and_eq_true, decide_eq_true_eq, List.isEmpty_iff, rootOf_eq_empty_iff, List.head?_cons] at hempty
    rw [head_eq_dot (fun heq => hempty.1 (congrArg some heq)) hempty.2]
    exact List.singleton_sublist.mpr List.mem_cons_self
  next =>
    rw [String.toList_append]
    unfold rootOf
    split
    next rest heq =>
      rw [heq, components_slash]
      exact (intercalate_components_sublist _).cons_cons '/'
    next rest _ heq =>
      rw [heq, components_slash, components_slash]
      exact ((intercalate_components_sublist rest).cons_cons '/').cons_cons '/'
    next rest _ _ heq =>
      rw [heq, components_slash]
      exact (intercalate_components_sublist rest).cons_cons '/'
    next => exact intercalate_components_sublist (c :: cs)

theorem utf8ByteSize_le_of_sublist {s t : String} (h : s.toList.Sublist t.toList) :
    s.utf8ByteSize ≤ t.utf8ByteSize := by
  rw [← String.ofList_toList (s := s), ← String.ofList_toList (s := t), String.utf8ByteSize_ofList,
    String.utf8ByteSize_ofList]
  exact String.utf8Len_le_of_sublist h

/-- Joining a name makes the text of a path no shorter. -/
theorem utf8ByteSize_text_le_join (p : Path) (hname : name ≠ "") :
    p.text.utf8ByteSize ≤ (p.join name).text.utf8ByteSize := by
  have hjoin : (p.join name).text = p.root ++ "/".intercalate (p.parts ++ [name]) := by
    rw [text, if_neg]
    · rfl
    · simp [join]
  rw [text, hjoin]
  split
  next hempty =>
    rw [Bool.and_eq_true, decide_eq_true_eq, List.isEmpty_iff] at hempty
    rw [hempty.1, hempty.2, String.empty_append]
    change 1 ≤ name.utf8ByteSize
    exact Nat.one_le_iff_ne_zero.mpr (String.utf8ByteSize_eq_zero_iff.not.mpr hname)
  next =>
    refine utf8ByteSize_le_of_sublist ?_
    rw [String.toList_append, String.toList_append, String.toList_intercalate, String.toList_intercalate,
      List.map_append]
    exact (List.Sublist.refl _).append (intercalate_sublist (List.sublist_append_left _ _))

end Path

namespace Tree

variable {above : List Tree} {node found : Tree} {names : List String} {name : String}
  {entries here : List (String × Tree)} {bytes : ByteArray}

/-- The entry of a name, if a name can be so long. -/
def lookUp (name : String) (entries : List (String × Tree)) : Except PathFault Tree :=
  if maxName < name.utf8ByteSize then .error .nameTooLong
  else
    match child? name entries with
    | none => .error .missing
    | some node => .ok node

/-- Where a component that moves leads from a directory, with the ancestors of that place. -/
def enter (above : List Tree) (entries : List (String × Tree)) (name : String) :
    Except PathFault (List Tree × Tree) :=
  if name = ".." then
    match above with
    | [] => .ok ([], .directory entries)
    | parent :: above => .ok (above, parent)
  else (lookUp name entries).map fun node => (.directory entries :: above, node)

theorem follow_of_not_moves (h : Path.moves name = false) :
    follow above (.directory entries) (name :: names) = follow above (.directory entries) names := by
  have hblank : name = "" ∨ name = "." := by
    rw [Path.moves, Bool.and_eq_false_iff, decide_eq_false_iff_not, decide_eq_false_iff_not, not_not, not_not] at h
    exact h
  conv_lhs => unfold follow
  rw [if_pos hblank]

theorem follow_of_moves (h : Path.moves name = true) :
    follow above (.directory entries) (name :: names) =
      (enter above entries name).bind fun place => follow place.1 place.2 names := by
  have hname : ¬(name = "" ∨ name = ".") := by
    rw [Path.moves, Bool.and_eq_true, decide_eq_true_eq, decide_eq_true_eq] at h
    exact not_or.mpr h
  unfold enter
  conv_lhs => unfold follow
  rw [if_neg hname]
  by_cases hup : name = ".."
  · rw [if_pos hup, if_pos hup]
    cases above <;> rfl
  · rw [if_neg hup, if_neg hup, lookUp]
    by_cases hlong : maxName < name.utf8ByteSize
    · rw [if_pos hlong, if_pos hlong]
      rfl
    · rw [if_neg hlong, if_neg hlong]
      cases child? name entries <;> rfl

theorem follow_blanks {blanks : List String} (h : ∀ blank ∈ blanks, Path.moves blank = false) :
    follow above (.directory entries) (blanks ++ names) = follow above (.directory entries) names := by
  induction blanks with
  | nil => rfl
  | cons blank blanks ih =>
    rw [List.cons_append, follow_of_not_moves (h blank List.mem_cons_self)]
    exact ih fun b hb => h b (List.mem_cons_of_mem blank hb)

/-- What is found is found without the components that do not move. -/
theorem follow_filter (h : follow above node names = .ok found) :
    follow above node (names.filter Path.moves) = .ok found := by
  induction names generalizing above node with
  | nil => exact h
  | cons name names ih =>
    cases node with
    -- No component can be followed from a file, not even one that does not move. So more is found without them.
    | file bytes => cases h
    | directory entries =>
      cases hname : Path.moves name with
      | false =>
        rw [follow_of_not_moves hname] at h
        rw [List.filter_cons_of_neg (by simp [hname])]
        exact ih h
      | true =>
        rw [follow_of_moves hname] at h
        obtain ⟨place, hplace, h⟩ := bind_eq_ok_iff.mp h
        rw [List.filter_cons_of_pos hname, follow_of_moves hname, hplace]
        exact ih h

def IsDirectory (t : Tree) : Prop :=
  ∃ entries, t = .directory entries

theorem lookUp_eq_ok (h : lookUp name entries = .ok node) : child? name entries = some node := by
  rw [lookUp] at h
  split at h
  next => cases h
  next =>
    cases hchild : child? name entries with
    | none =>
      rw [hchild] at h
      cases h
    | some child =>
      rw [hchild] at h
      cases h
      rfl

/-- A component leads up to a directory, or to the entry of its name. -/
theorem enter_eq_ok {place : List Tree × Tree} (habove : ∀ t ∈ above, t.IsDirectory)
    (h : enter above entries name = .ok place) :
    (∀ t ∈ place.1, t.IsDirectory) ∧ (place.2.IsDirectory ∨ child? name entries = some place.2) := by
  rw [enter.eq_def] at h
  split at h
  next =>
    cases above with
    | nil =>
      cases h
      exact ⟨habove, .inl ⟨entries, rfl⟩⟩
    | cons parent above =>
      cases h
      exact ⟨fun t ht => habove t (List.mem_cons_of_mem parent ht), .inl (habove parent List.mem_cons_self)⟩
  next =>
    obtain ⟨child, hchild, rfl⟩ := map_eq_ok_iff.mp h
    refine ⟨fun t ht => ?_, .inr (lookUp_eq_ok hchild)⟩
    rcases List.mem_cons.mp ht with rfl | ht
    · exact ⟨entries, rfl⟩
    · exact habove t ht

/-- A file is the entry of the last component in the directory to which the components before it lead. -/
theorem of_follow_append_singleton (hname : Path.moves name = true) (habove : ∀ t ∈ above, t.IsDirectory)
    (h : follow above node (names ++ [name]) = .ok (.file bytes)) :
    ∃ entries, follow above node names = .ok (.directory entries) ∧
      child? name entries = some (.file bytes) := by
  induction names generalizing above node with
  | nil =>
    cases node with
    | file bytes => cases h
    | directory entries =>
      rw [List.nil_append, follow_of_moves hname] at h
      obtain ⟨place, hplace, h⟩ := bind_eq_ok_iff.mp h
      have hfile : place.2 = .file bytes := Except.ok.inj h
      refine ⟨entries, rfl, ?_⟩
      rcases (enter_eq_ok habove hplace).2 with ⟨inner, hdirectory⟩ | hchild
      · cases hfile.symm.trans hdirectory
      · rw [hchild, hfile]
  | cons first names ih =>
    cases node with
    | file bytes => cases h
    | directory entries =>
      cases hfirst : Path.moves first with
      | false =>
        rw [List.cons_append, follow_of_not_moves hfirst] at h
        rw [follow_of_not_moves hfirst]
        exact ih habove h
      | true =>
        rw [List.cons_append, follow_of_moves hfirst] at h
        obtain ⟨place, hplace, h⟩ := bind_eq_ok_iff.mp h
        rw [follow_of_moves hfirst, hplace]
        exact ih (enter_eq_ok habove hplace).1 h

/-- Where components lead to a directory, others can be followed on from there. -/
theorem exists_place_of_follow (habove : ∀ t ∈ above, t.IsDirectory)
    (h : follow above node names = .ok (.directory here)) :
    ∃ above', (∀ t ∈ above', t.IsDirectory) ∧
      ∀ others, follow above node (names ++ others) = follow above' (.directory here) others := by
  induction names generalizing above node with
  | nil =>
    obtain rfl : node = .directory here := Except.ok.inj h
    exact ⟨above, habove, fun others => rfl⟩
  | cons name names ih =>
    cases node with
    | file bytes => cases h
    | directory entries =>
      cases hname : Path.moves name with
      | false =>
        rw [follow_of_not_moves hname] at h
        simp only [List.cons_append, follow_of_not_moves hname]
        exact ih habove h
      | true =>
        rw [follow_of_moves hname] at h
        obtain ⟨place, hplace, h⟩ := bind_eq_ok_iff.mp h
        simp only [List.cons_append, follow_of_moves hname, hplace]
        exact ih (enter_eq_ok habove hplace).1 h

end Tree

namespace FileSystem

variable {fs : FileSystem} {found : Tree} {name : String} {p : Path} {bytes : ByteArray}

/-- There is a directory at the current directory. -/
theorem exists_current (fs : FileSystem) :
    ∃ here, Tree.follow [] (.directory fs.root) fs.current = .ok (.directory here) := by
  have h := fs.leads
  rw [Tree.leadsToDirectory] at h
  cases hplace : Tree.follow [] (.directory fs.root) fs.current with
  | error fault =>
    rw [hplace] at h
    cases h
  | ok node =>
    cases node with
    | file bytes =>
      rw [hplace] at h
      cases h
    | directory here => exact ⟨here, rfl⟩

variable (fs) in
/-- The texts that begin with a slash are followed from one directory, and so are those that do not. -/
theorem exists_start (root : String) : ∃ above here, (∀ t ∈ above, t.IsDirectory) ∧
    ∀ s : String, s ≠ "" → (s.toList.head? = some '/' ↔ root ≠ "") → fs.resolve s =
      if Tree.maxPath < s.utf8ByteSize then .error .nameTooLong
      else Tree.follow above (.directory here) (Path.pieces s) := by
  by_cases hempty : root = ""
  · obtain ⟨here, hhere⟩ := fs.exists_current
    obtain ⟨above, habove, hfollow⟩ := Tree.exists_place_of_follow (fun t ht => by cases ht) hhere
    refine ⟨above, here, habove, fun s hne hs => ?_⟩
    rw [resolve, if_neg hne, if_neg fun hslash => hs.mp hslash hempty, hfollow]
    rfl
  · refine ⟨[], fs.root, fun t ht => (by cases ht), fun s hne hs => ?_⟩
    rw [resolve, if_neg hne, if_pos (hs.mpr hempty)]
    rfl

variable (fs) in
/-- What the text of a path leads to is what its components lead to, if the text is not too long. -/
theorem exists_resolve_text (root : String) : ∃ above here, (∀ t ∈ above, t.IsDirectory) ∧
    ∀ p : Path, p.Normal → p.root = root → fs.resolve p.text =
      if Tree.maxPath < p.text.utf8ByteSize then .error .nameTooLong
      else Tree.follow above (.directory here) p.parts := by
  obtain ⟨above, here, habove, hresolve⟩ := fs.exists_start root
  refine ⟨above, here, habove, fun p hp hroot => ?_⟩
  obtain ⟨blanks, hblanks, hpieces⟩ := hp.exists_pieces
  rw [hresolve _ hp.text_ne_empty (hroot ▸ hp.head?_text), hpieces, Tree.follow_blanks hblanks]

/-- What a text leads to, the path that is read from it leads to as well. -/
theorem resolve_ofString {s : String} (h : fs.resolve s = .ok found) :
    fs.resolve (Path.ofString s).text = .ok found := by
  have hne : s ≠ "" := by
    rintro rfl
    cases h
  have hnormal := Path.normal_ofString s
  have hslash : s.toList.head? = some '/' ↔ Path.rootOf s.toList ≠ "" := by
    rw [Ne, Path.rootOf_eq_empty_iff, not_not]
  obtain ⟨above, here, -, hresolve⟩ := fs.exists_start (Path.rootOf s.toList)
  rw [hresolve s hne hslash] at h
  split at h
  next => cases h
  next hlong =>
    have hsize := Path.utf8ByteSize_le_of_sublist (Path.text_ofString_sublist hne)
    obtain ⟨blanks, hblanks, hpieces⟩ := hnormal.exists_pieces
    rw [hresolve _ hnormal.text_ne_empty hnormal.head?_text, if_neg (by omega), hpieces,
      Tree.follow_blanks hblanks]
    exact Tree.follow_filter h

/-- A file at the text of a joined path is an entry of the directory at the text of the path. -/
theorem resolve_of_join (h : p.Normal) (hname : Path.IsComponent name)
    (hfile : fs.resolve (p.join name).text = .ok (.file bytes)) :
    ∃ entries, fs.resolve p.text = .ok (.directory entries) ∧
      Tree.child? name entries = some (.file bytes) := by
  obtain ⟨above, here, habove, hresolve⟩ := fs.exists_resolve_text p.root
  rw [hresolve _ (h.join hname) rfl] at hfile
  split at hfile
  next => cases hfile
  next hlong =>
    have hsize := p.utf8ByteSize_text_le_join (Path.ne_empty_of_moves hname.moves)
    rw [hresolve p h rfl, if_neg (by omega)]
    exact Tree.of_follow_append_singleton hname.moves habove hfile

/-- A file is an entry of the directory at its parent path. -/
theorem resolve_parent (h : p.Normal) (hfile : fs.resolve p.text = .ok (.file bytes)) :
    ∃ name entries, fs.resolve p.parent.text = .ok (.directory entries) ∧
      Tree.child? name entries = some (.file bytes) := by
  by_cases hparts : p.parts = []
  · obtain ⟨above, here, -, hresolve⟩ := fs.exists_resolve_text p.root
    rw [hresolve p h rfl, hparts] at hfile
    split at hfile <;> cases hfile
  · have hjoin : p.parent.join (p.parts.getLast hparts) = p := by
      rw [Path.join, Path.parent, List.dropLast_append_getLast]
    rw [← hjoin] at hfile
    obtain ⟨entries, hplace, hchild⟩ :=
      resolve_of_join h.parent (h.parts _ (List.getLast_mem hparts)) hfile
    exact ⟨_, entries, hplace, hchild⟩

/-- What a disk tells of a place in a tree. -/
def entryOf : Tree → Entry
  | .file bytes => .file bytes
  | .directory _ => .directory

theorem entry_toDisk (fs : FileSystem) (path : String) :
    fs.toDisk.entry path = entryOf <$> fs.resolve path := by
  cases h : fs.resolve path with
  | error fault =>
    simp only [toDisk, h]
    rfl
  | ok node =>
    cases node <;>
    · simp only [toDisk, h]
      rfl

end FileSystem

namespace Disk

theorem find?_eq_some_iff {disk : Disk} {path : String} {entry : Entry} :
    disk.find? path = .ok (some entry) ↔ hasNul path = false ∧ disk.entry path = .ok entry := by
  rw [find?]
  cases hasNul path with
  | true => simp
  | false =>
    cases disk.entry path with
    | ok entry => simp
    | error fault => cases fault <;> simp

end Disk

namespace FileSystem

variable {fs : FileSystem} {path : String}

theorem find?_toDisk_iff {entry : Entry} : fs.toDisk.find? path = .ok (some entry) ↔
    Disk.hasNul path = false ∧ ∃ node, fs.resolve path = .ok node ∧ entryOf node = entry := by
  rw [Disk.find?_eq_some_iff, entry_toDisk, map_eq_ok_iff]

theorem resolve_of_find?_file {bytes : ByteArray} (h : fs.toDisk.find? path = .ok (some (.file bytes))) :
    fs.resolve path = .ok (.file bytes) := by
  obtain ⟨-, node, hnode, hentry⟩ := find?_toDisk_iff.mp h
  cases node with
  | file bytes =>
    cases hentry
    exact hnode
  | directory entries => cases hentry

/-- What is at a text, is at the path that is read from it. -/
theorem find?_ofString {s : String} {entry : Entry} (h : fs.toDisk.find? s = .ok (some entry)) :
    fs.toDisk.find? (Path.ofString s).text = .ok (some entry) := by
  obtain ⟨hnul, node, hnode, hentry⟩ := find?_toDisk_iff.mp h
  have hne : s ≠ "" := by
    rintro rfl
    cases hnode
  refine find?_toDisk_iff.mpr ⟨?_, node, resolve_ofString hnode, hentry⟩
  rw [Disk.hasNul, Bool.eq_false_iff, Ne, List.contains_iff_mem] at hnul ⊢
  exact fun hmem => hnul ((Path.text_ofString_sublist hne).subset hmem)

end FileSystem

end Unary
