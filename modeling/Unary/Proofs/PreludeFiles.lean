import Unary.Prelude
import Unary.Proofs.Paths

/-!
The file that a prelude is read from if a path is set.

It is looked for in the directory at the path, or in the one that holds what is at the path. The second is also
taken if nothing is at the path.
-/

namespace Unary

namespace Disk

variable {disk : Disk} {path : String} {error : FileError}

theorem readText_of_find? {bytes : ByteArray} (h : disk.find? path = .ok (some (.file bytes))) :
    disk.readText path = decode bytes := by
  obtain ⟨hnul, hentry⟩ := find?_eq_some_iff.mp h
  rw [readText, hnul, hentry]
  rfl

theorem find?_of_isDirectory (h : disk.isDirectory path = .ok true) :
    disk.find? path = .ok (some .directory) := by
  rw [isDirectory] at h
  rcases hfound : disk.find? path with error | (_ | (_ | bytes)) <;> simp_all

theorem exists_of_isFile (h : disk.isFile path = .ok true) :
    ∃ bytes, disk.find? path = .ok (some (.file bytes)) := by
  rw [isFile] at h
  rcases hfound : disk.find? path with error | (_ | (_ | bytes)) <;> simp_all

theorem isFile_eq_false_iff : disk.isFile path = .ok false ↔
    ∃ found, disk.find? path = .ok found ∧ ∀ bytes, found ≠ some (.file bytes) := by
  rw [isFile]
  rcases disk.find? path with error | (_ | (_ | bytes)) <;> simp

/-- Nothing is where there is neither a directory nor a file. -/
theorem find?_eq_none (hdirectory : disk.isDirectory path = .ok false) (hfile : disk.isFile path = .ok false) :
    disk.find? path = .ok none := by
  rw [isDirectory] at hdirectory
  rw [isFile] at hfile
  rcases hfound : disk.find? path with error | (_ | (_ | bytes)) <;> simp_all

theorem ne_noPrelude_of_find? (h : disk.find? path = .error error) : error ≠ .noPrelude := by
  rw [find?] at h
  split at h
  next => cases h
  next =>
    cases hentry : disk.entry path with
    | ok entry =>
      rw [hentry] at h
      cases h
    | error fault =>
      rw [hentry] at h
      cases fault <;> cases h <;> simp

theorem decode_ne_noPrelude (bytes : ByteArray) : decode bytes ≠ .error .noPrelude := by
  rw [decode]
  split <;> simp

end Disk

namespace Prelude

/-- Where a prelude is looked for, from what is found at the path that is set. -/
def home (path : Path) : Option Entry → Path
  | some .directory => path
  | _ => path.parent

/-- The text of what is found where the prelude should be. -/
def ofFound : Option Entry → Except FileError String
  | some (.file bytes) => Disk.decode bytes
  | _ => .error .noPrelude

variable {env : Environment} {disk : Disk} {path : Path} {text : String}

theorem preludeRoot_eq (hset : Environment.setting env.preludePath ≠ [])
    (hpath : Path.ofString (String.ofList (Environment.setting env.preludePath)) = path) :
    env.preludeRoot disk = (fun found => .directory (home path found)) <$> disk.find? path.text := by
  rw [Environment.preludeRoot]
  split
  next hempty => exact absurd hempty hset
  next =>
    rw [hpath]
    simp only [Disk.isDirectory]
    rcases disk.find? path.text with error | (_ | (_ | bytes)) <;> rfl

theorem readOrigin_find? (directory : Path) :
    (PreludeRoot.find? disk (.directory directory) >>= readOrigin disk) =
      disk.find? (directory.join fileName).text >>= ofFound := by
  rw [PreludeRoot.find?, Disk.isFile]
  cases hcandidate : disk.find? (directory.join fileName).text with
  | error error => rfl
  | ok candidate =>
    rcases candidate with _ | (_ | bytes)
    · rfl
    · rfl
    · exact Disk.readText_of_find? hcandidate

/-- The text of a prelude that is set. What is at the path decides where the file is looked for. -/
theorem readText_eq (hset : Environment.setting env.preludePath ≠ [])
    (hpath : Path.ofString (String.ofList (Environment.setting env.preludePath)) = path) :
    readText env disk =
      disk.find? path.text >>= fun found =>
        disk.find? ((home path found).join fileName).text >>= ofFound := by
  rw [readText, preludeRoot_eq hset hpath]
  cases disk.find? path.text with
  | error error => rfl
  | ok found => exact readOrigin_find? (home path found)

theorem ofFound_eq_ok_iff {found : Option Entry} :
    ofFound found = .ok text ↔ ∃ bytes, found = some (.file bytes) ∧ Disk.decode bytes = .ok text := by
  rcases found with _ | (_ | bytes) <;> simp [ofFound]

theorem ofFound_eq_noPrelude_iff {found : Option Entry} :
    ofFound found = .error .noPrelude ↔ ∀ bytes, found ≠ some (.file bytes) := by
  rcases found with _ | (_ | bytes) <;> simp [ofFound, Disk.decode_ne_noPrelude]

theorem readText_eq_ok_iff (hset : Environment.setting env.preludePath ≠ [])
    (hpath : Path.ofString (String.ofList (Environment.setting env.preludePath)) = path) :
    readText env disk = .ok text ↔ ∃ found bytes, disk.find? path.text = .ok found ∧
      disk.find? ((home path found).join fileName).text = .ok (some (.file bytes)) ∧
      Disk.decode bytes = .ok text := by
  rw [readText_eq hset hpath, bind_eq_ok_iff]
  constructor
  · rintro ⟨found, hfound, h⟩
    obtain ⟨candidate, hcandidate, h⟩ := bind_eq_ok_iff.mp h
    obtain ⟨bytes, rfl, htext⟩ := ofFound_eq_ok_iff.mp h
    exact ⟨found, bytes, hfound, hcandidate, htext⟩
  · rintro ⟨found, bytes, hfound, hcandidate, htext⟩
    exact ⟨found, hfound, bind_eq_ok_iff.mpr ⟨_, hcandidate, htext⟩⟩

/-- A prelude is missing only where no file is found. Other faults on the way to it are reported as they are. -/
theorem readText_eq_noPrelude_iff (hset : Environment.setting env.preludePath ≠ [])
    (hpath : Path.ofString (String.ofList (Environment.setting env.preludePath)) = path) :
    readText env disk = .error .noPrelude ↔ ∃ found, disk.find? path.text = .ok found ∧
      disk.isFile ((home path found).join fileName).text = .ok false := by
  rw [readText_eq hset hpath, bind_eq_error_iff]
  constructor
  · rintro (h | ⟨found, hfound, h⟩)
    · exact absurd rfl (Disk.ne_noPrelude_of_find? h)
    · rcases bind_eq_error_iff.mp h with h | ⟨candidate, hcandidate, h⟩
      · exact absurd rfl (Disk.ne_noPrelude_of_find? h)
      · exact ⟨found, hfound, Disk.isFile_eq_false_iff.mpr ⟨_, hcandidate, ofFound_eq_noPrelude_iff.mp h⟩⟩
  · rintro ⟨found, hfound, h⟩
    obtain ⟨candidate, hcandidate, h⟩ := Disk.isFile_eq_false_iff.mp h
    exact .inr ⟨found, hfound,
      bind_eq_error_iff.mpr (.inr ⟨candidate, hcandidate, ofFound_eq_noPrelude_iff.mpr h⟩)⟩

theorem isComponent_fileName : Path.IsComponent fileName :=
  ⟨by decide, by decide⟩

/-- Where the prelude that was read lies: in the directory at the path, in the one that holds the file at the
path, or in the one at the parent path if nothing is at the path. -/
theorem exists_place {fs : FileSystem} (hpath : path.Normal) {found : Option Entry} {bytes : ByteArray}
    (hfound : fs.toDisk.find? path.text = .ok found)
    (hfile : fs.toDisk.find? ((home path found).join fileName).text = .ok (some (.file bytes))) :
    ∃ entries, Tree.child? fileName entries = some (.file bytes) ∧
      (fs.resolve path.text = .ok (.directory entries) ∨
        fs.resolve path.parent.text = .ok (.directory entries) ∧
          ((∃ name file, fs.resolve path.text = .ok (.file file) ∧
              Tree.child? name entries = some (.file file)) ∨
            found = none)) := by
  have hresolve := FileSystem.resolve_of_find?_file hfile
  rcases found with _ | (_ | file)
  · obtain ⟨entries, hplace, hchild⟩ := FileSystem.resolve_of_join hpath.parent isComponent_fileName hresolve
    exact ⟨entries, hchild, .inr ⟨hplace, .inr rfl⟩⟩
  · obtain ⟨entries, hplace, hchild⟩ := FileSystem.resolve_of_join hpath isComponent_fileName hresolve
    exact ⟨entries, hchild, .inl hplace⟩
  · obtain ⟨entries, hplace, hchild⟩ := FileSystem.resolve_of_join hpath.parent isComponent_fileName hresolve
    -- The parent path leads to one directory, which holds the file at the path and the prelude.
    have hset := FileSystem.resolve_of_find?_file hfound
    obtain ⟨name, entries', hplace', hchild'⟩ := FileSystem.resolve_parent hpath hset
    have hsame : entries' = entries := by
      cases hplace'.symm.trans hplace
      rfl
    exact ⟨entries, hchild, .inr ⟨hplace, .inl ⟨name, file, hset, hsame ▸ hchild'⟩⟩⟩

/-- Where a prelude is read from if a path is set that is not blank. On every disk, its text is that of the file
of its name at the path if a directory is there, and else at the parent path. It is missing exactly if no file
is found there. In a tree of directories with a current one, what is at the text that was set is at the path
that is read from it, and a text that was read lies in the directory at the path, in the directory that holds the
file at the path, or, if nothing is at the path, in the directory at its parent path. -/
theorem readText_exact (env : Environment) (hset : Environment.setting env.preludePath ≠ []) :
    let given := String.ofList (Environment.setting env.preludePath)
    let path := Path.ofString given
    (∀ disk : Disk,
      (∀ text, readText env disk = .ok text ↔ ∃ found bytes, disk.find? path.text = .ok found ∧
        disk.find? ((home path found).join fileName).text = .ok (some (.file bytes)) ∧
        Disk.decode bytes = .ok text) ∧
      (readText env disk = .error .noPrelude ↔ ∃ found, disk.find? path.text = .ok found ∧
        disk.isFile ((home path found).join fileName).text = .ok false)) ∧
    ∀ fs : FileSystem,
      (∀ entry, fs.toDisk.find? given = .ok (some entry) →
        fs.toDisk.find? path.text = .ok (some entry)) ∧
      ∀ text, readText env fs.toDisk = .ok text →
        ∃ entries bytes, Tree.child? fileName entries = some (.file bytes) ∧ Disk.decode bytes = .ok text ∧
          (fs.resolve path.text = .ok (.directory entries) ∨
            fs.resolve path.parent.text = .ok (.directory entries) ∧
              ((∃ name file, fs.resolve path.text = .ok (.file file) ∧
                  Tree.child? name entries = some (.file file)) ∨
                fs.toDisk.find? path.text = .ok none)) := by
  intro given path
  refine ⟨fun disk => ⟨fun text => readText_eq_ok_iff hset rfl, readText_eq_noPrelude_iff hset rfl⟩,
    fun fs => ⟨fun entry => FileSystem.find?_ofString, fun text htext => ?_⟩⟩
  obtain ⟨found, bytes, hfound, hfile, hdecode⟩ := (readText_eq_ok_iff hset rfl).mp htext
  obtain ⟨entries, hchild, hplace⟩ := exists_place (Path.normal_ofString given) hfound hfile
  refine ⟨entries, bytes, hchild, hdecode, ?_⟩
  rcases hplace with hplace | ⟨hplace, hrest | rfl⟩
  · exact .inl hplace
  · exact .inr ⟨hplace, .inl hrest⟩
  · exact .inr ⟨hplace, .inr hfound⟩

/-- A file with blanks and needless components around its path, next to a prelude, a directory without one, and
the same file by a path from the root and by one through the directory above. The prelude of the current
directory is not read. -/
theorem readText_exact_beside_file :
    let env (path : String) : Environment := { Environment.empty with preludePath := some path }
    let lib := Tree.directory [("other", .file "x".toUTF8), ("std.peano", .file "y".toUTF8)]
    let work := Tree.directory [("lib", lib), ("bare", .directory []), ("std.peano", .file "z".toUTF8)]
    let fs : FileSystem := ⟨[("home", work)], ["home"], rfl⟩
    readText (env " ./lib//other\t") fs.toDisk = .ok "y" ∧
      (∃ entries bytes, fs.resolve "lib" = .ok (.directory entries) ∧
        Tree.child? fileName entries = some (.file bytes) ∧ Disk.decode bytes = .ok "y") ∧
      readText (env "bare/") fs.toDisk = .error .noPrelude ∧
      readText (env "/home/lib/other") fs.toDisk = .ok "y" ∧
      readText (env "../../home/bare/../lib") fs.toDisk = .ok "y" ∧
      FileError.noPrelude.label = "FileNotFoundError" := by
  intro env lib work fs
  let path := Path.ofString (String.ofList (Environment.setting (env " ./lib//other\t").preludePath))
  have hpath : path.text = "lib/other" := by decide +kernel
  have hparent : path.parent.text = "lib" := by decide +kernel
  have htext : readText (env " ./lib//other\t") fs.toDisk = .ok "y" := by decide +kernel
  obtain ⟨-, hplaces⟩ := readText_exact (env " ./lib//other\t") (by decide +kernel)
  obtain ⟨hbare, -⟩ := readText_exact (env "bare/") (by decide +kernel)
  refine ⟨htext, ?_, ?_, by decide +kernel, by decide +kernel, rfl⟩
  · obtain ⟨entries, bytes, hchild, hdecode, hplace⟩ := (hplaces fs).2 "y" htext
    rw [hpath, hparent] at hplace
    obtain ⟨_, hother⟩ : ∃ other, fs.toDisk.find? "lib/other" = .ok (some (.file other)) :=
      Disk.exists_of_isFile (by decide +kernel)
    rw [FileSystem.resolve_of_find?_file hother] at hplace
    obtain hplace | ⟨hplace, -⟩ := hplace
    · cases hplace
    · exact ⟨entries, bytes, hplace, hchild, hdecode⟩
  · exact (hbare fs.toDisk).2.mpr
      ⟨some .directory, Disk.find?_of_isDirectory (by decide +kernel), by decide +kernel⟩

/-- If nothing is at the path that is set, the prelude next to it is read all the same. -/
theorem readText_beside_nothing :
    let env : Environment := { Environment.empty with preludePath := some "missing" }
    let fs : FileSystem := ⟨[("std.peano", .file "def one(x) = s(x)".toUTF8)], [], rfl⟩
    fs.toDisk.find? "missing" = .ok none ∧ readText env fs.toDisk = .ok "def one(x) = s(x)" := by
  intro env fs
  exact ⟨Disk.find?_eq_none (by decide +kernel) (by decide +kernel), by decide +kernel⟩

end Prelude

end Unary
