import Unary.Disk
import Unary.Disk.Path

/-!
Trees of directories and files, and what paths lead to from a current directory.
-/

namespace Unary

inductive Tree
  | file (bytes : ByteArray)
  | directory (entries : List (String × Tree))

namespace Tree

/-- The entry of a name in a directory. -/
def child? (name : String) (entries : List (String × Tree)) : Option Tree :=
  (entries.find? fun entry => entry.1 = name).map Prod.snd

/-- The entries with one of them set. -/
def setChild (name : String) (node : Tree) (entries : List (String × Tree)) :
    List (String × Tree) :=
  (name, node) :: entries.filter fun entry => entry.1 ≠ name

/-- Put a tree at a path, with the directories on the way. A directory that is there stays as it is. -/
def insert (node : Tree) : List String → List (String × Tree) → List (String × Tree)
  | [], entries => entries
  | [name], entries =>
    match node, child? name entries with
    | .directory _, some (.directory _) => entries
    | _, _ => setChild name node entries
  | name :: path, entries =>
    match child? name entries with
    | some (.directory inner) => setChild name (.directory (insert node path inner)) entries
    | _ => setChild name (.directory (insert node path [])) entries

/-- The places that a path comes to from a place, each given by the names that lead to it from the outermost
directory. A double dot goes back to the directory that holds a place. -/
def places (here : List String) : List String → List (List String)
  | [] => []
  | name :: path =>
    let next := if name = ".." then here.dropLast else here ++ [name]
    next :: places next path

/-- Put a tree at a path that may hold double dots, with the directories on the way. -/
def insertAt (node : Tree) (path : List String) (entries : List (String × Tree)) :
    List (String × Tree) :=
  let places := places [] path
  insert node (places.getLastD [])
    (places.dropLast.foldl (fun entries place => insert (.directory []) place entries) entries)

/-- The most bytes that a name in a directory may have. -/
def maxName : Nat := 255

/-- The most bytes that a path may have. -/
def maxPath : Nat := 4095

/-- Follow components from a tree whose ancestors are given, the nearest first. Above the root is the root. -/
def follow : List Tree → Tree → List String → Except PathFault Tree
  | _, node, [] => .ok node
  | _, .file _, _ :: _ => .error .notDirectory
  | above, .directory entries, name :: path =>
    if name = "" ∨ name = "." then follow above (.directory entries) path
    else if name = ".." then
      match above with
      | [] => follow [] (.directory entries) path
      | parent :: above => follow above parent path
    else if maxName < name.utf8ByteSize then .error .nameTooLong
    else
      match child? name entries with
      | none => .error .missing
      | some node => follow (.directory entries :: above) node path

def isDirectory : Tree → Bool
  | file _ => false
  | directory _ => true

/-- Whether components lead from the root to a directory. -/
def leadsToDirectory (root : List (String × Tree)) (path : List String) : Bool :=
  (follow [] (.directory root) path).toOption.any isDirectory

end Tree

/-- A tree of directories and files, by the entries of its root, and a current directory, by the names that lead
there from the root. -/
structure FileSystem where
  root : List (String × Tree)
  current : List String
  leads : Tree.leadsToDirectory root current = true

namespace FileSystem

/-- The file system in which there is nothing. -/
def empty : FileSystem := ⟨[], [], rfl⟩

/-- The file system with files and directories at paths from a current directory. A path without bytes is a
directory. -/
def ofFiles (current : List String) (files : List (String × Option ByteArray)) : FileSystem :=
  let root := files.foldl
    (fun entries item =>
      let node := match item.2 with
        | some bytes => .file bytes
        | none => .directory []
      Tree.insertAt node (current ++ Path.components item.1.toList) entries)
    (Tree.insert (.directory []) current [])
  if h : Tree.leadsToDirectory root current = true then ⟨root, current, h⟩ else empty

/-- What a path leads to, from the root if it begins with a slash and else from the current directory. -/
def resolve (fs : FileSystem) (path : String) : Except PathFault Tree :=
  let names := (path.toList.splitOn '/').map String.ofList
  if path = "" then .error .missing
  else if Tree.maxPath < path.utf8ByteSize then .error .nameTooLong
  else if path.toList.head? = some '/' then Tree.follow [] (.directory fs.root) names
  else Tree.follow [] (.directory fs.root) (fs.current ++ names)

def toDisk (fs : FileSystem) : Disk where
  entry path :=
    match fs.resolve path with
    | .ok (.file bytes) => .ok (.file bytes)
    | .ok (.directory _) => .ok .directory
    | .error fault => .error fault

end FileSystem

end Unary
