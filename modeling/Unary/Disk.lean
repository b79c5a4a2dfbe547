import Unary.Text.Lines
import Unary.Text.Quoted

/-!
What a program can learn from a disk: what is at a path, and the text of a file.
-/

namespace Unary

/-- What is at a path. -/
inductive Entry
  | directory
  | file (bytes : ByteArray)

/-- Why nothing is found at a path. -/
inductive PathFault
  | missing
  | notDirectory
  | denied
  | nameTooLong
deriving DecidableEq

/-- A disk as its current directory shows it. -/
structure Disk where
  entry : String → Except PathFault Entry

/-- Why a file cannot be read. -/
inductive FileError
  | fault (fault : PathFault) (path : String)
  | isDirectory (path : String)
  | undecodable
  /-- A path with the character NUL in it, which no file can have. -/
  | nulInPath
  | noPrelude
deriving DecidableEq

namespace FileError

/-- The name of the kind of error that a report puts before the message. -/
def label : FileError → String
  | fault .missing _ => "FileNotFoundError"
  | fault .notDirectory _ => "NotADirectoryError"
  | fault .denied _ => "PermissionError"
  | fault .nameTooLong _ => "OSError"
  | isDirectory _ => "IsADirectoryError"
  | undecodable => "UnicodeDecodeError"
  | nulInPath => "ValueError"
  | noPrelude => "FileNotFoundError"

def message : FileError → String
  | fault .missing path => "[Errno 2] No such file or directory: " ++ Text.quoted path
  | fault .notDirectory path => "[Errno 20] Not a directory: " ++ Text.quoted path
  | fault .denied path => "[Errno 13] Permission denied: " ++ Text.quoted path
  | fault .nameTooLong path => "[Errno 36] File name too long: " ++ Text.quoted path
  | isDirectory path => "[Errno 21] Is a directory: " ++ Text.quoted path
  | undecodable => "the file is not valid UTF-8"
  | nulInPath => "embedded null byte"
  | noPrelude => "Cannot find std.peano in PEANO_PRELUDE_PATH"

end FileError

namespace Disk

/-- Whether a path has the character NUL in it. -/
def hasNul (path : String) : Bool :=
  path.toList.contains '\x00'

/-- What is at a path, if something can be there. A path that leads to nothing, or through what is no
directory, is no error here, but any other fault is. -/
def find? (disk : Disk) (path : String) : Except FileError (Option Entry) :=
  if hasNul path then .ok none
  else
    match disk.entry path with
    | .ok entry => .ok (some entry)
    | .error .missing => .ok none
    | .error .notDirectory => .ok none
    | .error fault => .error (.fault fault path)

def isDirectory (disk : Disk) (path : String) : Except FileError Bool :=
  match disk.find? path with
  | .ok (some .directory) => .ok true
  | .ok _ => .ok false
  | .error error => .error error

def isFile (disk : Disk) (path : String) : Except FileError Bool :=
  match disk.find? path with
  | .ok (some (.file _)) => .ok true
  | .ok _ => .ok false
  | .error error => .error error

/-- The text of bytes in UTF-8, with every line break written as a newline. -/
def decode (bytes : ByteArray) : Except FileError String :=
  match String.fromUTF8? bytes with
  | some text => .ok (String.ofList (Text.unifyNewlines text.toList))
  | none => .error .undecodable

def readText (disk : Disk) (path : String) : Except FileError String :=
  if hasNul path then .error .nulInPath
  else
    match disk.entry path with
    | .ok (.file bytes) => decode bytes
    | .ok .directory => .error (.isDirectory path)
    | .error fault => .error (.fault fault path)

end Disk

end Unary
