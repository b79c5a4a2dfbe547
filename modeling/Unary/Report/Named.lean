import Unary.Report
import Unary.Text.Nested

/-!
Errors that are given by the name of their kind, and how a report words them.
-/

namespace Unary

/-- An error of a named kind: its message, and a number or nothing as a second part if there is one. -/
structure NamedError where
  kind : String
  message : String
  detail : Option (Option Int)
deriving DecidableEq

namespace NamedError

/-- The kinds of errors of reading. Their second part is an offset in the source. -/
def readKinds : List String :=
  ["PeanoSyntaxError", "PeanoLexError", "PeanoTrailingInputError"]

/-- The kinds of errors of a program, whose messages stand alone. -/
def programKinds : List String :=
  readKinds ++ ["PeanoError", "PeanoUnboundSymbol", "PeanoUnknownFunction", "PeanoArityError"]

/-- Other names of the general kind of errors of the system. -/
def systemAliases : List String := ["IOError", "EnvironmentError"]

/-- The kinds of errors of the system. With two parts they are a code and what it means. -/
def systemKinds : List String :=
  systemAliases ++
    ["OSError", "BlockingIOError", "BrokenPipeError", "ChildProcessError", "ConnectionAbortedError",
      "ConnectionError", "ConnectionRefusedError", "ConnectionResetError", "FileExistsError",
      "FileNotFoundError", "InterruptedError", "IsADirectoryError", "NotADirectoryError",
      "PermissionError", "ProcessLookupError", "TimeoutError"]

/-- The name of the kind in a report, unless the message stands alone. -/
def label (e : NamedError) : Option String :=
  if programKinds.contains e.kind then none
  else if systemAliases.contains e.kind then some "OSError"
  else some e.kind

def detailText : Option Int → List Char
  | none => "None".toList
  | some i => (toString i).toList

/-- The wording of an error: its message, or both parts if there are two. A missing key is quoted. -/
def wording (e : NamedError) : List Char :=
  match e.detail with
  | none => if e.kind = "KeyError" then Text.quoteChars e.message.toList else e.message.toList
  | some detail =>
    if readKinds.contains e.kind then e.message.toList
    else if systemKinds.contains e.kind then
      "[Errno ".toList ++ e.message.toList ++ "] ".toList ++ detailText detail
    else Text.tuple [Text.quoteChars e.message.toList, detailText detail]

/-- The offset in the source. -/
def offset (e : NamedError) : Option Int :=
  if readKinds.contains e.kind then e.detail.join else none

def toNotice (e : NamedError) : Notice :=
  ⟨e.label, String.ofList e.wording, e.offset⟩

end NamedError

end Unary
