import Unary.Colour
import Unary.Failure
import Unary.Text.Lines
import Unary.Text.Position

/-!
Reports of errors: where, what, and for an error in a text the line it is on with a caret under it. How a style
is put on a text is up to whoever asks for the report.
-/

namespace Unary

/-- An error as a report shows it. The label names its kind if its message does not stand alone. -/
structure Notice where
  label : Option String
  message : String
  /-- The offset in the source for an error of reading. -/
  offset : Option Int
deriving DecidableEq

namespace Notice

/-- How a failure is shown. An error of a program stands alone. -/
def ofFailure : Failure → Notice
  | .read error => ⟨none, error.message, some error.offset⟩
  | .file error => ⟨some error.label, error.message, none⟩
  | failure => ⟨none, failure.message, none⟩

end Notice

namespace Report

def alarm : Style := ⟨some .red, true⟩

def place : Style := ⟨none, true⟩

/-- The line of an offset with the character there marked, and a caret under that character. The line is
taken by its number from the displayed lines. -/
def excerptChars (paint : Paint) (source : List Char) (offset : Int) : List Char :=
  let position := Text.Position.ofOffset source offset
  let line := (Text.lines source).getD (position.line - 1) []
  let start := position.column - 1
  "  ".toList ++ line.take start ++
    paint alarm ((line.drop start).take 1) ++ line.drop (start + 1) ++
    "\n  ".toList ++ List.replicate start ' ' ++ paint alarm ['^']

def excerpt (paint : Paint) (source : String) (offset : Int) : String :=
  String.ofList (excerptChars paint source.toList offset)

/-- The position in the source that a report gives after the path. -/
def locationChars (notice : Notice) (source : Option String) (path : String) : List Char :=
  match source, notice.offset with
  | some source, some offset =>
    let position := Text.Position.ofOffset source.toList offset
    path.toList ++ ':' :: (toString position.line).toList ++ ':' :: (toString position.column).toList
  | _, _ => path.toList

/-- What stands before the word "error": the location, if there is a path that is not empty. -/
def heading (paint : Paint) (notice : Notice) (source path : Option String) : List Char :=
  match path with
  | none => []
  | some path =>
    if path = "" then []
    else paint place (locationChars notice source path ++ ": ".toList)

def messageChars (notice : Notice) : List Char :=
  match notice.label with
  | none => notice.message.toList
  | some label => label.toList ++ ": ".toList ++ notice.message.toList

def renderChars (paint : Paint) (notice : Notice) (source path : Option String) : List Char :=
  heading paint notice source path ++ paint alarm "error: ".toList ++
    messageChars notice ++
    match source, notice.offset with
    | some source, some offset => '\n' :: excerptChars paint source.toList offset
    | _, _ => []

/-- The report of an error in a source from a path. -/
def render (paint : Paint) (notice : Notice) (source path : Option String) : String :=
  String.ofList (renderChars paint notice source path)

end Report

end Unary
