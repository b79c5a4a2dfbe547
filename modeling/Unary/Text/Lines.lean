/-!
Lines for display. A line ends at any line break, the pair of a carriage return and a newline counts as
one break, and a break at the end of the text starts no further line.
-/

namespace Unary.Text

/-- The characters that end a line: newline, vertical tab, form feed, carriage return, the file, group
and record separators, next line, and the line and paragraph separators. -/
def isLineBreak (c : Char) : Bool :=
  let n := c.toNat
  (0x0a ≤ n && n ≤ 0x0d) || (0x1c ≤ n && n ≤ 0x1e) || n == 0x85 || n == 0x2028 || n == 0x2029

/-- The lines of a text that follows the characters of `line`, which are in reverse order. -/
def linesFrom (line : List Char) : List Char → List (List Char)
  | [] => if line.isEmpty then [] else [line.reverse]
  | '\r' :: '\n' :: cs => line.reverse :: linesFrom [] cs
  | c :: cs => if isLineBreak c then line.reverse :: linesFrom [] cs else linesFrom (c :: line) cs

def lines (source : List Char) : List (List Char) :=
  linesFrom [] source

/-- Write every line break of a file as a newline: the pair of a carriage return and a newline, and a
carriage return alone. -/
def plainNewlines : List Char → List Char → List Char
  | read, [] => read.reverse
  | read, '\r' :: '\n' :: cs => plainNewlines ('\n' :: read) cs
  | read, c :: cs => plainNewlines ((if c = '\r' then '\n' else c) :: read) cs

/-- The text of a file with plain newlines. -/
def unifyNewlines (text : List Char) : List Char :=
  plainNewlines [] text

end Unary.Text
