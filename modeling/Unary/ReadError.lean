import Unary.Lexeme
import Unary.Text.Position
import Unary.Text.Quoted

/-!
Errors of reading a program: what was wrong, at which offset, and the message that says so.
-/

namespace Unary

/-- What the grammar allows at a place. -/
inductive Expectation
  | item
  | definedName
  | equals
  | parameter
  | parameterEnd
  | argumentEnd
  | expression
  | succOpen
  | succClose
  | condOpen
  | equate
  | equateOpen
  | operandEnd
  | equateClose
  | condClose
  | yes
  | no
  | callOpen
  | ending
deriving DecidableEq

namespace Expectation

def text : Expectation → String
  | item => "'def' or an expression"
  | definedName => "a name after 'def'"
  | equals => "'='"
  | parameter => "a parameter name"
  | parameterEnd => "',' or ')' in parameter list"
  | argumentEnd => "',' or ')' in argument list"
  | expression => "an expression"
  | succOpen => "'(' after 's'"
  | succClose => "')' closing 's('"
  | condOpen => "'(' after 'if'"
  | equate => "'eq'"
  | equateOpen => "'(' after 'eq'"
  | operandEnd => "',' between the operands of 'eq'"
  | equateClose => "')' closing 'eq('"
  | condClose => "')' closing 'if('"
  | yes => "'then'"
  | no => "'else'"
  | callOpen => "'(' after the name of a function"
  | ending => "the end of the program"

end Expectation

/-- The kinds of errors of reading. -/
inductive ReadErrorKind
  | grammar
  | lexeme
  | trailing
deriving DecidableEq

/-- The name of a kind of error. -/
def ReadErrorKind.label : ReadErrorKind → String
  | grammar => "PeanoSyntaxError"
  | lexeme => "PeanoLexError"
  | trailing => "PeanoTrailingInputError"

/-- What was wrong: a character that starts no lexeme, or a lexeme (or the end) that is not allowed. -/
inductive ReadCause
  | unexpectedChar (char : Char)
  | expected (what : Expectation) (found : Option Token)
deriving DecidableEq

namespace ReadCause

def kind : ReadCause → ReadErrorKind
  | unexpectedChar _ => .lexeme
  | expected .ending _ => .trailing
  | expected .. => .grammar

/-- What a message says was found. -/
def foundText : Option Token → String
  | none => "end of program"
  | some token => Text.quoted token.text

def text : ReadCause → String
  | unexpectedChar c => "Unexpected char " ++ Text.quoted (String.singleton c)
  | expected .ending found =>
    "Program must end after its final expression, found " ++ foundText found
  | expected what found => "Expected " ++ what.text ++ ", found " ++ foundText found

end ReadCause

/-- A cause at the offset of the character or lexeme that caused it, the text's length at its end. -/
structure ReadError where
  cause : ReadCause
  offset : Nat
  position : Text.Position
deriving DecidableEq

namespace ReadError

/-- The error of a cause at an offset of a text. -/
def locate (source : List Char) (cause : ReadCause) (offset : Nat) : ReadError :=
  ⟨cause, offset, .ofOffset source offset⟩

def kind (e : ReadError) : ReadErrorKind :=
  e.cause.kind

def message (e : ReadError) : String :=
  e.cause.text ++ " at line " ++ toString e.position.line ++
    ", column " ++ toString e.position.column

end ReadError

end Unary
