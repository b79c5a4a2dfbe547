import Unary.Bounds
import Unary.ReadError
import Unary.Script

/-!
Reading a script from lexemes, one lexeme at a time.

A `Reading` is everything known after some lexemes: the definitions so far, and inside an expression the
places still to be filled. `accept` takes the next lexeme, `expects` says which ones it would take, and
`finish` gives the script if the text may end here. Nesting costs depth, which a limit can bound, and a
run of successors costs no more than one.
-/

namespace Unary

/-- What the expression being read is for. -/
inductive Target
  | value (name : String)
  | function (name : String) (params : List String)
  | result
deriving DecidableEq

/-- A place in an expression that waits for a smaller expression. -/
inductive Slot
  /-- Inside `count + 1` successors opened one in the other. -/
  | succ (count : Nat)
  /-- The next argument of a call, after the arguments of `done` in reverse order. -/
  | arg (callee : String) (done : List Expr)
  | left
  | right (left : Expr)
  | yes (left right : Expr)
  | no (left right yes : Expr)
deriving DecidableEq

/-- The depth that a place costs. -/
def Slot.weight : Slot → Nat
  | .succ _ => 1
  | _ => 2

/-- What must come next inside an expression. -/
inductive Want
  | expression
  | succOpen
  | succClose (count : Nat) (arg : Expr)
  | callOpen (callee : String)
  | argEnd (callee : String) (done : List Expr) (arg : Expr)
  | condOpen
  | equate
  | equateOpen
  | operandEnd (left : Expr)
  | equateClose (left right : Expr)
  | condClose (left right : Expr)
  | yes (left right : Expr)
  | no (left right yes : Expr)
deriving DecidableEq

def Want.expects : Want → Expectation
  | expression => .expression
  | succOpen => .succOpen
  | succClose .. => .succClose
  | callOpen _ => .callOpen
  | argEnd .. => .argumentEnd
  | condOpen => .condOpen
  | equate => .equate
  | equateOpen => .equateOpen
  | operandEnd _ => .operandEnd
  | equateClose .. => .equateClose
  | condClose .. => .condClose
  | yes .. => .yes
  | no .. => .no

/-- The state of reading a script. Definitions and parameters are kept in reverse order. -/
inductive Reading
  | item (defs : List Definition)
  | definedName (defs : List Definition)
  | head (defs : List Definition) (name : String)
  | parameter (defs : List Definition) (name : String) (params : List String)
  | parameterEnd (defs : List Definition) (name : String) (params : List String)
  | equals (defs : List Definition) (target : Target)
  | inside (defs : List Definition) (target : Target) (depth : Nat) (slots : List Slot) (want : Want)
  | closed (defs : List Definition) (result : Expr)
deriving DecidableEq

namespace Reading

def expects : Reading → Expectation
  | item _ => .item
  | definedName _ => .definedName
  | head .. => .equals
  | parameter .. => .parameter
  | parameterEnd .. => .parameterEnd
  | equals .. => .equals
  | inside _ _ _ _ want => want.expects
  | closed .. => .ending

/-- The depth of the places that are open. -/
def depth : Reading → Nat
  | inside _ _ depth _ _ => depth
  | _ => 0

/-- Use a whole expression for what it was read for. -/
def close (defs : List Definition) (e : Expr) : Target → Reading
  | .value name => item (.value name e :: defs)
  | .function name params => item (.function name params e :: defs)
  | .result => closed defs e

/-- Put an expression in the innermost place, and a conditional that this completes in the next one. -/
def fill (defs : List Definition) (target : Target) (depth : Nat) (e : Expr) : List Slot → Reading
  | [] => close defs e target
  | .succ count :: slots => inside defs target (depth - 1) slots (.succClose count e)
  | .arg callee done :: slots => inside defs target (depth - 2) slots (.argEnd callee done e)
  | .left :: slots => inside defs target (depth - 2) slots (.operandEnd e)
  | .right a :: slots => inside defs target (depth - 2) slots (.equateClose a e)
  | .yes a b :: slots => inside defs target (depth - 2) slots (.no a b e)
  | .no a b t :: slots => fill defs target (depth - 2) (.cond a b t e) slots

/-- Open a place for an expression. -/
def push (defs : List Definition) (target : Target) (depth : Nat) (slots : List Slot)
    (slot : Slot) : Reading :=
  inside defs target (depth + slot.weight) (slot :: slots) .expression

/-- Take the first lexeme of an expression. -/
def start (l : Lexeme) (defs : List Definition) (target : Target) (depth : Nat)
    (slots : List Slot) : Option Reading :=
  match l.token with
  | .zero => some (fill defs target depth .zero slots)
  | .succ => some (inside defs target depth slots .succOpen)
  | .cond => some (inside defs target depth slots .condOpen)
  | .ident name =>
    if l.opens then some (inside defs target depth slots (.callOpen name))
    else some (fill defs target depth (.var name) slots)
  | _ => none

/-- Take the next lexeme inside an expression. -/
def acceptInside (l : Lexeme) (defs : List Definition) (target : Target) (depth : Nat)
    (slots : List Slot) : Want → Option Reading
  | .expression => start l defs target depth slots
  | .succOpen =>
    match l.token, slots with
    | .lparen, .succ count :: slots =>
      some (inside defs target depth (.succ (count + 1) :: slots) .expression)
    | .lparen, slots => some (push defs target depth slots (.succ 0))
    | _, _ => none
  | .succClose count arg =>
    match l.token, count with
    | .rparen, 0 => some (fill defs target depth (.succ arg) slots)
    | .rparen, count + 1 => some (inside defs target depth slots (.succClose count (.succ arg)))
    | _, _ => none
  | .callOpen callee =>
    match l.token with
    | .lparen => some (push defs target depth slots (.arg callee []))
    | _ => none
  | .argEnd callee done arg =>
    match l.token with
    | .comma => some (push defs target depth slots (.arg callee (arg :: done)))
    | .rparen => some (fill defs target depth (.call callee (arg :: done).reverse) slots)
    | _ => none
  | .condOpen =>
    match l.token with
    | .lparen => some (inside defs target depth slots .equate)
    | _ => none
  | .equate =>
    match l.token with
    | .equate => some (inside defs target depth slots .equateOpen)
    | _ => none
  | .equateOpen =>
    match l.token with
    | .lparen => some (push defs target depth slots .left)
    | _ => none
  | .operandEnd a =>
    match l.token with
    | .comma => some (push defs target depth slots (.right a))
    | _ => none
  | .equateClose a b =>
    match l.token with
    | .rparen => some (inside defs target depth slots (.condClose a b))
    | _ => none
  | .condClose a b =>
    match l.token with
    | .rparen => some (inside defs target depth slots (.yes a b))
    | _ => none
  | .yes a b =>
    match l.token with
    | .yes => some (push defs target depth slots (.yes a b))
    | _ => none
  | .no a b t =>
    match l.token with
    | .no => some (push defs target depth slots (.no a b t))
    | _ => none

/-- Take the next lexeme, if it is one that may come here. -/
def accept (l : Lexeme) : Reading → Option Reading
  | item defs =>
    match l.token with
    | .define => some (definedName defs)
    | _ => start l defs .result 0 []
  | definedName defs =>
    match l.token with
    | .ident name => some (head defs name)
    | _ => none
  | head defs name =>
    match l.token with
    | .lparen => some (parameter defs name [])
    | .equals => some (inside defs (.value name) 0 [] .expression)
    | _ => none
  | parameter defs name params =>
    match l.token with
    | .ident param => some (parameterEnd defs name (param :: params))
    | _ => none
  | parameterEnd defs name params =>
    match l.token with
    | .comma => some (parameter defs name params)
    | .rparen => some (equals defs (.function name params.reverse))
    | _ => none
  | equals defs target =>
    match l.token with
    | .equals => some (inside defs target 0 [] .expression)
    | _ => none
  | inside defs target depth slots want => acceptInside l defs target depth slots want
  | closed .. => none

/-- The script read, if the text may end here. -/
def finish : Reading → Option Script
  | item defs => some ⟨defs.reverse, none⟩
  | closed defs e => some ⟨defs.reverse, some e⟩
  | _ => none

end Reading

/-- Why a text gives no script: an error in it, or nesting beyond the limit. -/
inductive ParseError
  | read (error : ReadError)
  | tooDeep
deriving DecidableEq

namespace Reading

/-- What stops a reading: a cause at an offset, or nesting beyond the limit. -/
inductive Stop
  | cause (cause : ReadCause) (offset : Nat)
  | tooDeep
deriving DecidableEq

/-- Take lexemes as long as each one may come and the depth stays within the limit. -/
def acceptAll (limit : Option Nat) : Reading → List Lexeme → Except Stop Reading
  | r, [] => .ok r
  | r, l :: ls =>
    match r.accept l with
    | none => .error (.cause (.expected r.expects (some l.token)) l.start)
    | some r' => if exceeds limit r'.depth then .error .tooDeep else acceptAll limit r' ls

/-- End the reading where the text ends. -/
def conclude (r : Reading) : Ending → Except Stop Script
  | .unexpected c offset => .error (.cause (.unexpectedChar c) offset)
  | .finish offset =>
    match r.finish with
    | some script => .ok script
    | none => .error (.cause (.expected r.expects none) offset)

end Reading

namespace Script

/-- Read a script from lexemes. An unexpected character counts only when everything before it may stand
there. -/
def ofStream (limit : Option Nat) (stream : Stream) : Except Reading.Stop Script :=
  match Reading.acceptAll limit (.item []) stream.lexemes with
  | .error stop => .error stop
  | .ok r => r.conclude stream.ending

/-- Say where in a text a reading stopped. -/
def locate (source : List Char) : Reading.Stop → ParseError
  | .cause cause offset => .read (.locate source cause offset)
  | .tooDeep => .tooDeep

/-- Read a script from its text. -/
def parse (limit : Option Nat) (source : String) : Except ParseError Script :=
  (ofStream limit (.ofChars source.toList)).mapError (locate source.toList)

end Script

end Unary
