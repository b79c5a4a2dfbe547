/-!
Coloured text for terminals: what may be asked of a painter, which is given from outside. The host's painter
may heed environment variables, and where the output goes.
-/

namespace Unary

inductive Colour
  | red
  | lightGreen
  | lightBlue
  | lightMagenta
deriving DecidableEq

structure Style where
  colour : Option Colour
  bold : Bool
deriving DecidableEq

/-- How a style is put on a text. -/
abbrev Paint := Style → List Char → List Char

/-- The environment variables that bear on colours. -/
structure Colouring where
  noColor : Option String
  forceColor : Option String
  ansiColorsDisabled : Option String
deriving DecidableEq

structure Painter where
  /-- A text in a style, which may be forced on whatever else speaks against it. -/
  paint : (forced : Bool) → Paint
  /-- How many frames painting takes. -/
  frames : Nat

namespace Painter

/-- Texts in a style if styles are asked for, else the texts alone. -/
def styled (painter : Painter) (on : Bool) : Paint := fun style text =>
  if on then painter.paint false style text else text

end Painter

end Unary
