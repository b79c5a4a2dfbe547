import Unary.Colour

/-!
A painter by escape sequences: some before a text, and one after it that ends them. It is for output that goes
to no terminal.
-/

namespace Unary

namespace Colour

def code : Colour → List Char
  | red => ['3', '1']
  | lightGreen => ['9', '2']
  | lightBlue => ['9', '4']
  | lightMagenta => ['9', '5']

end Colour

namespace Style

/-- The escape sequence of a code. -/
def sequence (code : List Char) : List Char :=
  '\x1b' :: '[' :: code ++ ['m']

/-- The codes before a text: bold comes before the colour. -/
def codes (style : Style) : List (List Char) :=
  (if style.bold then [['1']] else []) ++ (style.colour.map Colour.code).toList

/-- A text in a style, an empty one too. -/
def escape (style : Style) (text : List Char) : List Char :=
  (style.codes.map sequence).flatten ++ text ++ sequence ['0']

end Style

namespace Colouring

/-- Whether a variable is set to something. -/
def isOn (value : Option String) : Bool :=
  value.any (· ≠ "")

/-- Whether styles are on that are not forced. -/
def allows (c : Colouring) : Bool :=
  !isOn c.ansiColorsDisabled && !isOn c.noColor && isOn c.forceColor

end Colouring

namespace Painter

/-- The painter by escape sequences for a setting of the variables. -/
def escaping (c : Colouring) : Painter where
  paint forced style text := if forced || c.allows then style.escape text else text
  frames := 2

end Painter

end Unary
