import Unary.Colour

/-!
The environment variables that a program heeds.
-/

namespace Unary

structure Environment where
  strict : Option String
  preludePath : Option String
  recursionLimit : Option String
  noColor : Option String
  forceColor : Option String
  ansiColorsDisabled : Option String
deriving DecidableEq

namespace Environment

/-- An environment in which no variable is set. -/
def empty : Environment := ⟨none, none, none, none, none, none⟩

/-- The variables that bear on colours. -/
def colouring (env : Environment) : Colouring :=
  ⟨env.noColor, env.forceColor, env.ansiColorsDisabled⟩

/-- Set the variable of a name. A variable that no program heeds changes nothing. -/
def set (env : Environment) (name value : String) : Environment :=
  if name = "PEANO_STRICT" then { env with strict := some value }
  else if name = "PEANO_PRELUDE_PATH" then { env with preludePath := some value }
  else if name = "PEANO_RECURSION_LIMIT" then { env with recursionLimit := some value }
  else if name = "NO_COLOR" then { env with noColor := some value }
  else if name = "FORCE_COLOR" then { env with forceColor := some value }
  else if name = "ANSI_COLORS_DISABLED" then { env with ansiColorsDisabled := some value }
  else env

end Environment

end Unary
