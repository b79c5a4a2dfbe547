import Unary.Text.Digit
import Unary.Text.Quoted

/-!
The arguments of the command line: one file, and flags that may be shortened.

An argument that starts with a dash is a flag, if it is longer than the dash, looks like no negative
number and holds no space. A double dash ends the flags. All arguments are classified before any of them
is heeded.
-/

namespace Unary.CommandLine

inductive Flag
  | help
  | prelude
  | strict
  | tokens
  | ast
  | noColor
deriving DecidableEq

namespace Flag

def all : List Flag := [help, prelude, strict, tokens, ast, noColor]

/-- The flag as it is given. -/
def long : Flag → String
  | help => "--help"
  | prelude => "--prelude"
  | strict => "--strict"
  | tokens => "--tokens"
  | ast => "--ast"
  | noColor => "--no-color"

/-- The flag as a message names it, with its short form. -/
def title : Flag → String
  | help => "-h/--help"
  | flag => flag.long

/-- The flags whose names start with the given characters. -/
def startingWith (start : List Char) : List Flag :=
  all.filter fun flag => start.isPrefixOf flag.long.toList

/-- The flag given in full. -/
def ofName? (name : String) : Option Flag :=
  if name = "-h" then some help else all.find? fun flag => flag.long = name

end Flag

/-- Why the arguments are refused. -/
inductive UsageError
  | ambiguous (argument : String) (flags : List Flag)
  | ignoredValue (flag : Flag) (value : String)
  | missingFile
  | unrecognized (arguments : List String)
deriving DecidableEq

def UsageError.message : UsageError → String
  | ambiguous argument flags =>
    "ambiguous option: " ++ argument ++ " could match " ++ ", ".intercalate (flags.map Flag.long)
  | ignoredValue flag value =>
    "argument " ++ flag.title ++ ": ignored explicit argument " ++ Text.quoted value
  | missingFile => "the following arguments are required: file"
  | unrecognized arguments => "unrecognized arguments: " ++ " ".intercalate arguments

/-- What an argument is by itself. -/
inductive ArgumentKind
  | plain
  | flag (flag : Flag)
  /-- A flag with a value, though no flag takes one. -/
  | valued (flag : Flag) (value : String)
  | unknown
deriving DecidableEq

/-- Split at the first equals sign. -/
def splitValue (cs : List Char) : List Char × Option String :=
  match cs.dropWhile (· ≠ '=') with
  | [] => (cs, none)
  | _ :: value => (cs.takeWhile (· ≠ '='), some (String.ofList value))

def isDigit (c : Char) : Bool :=
  (Text.digitValue? c).isSome

/-- The characters without one newline at the end. -/
def dropNewline (cs : List Char) : List Char :=
  if cs.getLast? = some '\n' then cs.dropLast else cs

/-- Whether the characters after a dash make a number: digits, or a point with digits after it. -/
def isNumber (cs : List Char) : Bool :=
  let rest := cs.dropWhile isDigit
  match rest with
  | [] => !cs.isEmpty
  | '.' :: fraction => !fraction.isEmpty && fraction.all isDigit
  | _ => false

/-- The characters after the short help flag are further short flags, of which help is the only one. What
comes after them is a value. -/
def helpCluster (cs : List Char) : ArgumentKind :=
  match cs.dropWhile (· = 'h') with
  | [] => .flag .help
  | rest => .valued .help (String.ofList rest)

/-- An argument that starts with a dash but is no flag in full. -/
def classifyOther (cs : List Char) : ArgumentKind :=
  if isNumber (dropNewline cs.tail) || cs.contains ' ' then .plain else .unknown

/-- A flag given by its name, with its value if there is one. A value of the short help flag that is not
empty is read as the characters after that flag. -/
def withValue (name : List Char) (flag : Flag) : Option String → ArgumentKind
  | none => .flag flag
  | some value =>
    if name = ['-', 'h'] ∧ value ≠ "" then helpCluster value.toList else .valued flag value

/-- An argument that starts with two dashes may be the start of a flag. -/
def classifyLong (argument : String) : Except UsageError ArgumentKind :=
  let (name, value) := splitValue argument.toList
  match Flag.startingWith name with
  | [] => .ok (classifyOther argument.toList)
  | [flag] => .ok (withValue name flag value)
  | flags => .error (.ambiguous argument flags)

/-- What an argument before the double dash is. -/
def classify (argument : String) : Except UsageError ArgumentKind :=
  let (name, value) := splitValue argument.toList
  match Flag.ofName? argument, Flag.ofName? (String.ofList name), argument.toList with
  | some flag, _, _ => .ok (.flag flag)
  | none, some flag, _ => .ok (withValue name flag value)
  | none, none, '-' :: '-' :: _ => classifyLong argument
  | none, none, '-' :: 'h' :: cs => .ok (helpCluster cs)
  | none, none, ['-'] => .ok .plain
  | none, none, '-' :: cs => .ok (classifyOther ('-' :: cs))
  | none, none, _ => .ok .plain

/-- Classify the arguments before the double dash, and give those from it on. -/
def classifyAll : List String → Except UsageError (List (String × ArgumentKind) × List String)
  | [] => .ok ([], [])
  | argument :: rest =>
    if argument = "--" then .ok ([], "--" :: rest)
    else do
      let kind ← classify argument
      let (kinds, tail) ← classifyAll rest
      return ((argument, kind) :: kinds, tail)

structure Options where
  file : String
  flags : List Flag
deriving DecidableEq

def Options.has (options : Options) (flag : Flag) : Bool :=
  options.flags.contains flag

/-- What the arguments ask for. -/
inductive Request
  | help
  | run (options : Options)
deriving DecidableEq

/-- What is known after some arguments, the lists in reverse order. -/
structure Gathered where
  file : Option String
  flags : List Flag
  extra : List String
  /-- Whether the argument just before was taken as the file. -/
  fresh : Bool
deriving DecidableEq

namespace Gathered

def empty : Gathered := ⟨none, [], [], false⟩

/-- The first plain argument is the file, and any other is one too many. -/
def plain (g : Gathered) (argument : String) : Gathered :=
  match g.file with
  | none => { g with file := some argument, fresh := true }
  | some _ => { g with extra := argument :: g.extra, fresh := false }

/-- Heed the arguments from the double dash on. The double dash is dropped next to the file. -/
def finish (g : Gathered) : List String → Gathered
  | [] => g
  | dashes :: rest =>
    match g.file, rest with
    | none, file :: rest => { g with file := some file, extra := rest.reverse ++ g.extra }
    | none, [] => { g with extra := dashes :: g.extra }
    | some _, rest =>
      { g with extra := rest.reverse ++ if g.fresh then g.extra else dashes :: g.extra }

def conclude (g : Gathered) : Except UsageError Request :=
  match g.file, g.extra with
  | none, _ => .error .missingFile
  | some file, [] => .ok (.run ⟨file, g.flags.reverse⟩)
  | some _, extra => .error (.unrecognized extra.reverse)

end Gathered

/-- Heed classified arguments in order. Help is given at once. -/
def gather (tail : List String) : Gathered → List (String × ArgumentKind) → Except UsageError Request
  | g, [] => (g.finish tail).conclude
  | g, (argument, .plain) :: rest => gather tail (g.plain argument) rest
  | _, (_, .flag .help) :: _ => .ok .help
  | g, (_, .flag flag) :: rest =>
    gather tail { g with flags := flag :: g.flags, fresh := false } rest
  | _, (_, .valued flag value) :: _ => .error (.ignoredValue flag value)
  | g, (argument, .unknown) :: rest =>
    gather tail { g with extra := argument :: g.extra, fresh := false } rest

/-- Read the arguments of the command line. -/
def parseArguments (arguments : List String) : Except UsageError Request := do
  let (kinds, tail) ← classifyAll arguments
  gather tail .empty kinds

end Unary.CommandLine
