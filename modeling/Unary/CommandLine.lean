import Unary.CommandLine.Arguments
import Unary.Report
import Unary.Session
import Unary.Term.Format

/-!
The command line: run a program file and print its result.

A run is a function of the arguments, the environment, the disk and the host. It gives what is printed on both
outputs, and the exit status or the failure that no report was made of.
-/

namespace Unary.CommandLine

/-- What a run is given by its host: what paints texts, for each setting of the variables that bear on colours,
and how many frames are taken where the run begins. -/
structure Host where
  painter : Colouring → Painter
  frames : Nat

/-- How a run ends: with an exit code, or with something that it does not report. -/
inductive Status
  | exit (code : Nat)
  | failure (failure : Failure)
  | limitTooLarge
deriving DecidableEq

structure Result where
  status : Status
  output : String
  errors : String
deriving DecidableEq

def usage : String :=
  "usage: peano [-h] [--prelude] [--strict] [--tokens] [--ast] [--no-color] file\n"

def helpText : String :=
  usage ++
  "\nEvaluate a program over unary natural numbers.\n\n" ++
  "positional arguments:\n" ++
  "  file        program file to run\n\n" ++
  "options:\n" ++
  "  -h, --help  show this help message and exit\n" ++
  "  --prelude   load the standard prelude (pred, add, sub, mul, max)\n" ++
  "  --strict    treat unbound names, unknown functions and arity mismatches as\n" ++
  "              errors\n" ++
  "  --tokens    print the token stream first\n" ++
  "  --ast       print the lowered program first\n" ++
  "  --no-color  plain error output\n"

/-- The least limit on nesting, however low the one that is set. -/
def leastLimit : Nat := 1000

/-- The greatest limit on nesting that can be set. -/
def greatestLimit : Nat := 0x7fffffff

/-- The limit on nesting of a run. -/
def runLimit (env : Environment) : Nat :=
  max leastLimit env.nestingLimit

/-- The bounds where a run begins, under the limit that is set for it. -/
def Host.bounds (host : Host) (env : Environment) (fuel : Nat) : Bounds :=
  ⟨some (runLimit env - host.frames), fuel⟩

/-- A row of the token listing: the class of the token in eight columns, then its text. -/
def tokenRow (label text : String) : String :=
  String.ofList (Text.trimEnd (label.toList.rightpad 8 ' ' ++ ' ' :: text.toList)) ++ "\n"

/-- The listing of the tokens of a source. It stops before a character that starts none. -/
def tokenListing (stream : Stream) : String :=
  String.join (stream.lexemes.map fun l => tokenRow l.token.label l.token.text) ++
    match stream.ending with
    | .finish _ => tokenRow "end" ""
    | .unexpected _ _ => ""

/-- The error of a stream that ends before its text does. -/
def checkEnding (source : List Char) : Ending → Except Failure Unit
  | .finish _ => .ok ()
  | .unexpected c offset => .error (.read (.locate source (.unexpectedChar c) offset))

/-- Whether a failure is an error of the program that is run. -/
def isProgramError : Failure → Bool
  | .read _ => true
  | .eval (.notTerm _) => false
  | .eval _ => true
  | _ => false

/-- Whether a failure is one of finding or opening a file. -/
def isFileError : Failure → Bool
  | .file .undecodable => false
  | .file .nulInPath => false
  | .file _ => true
  | _ => false

/-- End with a report on the error output. -/
def fail (output : String) (report : String) : Result :=
  ⟨.exit 1, output, report ++ "\n"⟩

/-- End as a failure of the program does: an error of the program is reported with the source, and too deep
nesting without it. -/
def failProgram (paint : Paint) (file source output : String) (failure : Failure) : Result :=
  let notice := Notice.ofFailure failure
  if isProgramError failure then fail output (Report.render paint notice (some source) (some file))
  else if failure = .tooDeep then fail output (Report.render paint notice none (some file))
  else ⟨.failure failure, output, ""⟩

/-- The text of the program if it is asked for. -/
def programListing (bounds : Bounds) (options : Options) (program : Program) :
    Except Failure String :=
  if options.has .ast then
    match program.format bounds.depth .plain with
    | .ok text => .ok (text ++ "\n")
    | .error _ => .error .tooDeep
  else .ok ""

/-- The last line of a run. -/
def resultLine : Option Nat → String
  | none => "the program has no final expression\n"
  | some n => "The result is " ++ toString n ++ "\n"

/-- Print the program if asked to, and the result. -/
def runProgram (bounds : Bounds) (paint : Paint) (options : Options) (session : Session)
    (source output : String) (program : Program) : Result :=
  match programListing bounds options program with
  | .error failure => failProgram paint options.file source output failure
  | .ok listing =>
    match program.run bounds session.mode with
    | .error failure => failProgram paint options.file source (output ++ listing) failure
    | .ok value => ⟨.exit 0, output ++ listing ++ resultLine value, ""⟩

/-- Print the tokens if asked to, then compile and run the source. -/
def runSource (bounds : Bounds) (paint : Paint) (options : Options) (session : Session)
    (source : String) : Result :=
  let stream := Stream.ofChars source.toList
  let listed := options.has .tokens
  let output := if listed then tokenListing stream else ""
  match if listed then checkEnding source.toList stream.ending else .ok () with
  | .error failure => failProgram paint options.file source output failure
  | .ok () =>
    match session.compile bounds source with
    | .error failure => failProgram paint options.file source output failure
    | .ok program => runProgram bounds paint options session source output program

/-- The session of a run. -/
def startSession (bounds : Bounds) (options : Options) (env : Environment) (disk : Disk) :
    Except Failure Session :=
  Session.start bounds (if options.has .strict then .strict else env.mode)
    (if options.has .prelude then .configured else .none) env disk

/-- How a run styles its reports. -/
def Host.paint (host : Host) (env : Environment) (options : Options) : Paint :=
  (host.painter env.colouring).styled !options.has .noColor

/-- Run the file of the options, in a second frame. -/
def runOptions (host : Host) (fuel : Nat) (env : Environment) (disk : Disk) (options : Options) : Result :=
  let bounds := (host.bounds env fuel).inside 2
  let paint := host.paint env options
  match disk.readText options.file with
  | .error error =>
    if isFileError (.file error) then
      fail "" (Report.render paint (.ofFailure (.file error)) none (some options.file))
    else ⟨.failure (.file error), "", ""⟩
  | .ok source =>
    match startSession bounds options env disk with
    | .ok session => runSource bounds paint options session source
    | .error failure =>
      if isProgramError failure || isFileError failure then
        fail "" (Report.render paint (.ofFailure failure) none none)
      else ⟨.failure failure, "", ""⟩

/-- Run the command line. The fuel bounds the moves of each evaluation. -/
def run (host : Host) (fuel : Nat) (env : Environment) (disk : Disk) (arguments : List String) : Result :=
  match parseArguments arguments with
  | .error error => ⟨.exit 2, "", usage ++ "peano: error: " ++ error.message ++ "\n"⟩
  | .ok .help => ⟨.exit 0, helpText, ""⟩
  | .ok (.run options) =>
    if greatestLimit < runLimit env then ⟨.limitTooLarge, "", ""⟩
    else runOptions host fuel env disk options

end Unary.CommandLine
