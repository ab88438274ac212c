import GaussJordan.Log
import GaussJordan.Json.Basic

/-!
# GaussJordan.CommandLine.Arguments

The arguments of the command. Options may be shortened as long as the beginning fits one only; of
the two long forms only the one with two dashes may be shortened together with a value after `=`.
Everything after `--` is positional, and positional arguments are not recognized.

First every argument is classed, which finds ambiguous ones; then the options are taken in order,
which finds missing and wrong values; then required options are missed; and last come arguments
that are not recognized.
-/

namespace GaussJordan

namespace CommandLine

inductive Flag where
  | help
  | input
  | output
  | logLevel
  deriving DecidableEq

structure Options where
  input : String
  output : String
  logLevel : Option Level

/-- Why the command ends before it starts, with the text shown and the exit status. -/
structure Stop where
  text : String
  status : Nat

def usage : String :=
  "usage: solve [-h] -in INPUTFILE -out OUTPUTFILE\n" ++
  "             [--log-level \x7bDEBUG,INFO,WARNING,ERROR,CRITICAL\x7d]\n"

def helpText : String :=
  usage ++
  "\nSolve a square linear system (real or complex) by Gauss-Jordan elimination.\n" ++
  "\noptions:\n" ++
  "  -h, --help            show this help message and exit\n" ++
  "  -in INPUTFILE         matrix file: size n, then n rows of n+1 values\n" ++
  "  -out OUTPUTFILE       file the solution (or classification) is written to\n" ++
  "  --log-level \x7bDEBUG,INFO,WARNING,ERROR,CRITICAL\x7d\n" ++
  "                        console narration level (default: from settings)\n"

def refuse (message : String) : Stop := ⟨usage ++ "solve: error: " ++ message ++ "\n", 2⟩

namespace Flag

def forms : List (String × Flag) :=
  [("-h", .help), ("--help", .help), ("-in", .input), ("-out", .output),
    ("--log-level", .logLevel)]

def name : Flag → String
  | .help => "-h/--help"
  | .input => "-in"
  | .output => "-out"
  | .logLevel => "--log-level"

def ofForm? (form : String) : Option Flag := (forms.find? fun (f, _) => f == form).map (·.2)

end Flag

/-- An argument as it is classed: an option with the form that it fits and a value written with it,
an option that is not known, or something else. -/
inductive Argument where
  | option (flag : Flag) (form : String) (value : Option String)
  /-- The short form of help with more letters behind it. -/
  | helpWith (letters : List Char)
  | unknown (text : String)
  | positional (text : String)
  /-- The mark after which everything is positional. -/
  | separator

namespace Argument

def text : Argument → String
  | .option _ form _ => form
  | .helpWith letters => "-h" ++ String.ofList letters
  | .unknown text => text
  | .positional text => text
  | .separator => "--"

/-- A text split at its first `=`. -/
def splitValue? (text : String) : Option (String × String) :=
  let cs := text.toList
  if cs.contains '=' then
    some (String.ofList (cs.takeWhile (· != '=')), String.ofList ((cs.dropWhile (· != '=')).drop 1))
  else none

/-- The options that an argument with a dash in front may be short for. -/
def candidates (text : String) : List Argument :=
  if text.startsWith "--" then
    let (start, value) := match splitValue? text with
      | some (start, value) => (start, some value)
      | none => (text, none)
    Flag.forms.filterMap fun (form, flag) =>
      if form.startsWith start then some (.option flag form value) else none
  else
    match text.toList with
    | '-' :: 'h' :: letters => [.helpWith letters]
    | _ =>
      Flag.forms.filterMap fun (form, flag) =>
        if form.startsWith text then some (.option flag form none) else none

/-- A minus with digits, with maybe a point before the last of them. -/
def isNegativeNumber (text : String) : Bool :=
  match text.toList with
  | '-' :: rest =>
    let before := rest.takeWhile Char.isDigit
    match rest.dropWhile Char.isDigit with
    | [] => !before.isEmpty
    | '.' :: after => !after.isEmpty && after.all Char.isDigit
    | _ => false
  | _ => false

/-- An argument that is not one of the forms as it stands. -/
def classifyOther (text : String) : Except Stop Argument :=
  match (splitValue? text).bind fun (form, value) =>
      (Flag.ofForm? form).map fun flag => Argument.option flag form (some value) with
  | some found => .ok found
  | none =>
    match candidates text with
    | [found] => .ok found
    | [] =>
      if isNegativeNumber text || text.toList.contains ' ' then .ok (.positional text)
      else .ok (.unknown text)
    | several =>
      let matching := ", ".intercalate (several.map Argument.text)
      .error (refuse s!"ambiguous option: {text} could match {matching}")

def classify (text : String) : Except Stop Argument :=
  if !text.startsWith "-" then .ok (.positional text)
  else
    match Flag.ofForm? text with
    | some flag => .ok (.option flag text none)
    | none => if text = "-" then .ok (.positional text) else classifyOther text

/-- Classes the arguments; from the separator on all of them are positional. -/
def classifyAll : List String → Except Stop (List Argument)
  | [] => .ok []
  | text :: rest =>
    if text = "--" then .ok (.separator :: rest.map .positional)
    else do
      let first ← classify text
      return first :: (← classifyAll rest)

end Argument

structure Taken where
  input : Option String := none
  output : Option String := none
  logLevel : Option Level := none
  /-- The arguments that are not recognized, the last one first. -/
  extras : List String := []

namespace Taken

def argumentError (flag : Flag) (message : String) : Stop :=
  let name := flag.name
  refuse s!"argument {name}: {message}"

def setValue (taken : Taken) (flag : Flag) (value : String) : Except Stop Taken :=
  match flag with
  | .input => .ok { taken with input := some value }
  | .output => .ok { taken with output := some value }
  | .logLevel =>
    match Level.ofName? value with
    | some level => .ok { taken with logLevel := some level }
    | none =>
      let shown := Json.displayString value
      let choices := ", ".intercalate (Level.all.map fun level => Json.displayString level.name)
      .error (argumentError flag s!"invalid choice: {shown} (choose from {choices})")
  | .help => .ok taken

/-- Help is asked for, and a text is written with it that help has no use for. -/
def ignoredText (text : String) : Stop :=
  let shown := Json.displayString text
  argumentError .help s!"ignored explicit argument {shown}"

/-- The part at fault of the letters behind `-h`. Another `h` asks for help once more and any other
letter ends the argument, but a dash, or a value after `=`, is a fault. -/
def faultyLetters? : List Char → Option (List Char)
  | 'h' :: '=' :: value => some value
  | 'h' :: rest => faultyLetters? rest
  | '-' :: rest => some ('-' :: rest)
  | _ => none

/-- Shows the help unless something is at fault. -/
def help (faulty : Option String) : Stop := (faulty.map ignoredText).getD ⟨helpText, 0⟩

def take (taken : Taken) : List Argument → Except Stop Taken
  | [] => .ok taken
  | .option .help _ value :: _ => .error (help value)
  | .helpWith letters :: _ => .error (help ((faultyLetters? letters).map String.ofList))
  | .option flag _ (some value) :: rest => do (← taken.setValue flag value).take rest
  | .option flag _ none :: .positional value :: rest => do (← taken.setValue flag value).take rest
  | .option flag _ none :: _ => .error (argumentError flag "expected one argument")
  | other :: rest => { taken with extras := other.text :: taken.extras }.take rest

/-- The options, if the required ones are there and nothing is left over. -/
def finish (taken : Taken) : Except Stop Options :=
  match taken.input, taken.output with
  | some input, some output =>
    match taken.extras.reverse with
    | [] => .ok ⟨input, output, taken.logLevel⟩
    | extras => .error (refuse ("unrecognized arguments: " ++ " ".intercalate extras))
  | input, output =>
    let missing :=
      (if input.isNone then ["-in"] else []) ++ (if output.isNone then ["-out"] else [])
    .error (refuse ("the following arguments are required: " ++ ", ".intercalate missing))

end Taken

def parse (arguments : List String) : Except Stop Options := do
  let classed ← Argument.classifyAll arguments
  (← Taken.take {} classed).finish

end CommandLine

end GaussJordan
