import GaussJordan.CommandLine.Arguments
import GaussJordan.Files
import GaussJordan.Output
import GaussJordan.Service

/-!
# GaussJordan.CommandLine.Run

The command: read the input file, solve the system in it under the settings in force, and write
the answer to the output file. It is written over any way to read and write files; `run` over a
tree of files is the pure form of it.

Faults of the input and of the files are logged and end the command with status one. Other faults
leave the command altogether.
-/

namespace GaussJordan

namespace CommandLine

/-- A way to read and write files by their paths. -/
structure Access (m : Type → Type) where
  read : String → m (Except FileFault ByteArray)
  write : String → ByteArray → m (Except FileFault Unit)

inductive Escape where
  | settings (fault : SettingsFault)
  | solving (fault : Fault)

/-- How the command ended: the status with the text shown before it started, or a fault. -/
inductive Ending where
  | exited (status : Nat) (text : String)
  | escaped (fault : Escape)

/-- An ending with the level in force and the records shown. -/
structure Outcome where
  ending : Ending
  level : Level
  log : List Record

def errorRecord (text : String) : Record := ⟨.error, .commandLine, text⟩

/-- The ending after a fault of reading or solving, with its record if it has one. -/
def failed (fault : Fault) : Ending × List Record :=
  if fault.isStructural then
    let message := fault.message
    (.exited 1 "", [errorRecord s!"Error: {message}"])
  else (.escaped (.solving fault), [])

def failedFile (fault : FileFault) (path : String) : Ending × List Record :=
  let message := fault.message path
  (.exited 1 "", [errorRecord s!"File error: {message}"])

def answer (settings : Settings) (path : String) (bytes : ByteArray) :
    Except Fault String × List Record :=
  match SizedSystem.ofFile path bytes settings.tolerance with
  | (.error fault, log) => (.error fault, log)
  | (.ok s, log) =>
    let (report, more) := Service.solve settings s
    (report.map fun r => outputText r.classification.name r.finalAnswer, log ++ more)

variable {m : Type → Type} [Monad m]

def execute (access : Access m) (settings : Settings) (options : Options) :
    m (Ending × List Record) := do
  match ← access.read options.input with
  | .error fault => return failedFile fault options.input
  | .ok bytes =>
    match answer settings options.input bytes with
    | (.error fault, log) =>
      let (ending, more) := failed fault
      return (ending, log ++ more)
    | (.ok text, log) =>
      match ← access.write options.output text.toUTF8 with
      | .error fault =>
        let (ending, more) := failedFile fault options.output
        return (ending, log ++ more)
      | .ok () => return (.exited 0 "", log ++ [savedRecord options.output])

/-- The command with its arguments. Until the level is set, records are shown from warnings on. -/
def command (access : Access m) (arguments : List String) : m Outcome := do
  match parse arguments with
  | .error stop => return ⟨.exited stop.status stop.text, .warning, []⟩
  | .ok options =>
    match Settings.get (← access.read Settings.path).toOption with
    | .error fault => return ⟨.escaped (.settings fault), .warning, []⟩
    | .ok (settings, log) =>
      let level := options.logLevel.getD settings.logLevel
      let (ending, more) ← execute access settings options
      return ⟨ending, level, Record.atLeast .warning log ++ Record.atLeast level more⟩

def treeAccess : Access (StateM Files) where
  read path := do return (← get).read path
  write path bytes := do
    match (← get).write path bytes with
    | .ok files => do
      set files
      return .ok ()
    | .error fault => return .error fault

/-- The command in a tree of files: how it ends, and the tree it leaves. -/
def run (files : Files) (arguments : List String) : Outcome × Files :=
  (command treeAccess arguments).run files

end CommandLine

end GaussJordan
