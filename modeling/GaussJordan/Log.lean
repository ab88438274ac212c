/-!
# GaussJordan.Log

Records of what happens on the way to an answer. Every operation emits all of its records; whoever
shows them keeps those at or above a level.
-/

namespace GaussJordan

inductive Level where
  | debug
  | info
  | warning
  | error
  | critical
  deriving DecidableEq

namespace Level

def all : List Level := [.debug, .info, .warning, .error, .critical]

def name : Level → String
  | .debug => "DEBUG"
  | .info => "INFO"
  | .warning => "WARNING"
  | .error => "ERROR"
  | .critical => "CRITICAL"

def rank : Level → Nat
  | .debug => 0
  | .info => 1
  | .warning => 2
  | .error => 3
  | .critical => 4

def ofName? (name : String) : Option Level := all.find? (·.name == name)

end Level

/-- The part of the library that emits a record. -/
inductive Source where
  | swaps
  | reduction
  | reading
  | settings
  | commandLine

def Source.name : Source → String
  | .swaps => "linsolve.commands"
  | .reduction => "linsolve.elimination"
  | .reading => "linsolve.io"
  | .settings => "linsolve.settings"
  | .commandLine => "linsolve.cli"

structure Record where
  level : Level
  source : Source
  text : String

/-- The records at or above a level, in order. -/
def Record.atLeast (level : Level) (records : List Record) : List Record :=
  records.filter fun r => level.rank ≤ r.level.rank

end GaussJordan
