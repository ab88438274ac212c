import GaussJordan.Reduction
import GaussJordan.Settings

/-!
# GaussJordan.Service

Answering a request for the solution of a system. A request is a JSON object with a size and rows
of numbers and tokens; it is validated as a whole before anything is computed. The settings in
force give the tolerances.
-/

namespace GaussJordan

structure Request where
  size : Int
  /-- Cells are doubles or strings. -/
  rows : List (List Json)

inductive ServiceFault where
  | invalid (misfits : List Misfit)
  /-- A status of the reply, with a message. -/
  | refused (status : Nat) (message : String)
  | settings (fault : SettingsFault)

/-- The reply to a request: the report with its values as text. -/
structure Reply where
  classification : Classification
  solution : Option (List String)
  freeVariables : Nat
  operations : List String
  steps : List Step
  finalAnswer : String
  verificationSteps : List Step

namespace Request

/-- A cell: a string is kept, and what is no string has to be a number. -/
def readCell (location : String) : Json → Except (List Misfit) Json
  | .string s => .ok (.string s)
  | cell =>
    match cell.toDouble with
    | .ok x => .ok (.real x)
    | .error mismatch =>
      .error [⟨location ++ ".float", mismatch⟩, ⟨location ++ ".str", .stringType⟩]

/-- All results, or all misfits together. -/
def collect {β : Type} : List (Except (List Misfit) β) → Except (List Misfit) (List β)
  | [] => .ok []
  | first :: rest =>
    match first, collect rest with
    | .ok x, .ok xs => .ok (x :: xs)
    | .ok _, .error misfits => .error misfits
    | .error misfits, .ok _ => .error misfits
    | .error misfits, .error more => .error (misfits ++ more)

def readList {β : Type} (location : String) (read : String → Json → Except (List Misfit) β) :
    Json → Except (List Misfit) (List β)
  | .array items =>
    collect (items.zipIdx.map fun (item, i) => read s!"{location}.{i}" item)
  | _ => .error [⟨location, .listType⟩]

def readRows (rows : Json) : Except (List Misfit) (List (List Json)) :=
  readList "rows" (fun location row => readList location readCell row) rows

/-- A request from its fields; unknown ones do not count. -/
def read (fields : List (String × Json)) : Except (List Misfit) Request :=
  let size : Except (List Misfit) Int := match Json.find? "size" fields with
    | some size => size.toInteger.mapError fun mismatch => [⟨"size", mismatch⟩]
    | none => .error [⟨"size", .missing⟩]
  let rows := match Json.find? "rows" fields with
    | some rows => readRows rows
    | none => .error [⟨"rows", .missing⟩]
  match size, rows with
  | .ok size, .ok rows => .ok ⟨size, rows⟩
  | .error misfits, .ok _ => .error (Misfit.sort misfits)
  | .ok _, .error misfits => .error (Misfit.sort misfits)
  | .error misfits, .error more => .error (Misfit.sort (misfits ++ more))

end Request

namespace Reply

def ofReport {n : Nat} (r : Report Double n) : Except Fault Reply := do
  let solution ← match r.solution with
    | some x => some <$> x.toList.mapM Complex.text
    | none => pure none
  return {
    classification := r.classification
    solution
    freeVariables := r.freeVariables
    operations := r.operations
    steps := r.steps
    finalAnswer := r.finalAnswer
    verificationSteps := r.verificationSteps }

end Reply

namespace Service

/-- A fault of the input's shape is the sender's, any other one the solver's. -/
def refusal (fault : Fault) : ServiceFault :=
  if fault.isStructural then .refused 400 fault.message
  else .refused 500 ("Solver error: " ++ fault.message)

/-- The report on a system under given settings, with the records of the run. -/
def solve (settings : Settings) (s : SizedSystem) :
    Except Fault (Report Double s.size) × List Record :=
  let (report, run) := s.system.solve settings.verifySolution settings.verifyTolerance
  (report, run.log.toList)

/-- The reply to a request with the given fields, under the settings of a file. -/
def reply (settingsFile : Option ByteArray) (fields : List (String × Json)) :
    Except ServiceFault Reply × List Record :=
  match Request.read fields with
  | .error misfits => (.error (.invalid misfits), [])
  | .ok request =>
    if request.rows.isEmpty then (.error (.refused 400 "Matrix rows cannot be empty."), [])
    else
      match Settings.get settingsFile with
      | .error fault => (.error (.settings fault), [])
      | .ok (settings, log) =>
        match SizedSystem.build request.size (request.rows.map .array) settings.tolerance with
        | .error fault => (.error (refusal fault), log)
        | .ok s =>
          let (report, more) := solve settings s
          ((report.bind Reply.ofReport).mapError refusal, log ++ more)

end Service

end GaussJordan
