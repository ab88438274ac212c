import GaussJordan.Log
import GaussJordan.Operation
import GaussJordan.Verification

/-!
# GaussJordan.Reduction

The reduction of a system, step by step: forward elimination to row echelon form, classification,
undoing of the column exchanges and reduction above the pivots.

A run acts on a `Reduction`, which holds the system as reduced so far with everything narrated
about it. A fault ends the run and leaves the `Reduction` as it was at that point, so what was done
up to then can still be seen.

* `perform` carries out one operation and records it: first the system changes, then the
  operation is written, then the picture of the system is taken. A system that cannot be
  written therefore stops the run at once.
* `forwardEliminate` places pivots down the diagonal; `bringPivot` looks for the next one.
  `reachEchelon` is a run up to row echelon form.
* `backReduce` clears the terms above the pivots from the last column to the first.
* `solve` is a whole run.
-/

namespace GaussJordan

inductive Classification where
  | solved
  | noSolution
  | infiniteSolutions
  deriving DecidableEq

def Classification.name : Classification → String
  | .solved => "solved"
  | .noSolution => "no_solution"
  | .infiniteSolutions => "infinite_solutions"

inductive Stage where
  | degenerate
  | forwardElimination
  | undoSwaps
  | backReduction
  | finished (classification : Classification)
  deriving DecidableEq

def Stage.name : Stage → String
  | .degenerate => "degenerate"
  | .forwardElimination => "forward_elimination"
  | .undoSwaps => "undo_swaps"
  | .backReduction => "back_reduction"
  | .finished classification => classification.name

/-- An entry of a history of column exchanges: of the system at hand, or of another one, which
is only named here. -/
inductive Recorded (n : Nat) where
  | own (first second : Fin n)
  | other (text : String)

namespace Recorded

def text {n : Nat} : Recorded n → String
  | .own i j => columnSwapText (Operation.number i) (Operation.number j)
  | .other text => text

def undo {α : Type} {n : Nat} : Recorded n → System α n → System α n
  | .own i j, m => m.swapColumns i j
  | .other _, m => m

end Recorded

structure Note where
  description : String
  expression : String
  explanation : String

def numberSteps (notes : List Note) : List Step :=
  (notes.zipIdx 1).map fun (note, i) =>
    ⟨i, note.description, note.expression, note.explanation⟩

structure Reduction (α : Type) (n : Nat) where
  system : System α n
  /-- The most recent exchange comes first. -/
  history : List (Recorded n) := []
  stage : Option Stage := none
  /-- The recorded operations with their texts. -/
  operations : Array (Operation α n × String) := #[]
  columnSwaps : Nat := 0
  notes : Array Note := #[]
  log : Array Record := #[]

/-- A computation on a reduction that may end in a fault. -/
abbrev Run (α : Type) (n : Nat) := EStateM Fault (Reduction α n)

inductive Validation where
  | skipped
  | passed
  | failed
  deriving DecidableEq

def Validation.name : Validation → String
  | .skipped => "skipped"
  | .passed => "pass"
  | .failed => "fail"

structure Report (α : Type) (n : Nat) where
  classification : Classification
  solution : Option (Vector (Complex α) n)
  freeVariables : Nat
  operations : List String
  columnSwaps : Nat
  steps : List Step
  finalAnswer : String
  verificationSteps : List Step
  validation : Validation

structure Summary where
  totalSteps : Nat
  verificationSteps : Nat
  validation : Validation

def Report.summary {α : Type} {n : Nat} (report : Report α n) : Summary :=
  ⟨report.steps.length, report.verificationSteps.length, report.validation⟩

def noSolutionsText : String := "No solutions"

def infiniteSolutionsText : String := "Infinitely many solutions"

namespace Reduction

variable {α : Type} [Scalar α] {n : Nat}

def lift {β : Type} : Except Fault β → Run α n β
  | .ok b => pure b
  | .error fault => throw fault

/-! ## Narration -/

def emit (level : Level) (source : Source) (text : String) : Run α n Unit :=
  modify fun s => { s with log := s.log.push ⟨level, source, text⟩ }

def inform (text : String) : Run α n Unit := emit .info .reduction text

def note (description explanation : String) : Run α n Unit := do
  let picture ← lift (← get).system.text
  modify fun s => { s with notes := s.notes.push ⟨description, picture, explanation⟩ }

/-- A note under a heading that shows the picture in the log too. -/
def announce (heading description explanation : String) : Run α n Unit := do
  let picture ← lift (← get).system.text
  inform s!"{heading}\n{picture}"
  note description explanation

def enter (stage : Stage) : Run α n Unit := modify fun s => { s with stage := some stage }

/-! ## Operations -/

def perform (operation : Operation α n) (explanation : String) : Run α n Unit := do
  modify fun s => { s with system := operation.apply s.system }
  let text ← lift operation.text
  match operation with
  | .swapColumns i j =>
    modify fun s => { s with history := .own i j :: s.history }
    emit .info .swaps text
    modify fun s => { s with columnSwaps := s.columnSwaps + 1 }
  | _ => inform text
  modify fun s => { s with operations := s.operations.push (operation, text) }
  note text explanation

def swapRows (i j : Fin n) : Run α n Unit :=
  let first := Operation.number i
  let second := Operation.number j
  perform (.swapRows i j)
    s!"Swap R{first} and R{second} so the pivot position holds a non-zero term."

/-- Takes back every recorded column exchange, the most recent one first. -/
def undoSwaps : List (Recorded n) → Run α n Unit
  | [] => pure ()
  | entry :: rest => do
    let text := entry.text
    modify fun s => { s with system := entry.undo s.system, history := rest }
    emit .info .swaps s!"undo {text}"
    undoSwaps rest

/-! ## Forward elimination -/

/-- Moves a nonzero term to the diagonal position of the pivot, by an exchange of rows or of
columns and rows. The answer is false if no row from the pivot's on has one in a column from the
pivot's on. -/
def bringPivot (pivot : Fin n) : Run α n Bool := do
  let m := (← get).system
  match m.findRow pivot pivot with
  | some row => do
    swapRows pivot row
    return true
  | none =>
    match m.findColumn (pivot + 1) pivot with
    | none => return false
    | some column => do
      let here := Operation.number pivot
      let there := Operation.number column
      perform (.swapColumns pivot column)
        (s!"Column {here} is zero from R{here} down, so column {there} " ++
          "takes its place. The swap is undone before back-substitution.")
      let m := (← get).system
      if m.isZeroAt pivot pivot then
        match m.findRow pivot pivot with
        | some row => swapRows pivot row
        | none => throw .pivotLost
      return true

def normalize (pivot : Fin n) : Run α n Unit := do
  let m := (← get).system
  let factor ← lift (m.coefficient pivot pivot).inverse
  if factor.isOne m.tolerance then return
  let row := Operation.number pivot
  perform (.scale factor pivot) s!"Scale R{row} so the pivot at ({row}, {row}) becomes 1."

def eliminateRow (pivotTerm : Complex α) (pivot row : Fin n) : Run α n Unit := do
  let m := (← get).system
  let factor := -(← lift ((m.coefficient row pivot).div pivotTerm))
  if factor.isZero m.tolerance then return
  let source := Operation.number pivot
  let target := Operation.number row
  perform (.addScaled factor pivot row)
    s!"Clear column {source} of R{target} using the pivot row R{source}."

def rowsBelow (pivot : Fin n) : List (Fin n) := (List.finRange n).filter (pivot < ·)

def eliminateBelow (pivot : Fin n) : Run α n Unit := do
  let pivotTerm := (← get).system.coefficient pivot pivot
  (rowsBelow pivot).forM (eliminateRow pivotTerm pivot)

/-- Whether the pivot's place holds a nonzero term, now or after an exchange. -/
def findPivot (pivot : Fin n) : Run α n Bool := do
  let m := (← get).system
  if m.isZeroAt pivot pivot then bringPivot pivot else return true

/-- Places the pivots one after the other and stops early if all that is left is zero. The answer
is the number of pivots placed. -/
def placePivots : List (Fin n) → Run α n Nat
  | [] => return 0
  | pivot :: rest => do
    if ← findPivot pivot then
      normalize pivot
      eliminateBelow pivot
      let placed ← placePivots rest
      return placed + 1
    else return 0

def forwardEliminate : Run α n Nat := do
  enter .forwardElimination
  placePivots (List.finRange n)

/-! ## Reduction above the pivots -/

def reduceRow (column row : Fin n) : Run α n Unit := do
  let m := (← get).system
  let factor := -(m.coefficient row column)
  if factor.isZero m.tolerance then return
  let source := Operation.number column
  let target := Operation.number row
  perform (.addScaled factor column row) s!"Clear column {source} of R{target} above the pivot."

def rowsAbove (column : Fin n) : List (Fin n) :=
  ((List.finRange n).filter (· < column)).reverse

def backReduce : Run α n Unit := do
  enter .backReduction
  (List.finRange n).reverse.forM fun column => (rowsAbove column).forM (reduceRow column)

/-! ## The whole run -/

/-- Whether and how the solution is to be checked against the system as it was given. -/
structure Check (α : Type) (n : Nat) where
  enabled : Bool
  tolerance : α
  original : System α n

/-- Checks a solution if there is one and the check is wanted. -/
def validate (check : Check α n) :
    Option (Vector (Complex α) n) → Run α n (List Step × Validation)
  | none => return ([], .skipped)
  | some x => do
    if check.enabled then
      let verdict ← lift (check.original.verify check.tolerance x)
      if verdict.passed then return (verdict.steps, .passed)
      emit .warning .reduction "Solution does not satisfy the original system"
      return (verdict.steps, .failed)
    else return ([], .skipped)

/-- The answer as it is written: the values of the unknowns line by line, or the classification. -/
def answerText : Classification → Option (Vector (Complex α) n) → Except Fault String
  | .solved, some x => do return "\n".intercalate (← x.toList.mapM Complex.text)
  | .noSolution, _ => .ok noSolutionsText
  | _, _ => .ok infiniteSolutionsText

def finish (check : Check α n) (classification : Classification)
    (solution : Option (Vector (Complex α) n)) (freeVariables : Nat) : Run α n (Report α n) := do
  enter (.finished classification)
  let answer ← lift (answerText classification solution)
  let (verificationSteps, validation) ← validate check solution
  let s ← get
  return {
    classification, solution, freeVariables
    operations := s.operations.toList.map (·.2)
    columnSwaps := s.columnSwaps
    steps := numberSteps s.notes.toList
    finalAnswer := answer
    verificationSteps, validation }

def plural (count : Nat) : String := if count = 1 then "" else "s"

/-- Every coefficient is zero: the constant terms decide, each row for itself. Their sum is only
reported, since `1` and `-1` cancel although the system reads `0 = 1`. -/
def classifyDegenerate (check : Check α n) : Run α n (Report α n) := do
  enter .degenerate
  let m := (← get).system
  let total ← lift m.sumOfConstants.text
  note "All coefficients are zero"
    s!"Every equation reads 0 = c; sum of constant terms = {total}."
  if m.isInconsistent then
    inform noSolutionsText
    finish check .noSolution none 0
  else
    inform infiniteSolutionsText
    finish check .infiniteSolutions none n

/-- From the end of forward elimination with a pivot in every column to the solution. -/
def completeSolution (check : Check α n) : Run α n (Report α n) := do
  enter .undoSwaps
  undoSwaps (← get).history
  inform "-----Performing Gauss-Jordan elimination----"
  backReduce
  announce "-----Reduced Row Echelon----" "Reduced row echelon form"
    "The coefficient block is the identity; the constant column is the solution."
  let x := (← get).system.constants
  let values := "\n".intercalate (← lift (x.toList.mapM Complex.text))
  inform s!"-----Final Result----\n{values}"
  finish check .solved (some x) 0

/-- Classifies a system in row echelon form and solves it if it has one solution. -/
def classify (check : Check α n) : Run α n (Report α n) := do
  let m := (← get).system
  if m.isInconsistent then
    inform "No solutions - inconsistent"
    note "Inconsistent system"
      "A row has only zero coefficients but a non-zero constant term (0 = c)."
    finish check .noSolution none 0
  else
    let free := m.freeVariables
    if 0 < free then
      inform s!"Infinitely many solutions - has {free} free variables"
      let ending := plural free
      note "Free variables"
        s!"{free} variable{ending} never received a pivot, so the system is underdetermined."
      finish check .infiniteSolutions none free
    else completeSolution check

/-- Brings the row with the leftmost nonzero coefficient to the top. -/
def leadWith (row : Fin n) : Run α n Unit := do
  if h : 0 < row.val then swapRows ⟨0, by omega⟩ row

/-- From the input to row echelon form. The answer is the number of pivots placed, or nothing if
every coefficient is zero. -/
def reachEchelon : Run α n (Option Nat) := do
  let ending := plural n
  announce "-----Input matrix----" "Input matrix"
    s!"{n} equation{ending} in {n} unknown{ending}."
  match (← get).system.findFirstRow with
  | none => return none
  | some row => do
    leadWith row
    inform "-----Performing Gaussian elimination----"
    let placed ← forwardEliminate
    announce "-----Row Echelon----" "Row echelon form" "Every term below the pivots is zero."
    return some placed

def solve (check : Check α n) : Run α n (Report α n) := do
  match ← reachEchelon with
  | none => classifyDegenerate check
  | some _ => classify check

end Reduction

namespace System

variable {α : Type} [Scalar α] {n : Nat}

/-- A fresh run over a system: the report or the fault, and where the run ended. -/
def solve (m : System α n) (verify : Bool) (verifyTolerance : α) :
    Except Fault (Report α n) × Reduction α n :=
  match Reduction.solve ⟨verify, verifyTolerance, m⟩ { system := m } with
  | .ok report s => (.ok report, s)
  | .error fault s => (.error fault, s)

end System

end GaussJordan
