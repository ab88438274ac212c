import GaussJordan.Reduction
import GaussJordan.System.Reading

/-!
# GaussJordan.Workspace

Systems, rows, column exchanges, histories and runs kept under names and worked on in turn. A row
taken out of a system stays a row of that system: what is done to it shows there, and exchanging
rows moves it. A run keeps its own history, which can be named too, and is run once at most.

A cell carries an identity besides its value. Copying and moving keep it, and every computation
makes a new one. Two cells are equal if they are identical or have equal values, so that a row with
a NaN equals its copy.
-/

namespace GaussJordan

structure Cell where
  value : Complex Double
  identity : Nat

def Cell.same (a b : Cell) : Bool := a.identity == b.identity || a.value.eq b.value

structure SharedRow where
  size : Nat
  cells : Vector Cell (size + 1)

namespace SharedRow

def values (r : SharedRow) : Row Double r.size := r.cells.map (·.value)

def same (r s : SharedRow) : Bool :=
  r.size == s.size && (r.cells.toList.zip s.cells.toList).all fun (a, b) => a.same b

/-- The place of a 1-based column, the constant one included. -/
def column (r : SharedRow) (i : Int) : Except Fault (Fin (r.size + 1)) := columnIndex (r.size + 1) i

end SharedRow

structure SharedSystem where
  size : Nat
  tolerance : Double
  rows : Vector Nat size

/-- An exchange of two columns of a system, by 1-based indices that are checked when it is done. -/
structure ColumnSwap where
  system : Nat
  first : Int
  second : Int

def ColumnSwap.text (swap : ColumnSwap) : String := columnSwapText swap.first swap.second

structure Attempt where
  system : Nat
  original : SizedSystem
  verify : Bool
  verifyTolerance : Double
  history : Nat
  started : Bool := false
  stage : Option Stage := none
  operations : List String := []
  columnSwaps : Nat := 0

structure Workspace where
  rows : Array SharedRow := #[]
  systems : Array SharedSystem := #[]
  /-- The most recent exchange of a history comes first. -/
  histories : Array (List ColumnSwap) := #[]
  attempts : Array Attempt := #[]
  systemNames : List (String × Nat) := []
  rowNames : List (String × Nat) := []
  swapNames : List (String × ColumnSwap) := []
  historyNames : List (String × Nat) := []
  attemptNames : List (String × Nat) := []
  nextIdentity : Nat := 0
  log : Array Record := #[]

/-- An action keeps what it did before a fault. -/
abbrev Action := EStateM Fault Workspace

namespace Workspace

def lift {β : Type} : Except Fault β → Action β
  | .ok b => pure b
  | .error fault => throw fault

def emit (text : String) : Action Unit :=
  modify fun w => { w with log := w.log.push ⟨.info, .swaps, text⟩ }

/-! ## Names -/

def named {β : Type} (names : List (String × β)) (name : String) : Action β :=
  match Json.find? name names with
  | some b => pure b
  | none => throw (.unknownName name)

def kept {β : Type} (all : Array β) (number : Nat) : Action β :=
  match all[number]? with
  | some b => pure b
  | none => throw (.unknownName (toString number))

def systemNumber (name : String) : Action Nat := do named (← get).systemNames name

def rowNumber (name : String) : Action Nat := do named (← get).rowNames name

def swapNamed (name : String) : Action ColumnSwap := do named (← get).swapNames name

def historyNumber (name : String) : Action Nat := do named (← get).historyNames name

def attemptNumber (name : String) : Action Nat := do named (← get).attemptNames name

def nameSystem (name : String) (number : Nat) : Action Unit :=
  modify fun w => { w with systemNames := Json.put name number w.systemNames }

def nameRow (name : String) (number : Nat) : Action Unit :=
  modify fun w => { w with rowNames := Json.put name number w.rowNames }

def nameHistory (name : String) (number : Nat) : Action Unit :=
  modify fun w => { w with historyNames := Json.put name number w.historyNames }

/-! ## Cells and rows -/

/-- A cell with an identity of its own. -/
def newCell (value : Complex Double) : Action Cell := do
  let w ← get
  set { w with nextIdentity := w.nextIdentity + 1 }
  return ⟨value, w.nextIdentity⟩

def newCells {n : Nat} (values : Vector (Complex Double) n) : Action (Vector Cell n) :=
  values.mapM newCell

def rowAt (number : Nat) : Action SharedRow := do kept (← get).rows number

def setRow (number : Nat) (row : SharedRow) : Action Unit :=
  modify fun w => { w with rows := w.rows.setIfInBounds number row }

def addRow (row : SharedRow) : Action Nat := do
  let w ← get
  set { w with rows := w.rows.push row }
  return w.rows.size

def makeRow (terms : List Cell) : Except Fault SharedRow :=
  match h : terms.length with
  | n + 2 => .ok ⟨n + 1, ⟨terms.toArray, by simpa using h⟩⟩
  | n => .error (.malformed (.shortRow n))

/-! ## Systems -/

def systemAt (number : Nat) : Action SharedSystem := do kept (← get).systems number

def setSystem (number : Nat) (s : SharedSystem) : Action Unit :=
  modify fun w => { w with systems := w.systems.setIfInBounds number s }

def systemRows (s : SharedSystem) : Action (Vector SharedRow s.size) := s.rows.mapM rowAt

def view (s : SharedSystem) : Action (System Double s.size) := do
  let rows ← (← systemRows s).mapM fun row =>
    match toVector? (s.size + 1) row.values.toList with
    | some terms => pure terms
    | none => throw (.unknownName "row")
  return ⟨s.tolerance, rows⟩

def viewNamed (name : String) : Action SizedSystem := do
  let s ← systemAt (← systemNumber name)
  return ⟨s.size, ← view s⟩

/-- Keeps a system of the given cells under a name. -/
def addSystem (name : String) (grid : Grid Cell) (tolerance : Double) : Action SharedSystem := do
  let rows ← grid.rows.mapM fun cells => addRow ⟨grid.size, cells⟩
  let s : SharedSystem := ⟨grid.size, tolerance, rows⟩
  let w ← get
  set { w with systems := w.systems.push s }
  nameSystem name w.systems.size
  return s

/-- A row of a new system: terms, or a copy of a row that is kept. -/
inductive RowSource where
  | terms (terms : List Operand)
  | copyOf (name : String)

def sourceCells : RowSource → Action (List Cell)
  | .terms terms => do
    let values ← lift (terms.mapM Operand.toComplex)
    values.mapM newCell
  | .copyOf name => do return (← rowAt (← rowNumber name)).cells.toList

/-- A new system. The size is checked before the rows, and the rows one after the other. -/
def makeSystem (name : String) (size : Int) (sources : List RowSource) (tolerance : Double) :
    Action SizedSystem := do
  let rows ← sources.mapM fun source => fun w =>
    match (sourceCells source) w with
    | .ok cells w => .ok (Except.ok cells) w
    | .error fault w => .ok (Except.error fault) w
  let grid ← lift (Grid.ofRows size rows)
  let s ← addSystem name grid tolerance
  return ⟨s.size, ← view s⟩

/-- A copy of a system, whose rows are its own and whose cells are the same. -/
def copySystem (name target : String) : Action SizedSystem := do
  let s ← systemAt (← systemNumber name)
  let rows ← (← systemRows s).mapM addRow
  let w ← get
  set { w with systems := w.systems.push { s with rows } }
  nameSystem target w.systems.size
  viewNamed target

def sameSystem (first second : Nat) : Action Bool := do
  let s ← systemAt first
  let t ← systemAt second
  let rows ← s.rows.toList.mapM rowAt
  let others ← t.rows.toList.mapM rowAt
  return s.size == t.size && (rows.zip others).all fun (r, o) => r.same o

def systemsEqual (name other : String) : Action Bool := do
  sameSystem (← systemNumber name) (← systemNumber other)

def setTolerance (name : String) (tolerance : Double) : Action Double := do
  let number ← systemNumber name
  setSystem number { (← systemAt number) with tolerance }
  return tolerance

/-! ## Questions about a system -/

def term (name : String) (row column : Int) : Action (Complex Double) := do
  let s ← viewNamed name
  let i ← lift (rowIndex s.size row)
  let j ← lift (columnIndex s.size column)
  return s.system.coefficient i j

def findRow (name : String) (column start : Int) : Action (Option Nat) := do
  let s ← viewNamed name
  let j ← lift (columnIndex s.size column)
  let i ← lift (rowIndex s.size start)
  return (s.system.findRow j i).map Operation.number

def findFirstRow (name : String) : Action (Option Nat) := do
  return (← viewNamed name).system.findFirstRow.map Operation.number

/-- The search starts at a column that may lie beyond the last one. -/
def findColumn (name : String) (start row : Int) : Action (Option Nat) := do
  let s ← viewNamed name
  let i ← lift (rowIndex s.size row)
  if start > s.size then return none
  let j ← lift (columnIndex s.size start)
  return (s.system.findColumn j i).map Operation.number

/-! ## Exchanges -/

def swapRows (name : String) (first second : Int) : Action SizedSystem := do
  let number ← systemNumber name
  let s ← systemAt number
  let i ← lift (rowIndex s.size first)
  let j ← lift (rowIndex s.size second)
  setSystem number { s with rows := s.rows.swap i j }
  viewNamed name

def exchangeColumns (number : Nat) (first second : Int) : Action Unit := do
  let s ← systemAt number
  let i ← lift (columnIndex s.size first)
  let j ← lift (columnIndex s.size second)
  s.rows.toList.forM fun k => do
    let row ← rowAt k
    if h : row.size = s.size then
      setRow k { row with cells := row.cells.swap i j (by omega) (by omega) }

def swapColumns (name : String) (first second : Int) : Action SizedSystem := do
  exchangeColumns (← systemNumber name) first second
  viewNamed name

/-! ## Rows under names -/

def nameNewRow (name : String) (row : SharedRow) : Action SharedRow := do
  nameRow name (← addRow row)
  return row

def row (name : String) (terms : List Operand) : Action SharedRow := do
  let values ← lift (terms.mapM Operand.toComplex)
  let cells ← values.mapM newCell
  nameNewRow name (← lift (makeRow cells))

/-- The row of a system itself, not a copy of it. -/
def rowOf (name system : String) (index : Int) : Action SharedRow := do
  let s ← systemAt (← systemNumber system)
  let i ← lift (rowIndex s.size index)
  nameRow name s.rows[i]
  rowAt s.rows[i]

def rowNamed (name : String) : Action SharedRow := do rowAt (← rowNumber name)

def setNamedRow (name : String) (row : SharedRow) : Action SharedRow := do
  setRow (← rowNumber name) row
  return row

def rowTerm (name : String) (column : Int) : Action (Complex Double) := do
  let row ← rowNamed name
  return row.cells[← lift (row.column column)].value

/-- The index is checked before the value. -/
def setRowTerm (name : String) (column : Int) (value : Operand) : Action SharedRow := do
  let row ← rowNamed name
  let j ← lift (row.column column)
  let cell ← newCell (← lift value.toComplex)
  setNamedRow name { row with cells := row.cells.set j cell }

def scaled (row : SharedRow) (factor : Operand) : Action SharedRow := do
  let factor ← lift factor.toComplex
  return { row with cells := ← newCells (row.values.scale factor) }

def multipliedRow (name : String) (factor : Operand) (target : String) : Action SharedRow := do
  nameNewRow target (← scaled (← rowNamed name) factor)

def multiplyRow (name : String) (factor : Operand) : Action SharedRow := do
  setNamedRow name (← scaled (← rowNamed name) factor)

def addToRow (name other : String) : Action SharedRow := do
  let row ← rowNamed name
  let added ← rowNamed other
  if h : added.size = row.size then
    let sum := row.values.add (h ▸ added.values)
    setNamedRow name { row with cells := ← newCells sum }
  else throw (.malformed (.unequalRows (added.size + 1) (row.size + 1)))

def swapRowTerms (name : String) (first second : Int) : Action SharedRow := do
  let row ← rowNamed name
  let i ← lift (row.column first)
  let j ← lift (row.column second)
  setNamedRow name { row with cells := row.cells.swap i j }

def copyRow (name target : String) : Action SharedRow := do
  nameNewRow target (← rowNamed name)

def rowsEqual (name other : String) : Action Bool := do
  return (← rowNamed name).same (← rowNamed other)

/-! ## Column exchanges and histories -/

def columnSwap (name system : String) (first second : Int) : Action ColumnSwap := do
  let swap : ColumnSwap := ⟨← systemNumber system, first, second⟩
  modify fun w => { w with swapNames := Json.put name swap w.swapNames }
  return swap

def swapSystem (swap : ColumnSwap) : Action SizedSystem := do
  let s ← systemAt swap.system
  return ⟨s.size, ← view s⟩

def executeSwap (swap : ColumnSwap) : Action Bool := do
  if swap.first = swap.second then return false
  exchangeColumns swap.system swap.first swap.second
  return true

def undoSwap (swap : ColumnSwap) : Action Unit :=
  exchangeColumns swap.system swap.first swap.second

def swapsEqual (a b : ColumnSwap) : Action Bool := do
  let equal ← if a.system = b.system then pure true else sameSystem a.system b.system
  return equal && a.first == b.first && a.second == b.second

def addHistory : Action Nat := do
  let w ← get
  set { w with histories := w.histories.push [] }
  return w.histories.size

def historyAt (number : Nat) : Action (List ColumnSwap) := do kept (← get).histories number

def setHistory (number : Nat) (swaps : List ColumnSwap) : Action Unit :=
  modify fun w => { w with histories := w.histories.setIfInBounds number swaps }

def record (history : String) (swap : ColumnSwap) : Action Bool := do
  let number ← historyNumber history
  let applied ← executeSwap swap
  if applied then
    setHistory number (swap :: (← historyAt number))
    emit swap.text
  return applied

def undoEach (number : Nat) : List ColumnSwap → Action Unit
  | [] => pure ()
  | swap :: rest => do
    setHistory number rest
    undoSwap swap
    let text := swap.text
    emit s!"undo {text}"
    undoEach number rest

/-- Undoes a whole history and tells how many exchanges there were. -/
def undoAll (history : String) : Action Nat := do
  let number ← historyNumber history
  let swaps ← historyAt number
  undoEach number swaps
  return swaps.length

/-! ## Runs -/

def attemptAt (number : Nat) : Action Attempt := do kept (← get).attempts number

/-- Prepares a run over a system. What the solution will be checked against is the system now. -/
def addAttempt (system : Nat) (verify : Bool) (verifyTolerance : Double) : Action Nat := do
  let s ← systemAt system
  let original : SizedSystem := ⟨s.size, ← view s⟩
  let history ← addHistory
  let w ← get
  set { w with attempts := w.attempts.push { system, original, verify, verifyTolerance, history } }
  return w.attempts.size

def prepare (name system : String) (verify : Bool) (verifyTolerance : Double) : Action Unit := do
  let number ← addAttempt (← systemNumber system) verify verifyTolerance
  modify fun w => { w with attemptNames := Json.put name number w.attemptNames }

/-- An exchange as an entry of the history of a run over a system of size `n`. -/
def toRecorded (system n : Nat) (swap : ColumnSwap) : Recorded n :=
  match index? n swap.first, index? n swap.second with
  | some i, some j => if swap.system = system then .own i j else .other swap.text
  | _, _ => .other swap.text

def ofRecorded {n : Nat} (system : Nat) : Recorded n → Option ColumnSwap
  | .own i j => some ⟨system, Operation.number i, Operation.number j⟩
  | .other _ => none

/-- The rows of a system after the exchanges of rows in a run. -/
def movedRows {n : Nat} (rows : Vector Nat n) (operations : List (Operation Double n)) :
    Vector Nat n :=
  operations.foldl (fun rows operation =>
    match operation with
    | .swapRows i j => rows.swap i j i.isLt j.isLt
    | _ => rows) rows

/-- Puts the system that a run left into the rows it belongs to. A run that noted nothing changed
nothing. -/
def storeRun (number : Nat) (s : SharedSystem) (run : Reduction Double s.size) : Action Unit := do
  if run.notes.isEmpty then return
  let rows := movedRows s.rows (run.operations.toList.map (·.1))
  setSystem number { s with rows }
  (rows.toList.zip run.system.rows.toList).forM fun (k, values) => do
    setRow k ⟨s.size, ← newCells values⟩

/-- The history after a run: what the run added before what was there, or nothing if the run
undid it. Exchanges of other systems are undone here. -/
def storeHistory (attempt : Attempt) (before : List ColumnSwap) {n : Nat}
    (after : List (Recorded n)) : Action Unit := do
  if after.length < before.length then
    (before.filter (·.system != attempt.system)).forM undoSwap
    setHistory attempt.history []
  else
    let added := (after.take (after.length - before.length)).filterMap (ofRecorded attempt.system)
    setHistory attempt.history (added ++ before)

/-- Runs a prepared run, which must not have been started before. -/
def runAttempt (number : Nat) : Action ((n : Nat) × Report Double n) := do
  let attempt ← attemptAt number
  if attempt.started then throw .alreadyRun
  let s ← systemAt attempt.system
  let system ← view s
  let before ← historyAt attempt.history
  if h : attempt.original.size = s.size then
    let check : Reduction.Check Double s.size :=
      ⟨attempt.verify, attempt.verifyTolerance, h ▸ attempt.original.system⟩
    let start : Reduction Double s.size :=
      { system, history := before.map (toRecorded attempt.system s.size) }
    let (result, run) := match Reduction.solve check start with
      | .ok report run => (Except.ok report, run)
      | .error fault run => (Except.error fault, run)
    storeRun attempt.system s run
    storeHistory attempt before run.history
    modify fun w => { w with
      log := w.log ++ run.log
      attempts := w.attempts.setIfInBounds number { attempt with
        started := true
        stage := run.stage
        operations := run.operations.toList.map (·.2)
        columnSwaps := run.columnSwaps } }
    return ⟨s.size, ← lift result⟩
  else throw (.unknownName "system")

def runNamed (name : String) : Action ((n : Nat) × Report Double n) := do
  runAttempt (← attemptNumber name)

/-- Runs over a system at once. A tolerance that is given stays with the system. -/
def solveNamed (name : String) (tolerance : Option Double) (verify : Bool)
    (verifyTolerance : Double) : Action ((n : Nat) × Report Double n) := do
  if let some tolerance := tolerance then
    let _ ← setTolerance name tolerance
  runAttempt (← addAttempt (← systemNumber name) verify verifyTolerance)

end Workspace

end GaussJordan
