import GaussJordan.Json.Basic
import GaussJordan.Literal.Token
import GaussJordan.Log
import GaussJordan.Operand
import GaussJordan.System
import GaussJordan.Text.Digit
import GaussJordan.Text.Utf8

/-!
# GaussJordan.System.Reading

Systems from lists of values, from a text, and from the bytes of a file. A text gives the size `n`
first and then the `n` rows of `n + 1` values, all separated by blanks; what comes after them is
ignored with a warning.

The faults are looked for in this order: the values, row by row; the size; rows that are too short
for any system; the number of rows; the lengths of the rows. In a text the size and the number of
values come first.
-/

namespace GaussJordan

/-- The fault whose message shows the integer `n`. One of too many digits cannot be written, and
then there is no such message. -/
def Fault.showing (n : Nat) (fault : Fault) : Fault :=
  if Numeral.maxDigits < (Nat.toDigits 10 n).length then .longInteger else fault

structure Grid (β : Type) where
  size : Nat
  rows : Vector (Vector β (size + 1)) size

structure SizedSystem where
  size : Nat
  system : System Double size

/-- The distance from zero below which a part counts as zero unless something else is said. -/
def defaultTolerance : Double := .ofRatio false 1 (Nat.pow 10 9)

/-- The largest residual of a solution that passes unless something else is said. -/
def defaultVerifyTolerance : Double := .ofRatio false 1 (Nat.pow 10 8)

def toVector? {β : Type} (n : Nat) (xs : List β) : Option (Vector β n) :=
  if h : xs.length = n then some ⟨xs.toArray, by simpa using h⟩ else none

namespace Grid

variable {β : Type}

/-- A row has a coefficient and a constant term at least. -/
def checkRow (row : List β) : Except Fault (List β) :=
  if row.length < 2 then .error (.malformed (.shortRow row.length)) else .ok row

def sizedRows (n : Nat) (number : Nat) : List (List β) → Except Fault (List (Vector β (n + 1)))
  | [] => .ok []
  | row :: rest =>
    match toVector? (n + 1) row with
    | none => .error (.malformed (.rowLength number row.length (n + 1)))
    | some cells => do return cells :: (← sizedRows n (number + 1) rest)

/-- A grid of the given size from its rows, each of which may have a fault of its own. -/
def ofRows (size : Int) (rows : List (Except Fault (List β))) : Except Fault (Grid β) := do
  if size < 1 then throw (.showing size.natAbs (.invalidSize size))
  let rows ← rows.mapM fun row => row.bind checkRow
  let n := size.toNat
  match toVector? n rows with
  | none => throw (.showing size.natAbs (.malformed (.rowCount size rows.length)))
  | some _ =>
    let sized ← sizedRows n 1 rows
    match toVector? n sized with
    | some sized => return ⟨n, sized⟩
    | none => throw (.showing size.natAbs (.malformed (.rowCount size rows.length)))

end Grid

namespace SizedSystem

def ofRows (size : Int) (rows : List (List (Complex Double))) (tolerance : Double) :
    Except Fault SizedSystem := do
  let grid ← Grid.ofRows size (rows.map .ok)
  return ⟨grid.size, ⟨tolerance, grid.rows⟩⟩

/-- A cell of a list of rows: a number, or a token to be read. -/
def cellValue : Json → Except Fault (Complex Double)
  | .string token => readValue token
  | .integer i => (Operand.integer i).toComplex
  | .bool b => (Operand.integer (if b then 1 else 0)).toComplex
  | .real x => (Operand.real x).toComplex
  | cell => .error (.showing cell.largestInteger (.malformed (.notNumber cell.display)))

def rowValues (row : Json) : Except Fault (List (Complex Double)) :=
  match row.elements? with
  | some cells => cells.mapM cellValue
  | none => .error .unsupportedOperand

def build (size : Int) (rows : List Json) (tolerance : Double) : Except Fault SizedSystem := do
  ofRows size (← rows.mapM rowValues) tolerance

end SizedSystem

/-! ## Text -/

/-- The digits of an integer, with single underscores between digits. -/
def integerDigits? : List Char → Option (List Nat)
  | [] => none
  | [c] => (Text.digitValue? c).map ([·])
  | c :: '_' :: rest => do
    let d ← Text.digitValue? c
    return d :: (← integerDigits? rest)
  | c :: rest => do
    let d ← Text.digitValue? c
    return d :: (← integerDigits? rest)

/-- An integer with one sign at most and at most 4300 digits of any script. -/
def readInteger? (cs : List Char) : Option Int :=
  let (negative, rest) := (Literal.readSign? cs).getD (false, cs)
  match integerDigits? rest with
  | none => none
  | some ds =>
    if Numeral.maxDigits < ds.length then none
    else
      let n : Nat := ds.foldl (fun n d => 10 * n + d) 0
      some (if negative then -(n : Int) else n)

/-- A list in pieces of the given length; what is left over makes up no piece. -/
def pieces {β : Type} (width : Nat) : (count : Nat) → List β → List (List β)
  | 0, _ => []
  | count + 1, xs => xs.take width :: pieces width count (xs.drop width)

namespace SizedSystem

/-- The warning that a text goes on after its last value. -/
def surplusRecord (count : Nat) : Record :=
  ⟨.warning, .reading, s!"Ignoring {count} surplus value(s) after the matrix"⟩

/-- The message shows how many values the size asks for. -/
def tooFew (size given : Nat) : Fault :=
  .showing (size * (size + 1)) (.malformed (.tooFewValues size given))

/-- A system from a text, with the records of reading it. -/
def ofText (text : List Char) (tolerance : Double) : Except Fault SizedSystem × List Record :=
  match Text.words text with
  | [] => (.error (.malformed .emptyInput), [])
  | first :: values =>
    match readInteger? first with
    | none => (.error (.malformed (.sizeNotInteger (String.ofList first))), [])
    | some size =>
      if size < 1 then (.error (.invalidSize size), [])
      else
        let n := size.toNat
        let needed := n * (n + 1)
        if values.length < needed then (.error (tooFew n values.length), [])
        else
          let surplus := values.length - needed
          let system := do
            let rows ← (pieces (n + 1) n values).mapM fun row =>
              row.mapM fun token => readValue (String.ofList token)
            ofRows size rows tolerance
          (system, if 0 < surplus then [surplusRecord surplus] else [])

def ofFile (path : String) (bytes : ByteArray) (tolerance : Double) :
    Except Fault SizedSystem × List Record :=
  match Text.ofBytes bytes with
  | .error fault => (.error (.malformed (.undecodable path fault.message)), [])
  | .ok text =>
    let count := text.length
    let (system, log) := ofText text tolerance
    (system, ⟨.debug, .reading, s!"Loaded {count} bytes from {path}"⟩ :: log)

end SizedSystem

end GaussJordan
