/-!
# GaussJordan.Fault

Why an operation could not answer. `Fault` lists the causes and `Fault.message` words them; the
outcomes "no solution" and "infinitely many solutions" are results and not faults.
-/

namespace GaussJordan

/-- What is wrong with a text, a list of rows or a row that should make up a system. -/
inductive Malformed where
  | emptyToken
  | invalidCharacters (token : String) (bad : List Char)
  | notLiteral (token : String)
  | unreadable (token : String)
  | notFinite (token : String)
  | notNumber (shown : String)
  | emptyInput
  | sizeNotInteger (token : String)
  | tooFewValues (size given : Nat)
  | shortRow (given : Nat)
  | rowCount (expected : Int) (given : Nat)
  | rowLength (row given : Nat) (expected : Int)
  | unequalRows (added own : Nat)
  | undecodable (path detail : String)

/-- The words for it. About a token that is no number in spite of its form, the words of the
exception behind it would follow after `Error:`; they are left out. -/
def Malformed.message : Malformed → String
  | .emptyToken => "Empty numeric token"
  | .invalidCharacters token bad =>
    let shown := " ".intercalate (bad.map Char.toString)
    s!"Invalid character(s) in '{token}': {shown}"
  | .notLiteral token => s!"Not a numeric literal: '{token}'"
  | .unreadable token => s!"Could not parse number: '{token}'. Error:"
  | .notFinite token => s!"Not a finite number: '{token}'"
  | .notNumber shown => s!"Not a number: {shown}"
  | .emptyInput => "Input is empty; expected the matrix size first"
  | .sizeNotInteger token => s!"Matrix size must be an integer, got '{token}'"
  | .tooFewValues size given =>
    let width := size + 1
    let needed := size * width
    s!"Expected {needed} values for a {size}x{width} matrix, got {given}"
  | .shortRow given =>
    s!"A row needs at least one coefficient and a constant term, got {given} value(s)"
  | .rowCount expected given => s!"Expected {expected} rows, got {given}"
  | .rowLength row given expected => s!"Row {row} has {given} terms, expected {expected}"
  | .unequalRows added own => s!"Cannot add a row of length {added} to one of length {own}"
  | .undecodable path detail => s!"Input file {path} is not valid UTF-8 text: {detail}"

inductive Fault where
  | invalidSize (size : Int)
  | malformed (cause : Malformed)
  | rowIndex (index : Int)
  | columnIndex (index : Int)
  | divisionByZero (dividend : String)
  | zeroInverse
  /-- The square of a finite number is beyond the finite numbers. -/
  | squareOverflow
  | infiniteText
  | nanText
  | negativePlaces
  /-- More decimals are asked for than a number can be written with. -/
  | manyPlaces
  | integerTooLarge
  /-- An integer has too many digits to be written. -/
  | longInteger
  | notComplex (kind : String)
  | unsupportedOperand
  | immutable
  | alreadyRun
  /-- The search for a pivot row came back empty after a column was brought in. -/
  | pivotLost
  | unknownName (name : String)
  /-- A proposed solution has another number of values than the system has unknowns. -/
  | solutionLength

namespace Fault

/-- Faults of the input's shape, as opposed to faults of the arithmetic. -/
def isStructural : Fault → Bool
  | .invalidSize _ | .malformed _ | .rowIndex _ | .columnIndex _
  | .divisionByZero _ | .zeroInverse => true
  | _ => false

def message : Fault → String
  | .invalidSize size => s!"Invalid matrix size: {size}"
  | .malformed cause => cause.message
  | .rowIndex index => s!"Invalid row index: {index}"
  | .columnIndex index => s!"Invalid column index: {index}"
  | .divisionByZero dividend => s!"Cannot divide {dividend} by zero"
  | .zeroInverse => "Zero has no multiplicative inverse"
  | .squareOverflow => "(34, 'Numerical result out of range')"
  | .infiniteText => "cannot convert float infinity to integer"
  | .nanText => "cannot convert float NaN to integer"
  | .negativePlaces => "Format specifier missing precision"
  | .manyPlaces => "precision too big"
  | .integerTooLarge => "int too large to convert to float"
  | .longInteger => "the integer has too many digits"
  | .notComplex kind => s!"Cannot convert {kind} to ComplexNumber"
  | .unsupportedOperand => "unsupported operand"
  | .immutable => "ComplexNumber is immutable"
  | .alreadyRun => "EliminationDriver.solve() may only be called once"
  | .pivotLost => "no row holds the pivot"
  | .unknownName name => s!"nothing is kept under the name {name}"
  | .solutionLength => "the solution has the wrong number of values"

end Fault

end GaussJordan
