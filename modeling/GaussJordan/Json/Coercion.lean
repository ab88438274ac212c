import GaussJordan.Json.Reader
import GaussJordan.Literal.Basic
import GaussJordan.Text.Blank

/-!
# GaussJordan.Json.Coercion

JSON values where a number, an integer, a truth value or a text is wanted. Numbers may also be
written as strings, booleans count as one and zero, and some words count as booleans. Each way to
miss has a name under which it is reported.
-/

namespace GaussJordan

inductive Mismatch where
  | missing
  | floatType
  | floatParsing
  | greaterThan
  | intType
  | intParsing
  | intParsingSize
  | intFromFloat
  | finiteNumber
  | boolType
  | boolParsing
  | stringType
  | listType
  | valueError

def Mismatch.name : Mismatch → String
  | .missing => "missing"
  | .floatType => "float_type"
  | .floatParsing => "float_parsing"
  | .greaterThan => "greater_than"
  | .intType => "int_type"
  | .intParsing => "int_parsing"
  | .intParsingSize => "int_parsing_size"
  | .intFromFloat => "int_from_float"
  | .finiteNumber => "finite_number"
  | .boolType => "bool_type"
  | .boolParsing => "bool_parsing"
  | .stringType => "string_type"
  | .listType => "list_type"
  | .valueError => "value_error"

/-- Where in a request or a record a value does not fit, and how. -/
structure Misfit where
  location : String
  mismatch : Mismatch

/-- Ordered by location and then by name. -/
def Misfit.sort (misfits : List Misfit) : List Misfit :=
  misfits.mergeSort fun a b =>
    a.location < b.location || (a.location == b.location && a.mismatch.name ≤ b.mismatch.name)

namespace Json

/-- White space around a number; the separators of ASCII do not belong to it. -/
def isNumberSpace (c : Char) : Bool := Text.isBlank c && !(0x1c ≤ c.toNat && c.toNat ≤ 0x1f)

def trimNumber (cs : List Char) : List Char :=
  ((cs.dropWhile isNumberSpace).reverse.dropWhile isNumberSpace).reverse

def hasDoubleUnderscore : List Char → Bool
  | '_' :: '_' :: _ => true
  | _ :: rest => hasDoubleUnderscore rest
  | [] => false

/-- The characters without underscores, which have to stand alone and inside. -/
def withoutUnderscores? (cs : List Char) : Option (List Char) :=
  if cs.contains '_' && cs.head? != some '_' && cs.getLast? != some '_' &&
      !hasDoubleUnderscore cs then
    some (cs.filter (· != '_'))
  else none

/-! ## Numbers written as strings -/

/-- A decimal number: digits with maybe a point among or around them, and maybe an exponent. -/
def decimalText? (negative : Bool) (cs : List Char) : Option Double :=
  let (whole, rest) := (cs.takeWhile Char.isDigit, cs.dropWhile Char.isDigit)
  let (fraction, rest) := match rest with
    | '.' :: rest => (rest.takeWhile Char.isDigit, rest.dropWhile Char.isDigit)
    | rest => ([], rest)
  if whole.isEmpty && fraction.isEmpty then none
  else
    match readExponent rest with
    | (exponent, []) =>
      some (decimalDouble negative (whole ++ fraction) (exponent.getD 0 - fraction.length))
    | _ => none

def doubleText? (cs : List Char) : Option Double :=
  let (negative, rest) := (Literal.readSign? cs).getD (false, cs)
  let word := String.ofList (rest.map Char.toLower)
  if word = "inf" || word = "infinity" then some (.infinite negative)
  else if word = "nan" then some .nan
  else decimalText? negative rest

/-- The digits of an integer without zeros in front; a number may end in a point and zeros. -/
def significantInteger? (cs : List Char) : Option (List Char) :=
  match cs with
  | '0' :: rest =>
    match rest.dropWhile fun c => c = '0' || c = '_' with
    | [] => if rest.getLast? = some '_' then none else some ['0']
    | '.' :: rest => some ('0' :: '.' :: rest)
    | c :: rest => if c.isDigit then some (c :: rest) else none
  | c :: _ => if c.isDigit || c = '-' then some cs else none
  | [] => none

/-- An integer as in JSON: a minus at most, and no zeros in front. -/
def plainInteger? (cs : List Char) : Option Int :=
  let (negative, ds) := match cs with
    | '-' :: rest => (true, rest)
    | cs => (false, cs)
  if ds.isEmpty || !ds.all Char.isDigit || (ds.head? = some '0' && 1 < ds.length) then none
  else
    let n : Int := Nat.ofDigitChars 10 ds 0
    some (if negative then -n else n)

/-- An integer: blanks around it, a plus, zeros in front, single underscores and a point with zeros
behind are passed over. -/
def integerText (cs : List Char) : Except Mismatch Int :=
  let trimmed := trimNumber cs
  let unsigned? := match trimmed with
    | '+' :: '-' :: _ => none
    | '+' :: rest => some rest
    | cs => some cs
  let bare? := do
    let significant ← significantInteger? (← unsigned?)
    let whole := significant.takeWhile (· != '.')
    let behind := significant.drop (whole.length + 1)
    let whole := if behind.all (· == '0') then whole else significant
    plainInteger? ((withoutUnderscores? whole).getD whole)
  match bare? with
  | some i => if 4300 < (Nat.toDigits 10 i.natAbs).length then .error .intParsingSize else .ok i
  | none => .error .intParsing

/-! ## Values -/

def toDouble : Json → Except Mismatch Double
  | .integer i => let x := Double.ofInt i; if x.isInfinite then .error .floatType else .ok x
  | .bool b => .ok (if b then .one else .zero)
  | .real x => .ok x
  | .string s =>
    let cs := s.toList
    match doubleText? (trimNumber cs) with
    | some x => .ok x
    | none =>
      match (withoutUnderscores? cs).bind doubleText? with
      | some x => .ok x
      | none => .error .floatParsing
  | _ => .error .floatType

def toPositive (value : Json) : Except Mismatch Double := do
  let x ← value.toDouble
  if Double.lt .zero x then return x else throw .greaterThan

def integerOfDouble : Double → Except Mismatch Int
  | .finite s u _ =>
    if u % unitsPerOne ≠ 0 then .error .intFromFloat
    else
      let n := u / unitsPerOne
      if n < Nat.pow 2 63 then .ok (if s then -(n : Int) else n) else .error .intParsingSize
  | _ => .error .finiteNumber

def toInteger : Json → Except Mismatch Int
  | .integer i => .ok i
  | .bool b => .ok (if b then 1 else 0)
  | .real x => integerOfDouble x
  | .string s => integerText s.toList
  | _ => .error .intType

def trueWords : List String := ["1", "true", "t", "yes", "y", "on"]

def falseWords : List String := ["0", "false", "f", "no", "n", "off"]

def toBool : Json → Except Mismatch Bool
  | .bool b => .ok b
  | .integer 0 => .ok false
  | .integer 1 => .ok true
  | .integer _ => .error .boolParsing
  | .real x =>
    match integerOfDouble x with
    | .ok 0 => .ok false
    | .ok 1 => .ok true
    | _ => .error .boolParsing
  | .string s =>
    let word := String.ofList (s.toList.map Char.toLower)
    if trueWords.contains word then .ok true
    else if falseWords.contains word then .ok false
    else .error .boolParsing
  | _ => .error .boolType

end Json

end GaussJordan
