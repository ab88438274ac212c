/-!
# GaussJordan.Literal.Basic

The written form of a complex value: one or two signed parts, of which the second is imaginary. A
part is a decimal numeral, a fraction of two of them, or the bare unit `i`.

`Literal.read?` reads the whole of a text as a literal. The text is read from left to right and
every reader returns what it leaves: a run of digits, a point, an exponent and a fraction are taken
whenever they are there.
-/

namespace GaussJordan

/-- An unsigned decimal numeral: digits, a point with more digits, and an exponent with its sign.
There is at least one digit before or after the point. -/
structure Numeral where
  whole : List Char
  fraction : Option (List Char)
  exponent : Option (Bool × List Char)

structure Quotient where
  numerator : Numeral
  denominator : Option Numeral

/-- A signed part. Without a quotient it is the unit `i`. -/
structure Part where
  negative : Bool
  size : Option Quotient
  imaginary : Bool

structure Literal where
  first : Part
  second : Option Part

namespace Literal

def readDigits (cs : List Char) : List Char × List Char :=
  (cs.takeWhile Char.isDigit, cs.dropWhile Char.isDigit)

theorem readDigits_append (cs : List Char) : (readDigits cs).1 ++ (readDigits cs).2 = cs :=
  List.takeWhile_append_dropWhile

theorem readDigits_isDigit (cs : List Char) : ∀ c ∈ (readDigits cs).1, c.isDigit :=
  List.all_eq_true.1 List.all_takeWhile

/-- A sign at the front of a text: whether it is a minus. -/
def readSign? : List Char → Option (Bool × List Char)
  | '+' :: rest => some (false, rest)
  | '-' :: rest => some (true, rest)
  | _ => none

/-- An exponent: `e`, maybe a sign, and at least one digit. -/
def readExponent? : List Char → Option ((Bool × List Char) × List Char)
  | 'e' :: rest =>
    let (negative, rest) := (readSign? rest).getD (false, rest)
    match readDigits rest with
    | ([], _) => none
    | (ds, rest) => some ((negative, ds), rest)
  | _ => none

/-- Digits with maybe a point and maybe digits after it, or a point with at least one digit. -/
def readMantissa? (cs : List Char) : Option ((List Char × Option (List Char)) × List Char) :=
  match readDigits cs with
  | ([], '.' :: rest) =>
    match readDigits rest with
    | ([], _) => none
    | (ds, rest) => some (([], some ds), rest)
  | ([], _) => none
  | (whole, '.' :: rest) =>
    let (ds, rest) := readDigits rest
    some ((whole, some ds), rest)
  | (whole, rest) => some ((whole, none), rest)

def readNumeral? (cs : List Char) : Option (Numeral × List Char) := do
  let ((whole, fraction), rest) ← readMantissa? cs
  match readExponent? rest with
  | some (exponent, rest) => return (⟨whole, fraction, some exponent⟩, rest)
  | none => return (⟨whole, fraction, none⟩, rest)

def readQuotient? (cs : List Char) : Option (Quotient × List Char) := do
  let (numerator, rest) ← readNumeral? cs
  match rest with
  | '/' :: rest => do
    let (denominator, rest) ← readNumeral? rest
    return (⟨numerator, some denominator⟩, rest)
  | _ => return (⟨numerator, none⟩, rest)

def readPart? (negative : Bool) : List Char → Option (Part × List Char)
  | 'i' :: rest => some (⟨negative, none, true⟩, rest)
  | cs => do
    let (size, rest) ← readQuotient? cs
    match rest with
    | 'i' :: rest => return (⟨negative, some size, true⟩, rest)
    | _ => return (⟨negative, some size, false⟩, rest)

/-- A text as a literal: the first part may have a sign, and the second one must. -/
def read? (cs : List Char) : Option Literal := do
  let (negative, rest) := (readSign? cs).getD (false, cs)
  let (first, rest) ← readPart? negative rest
  match rest with
  | [] => return ⟨first, none⟩
  | rest => do
    let (negative, rest) ← readSign? rest
    let (second, rest) ← readPart? negative rest
    if second.imaginary && rest.isEmpty then return ⟨first, some second⟩ else none

end Literal

end GaussJordan
