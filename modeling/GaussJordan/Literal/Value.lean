import GaussJordan.Double
import GaussJordan.Fault
import GaussJordan.Literal.Basic

/-!
# GaussJordan.Literal.Value

The value of a literal. Numerals without point and exponent are exact; the others are binary
floating-point numbers whose precision grows with the number of their digits and whose exponent is
unbounded. Quotients and sums of exact numbers are exact; with a floating-point operand they are
rounded to the larger precision. Only at the end each part becomes a double: an exact one is cut
off after 57 bits, and then every part is rounded to 53 bits and brought into the range of binary64.
An exact part is therefore not always the nearest double: what is cut off can make a half of a
little more than a half, which then goes to the even neighbour.

An integer numeral that starts with `0` is a product of zero and what follows the zeros, so its
value is zero.
-/

namespace GaussJordan

/-- Rounds to `bits` significant bits, half to even, whatever the magnitude. Scaled by a power of
two the quotient has more than `bits` bits, so that the grid of `roundToBits` is the right one. -/
def roundSignificant (bits : Nat) (q : Rat) : Rat :=
  let scale := bits + q.den.log2 + 1
  let size := roundToBits bits (q.num.natAbs * Nat.pow 2 scale) q.den
  mkRat (if q.num < 0 then -(size : Int) else size) (Nat.pow 2 scale)

/-- Cuts off all but the first `bits` significant bits, whatever the magnitude. -/
def truncateSignificant (bits : Nat) (q : Rat) : Rat :=
  let scale := bits + q.den.log2 + 1
  let size := q.num.natAbs * Nat.pow 2 scale / q.den
  let step := Nat.pow 2 (gridShift bits size)
  let kept := size / step * step
  mkRat (if q.num < 0 then -(kept : Int) else kept) (Nat.pow 2 scale)

inductive Quantity where
  | exact (value : Rat)
  | rounded (bits : Nat) (value : Rat)

/-- Why a quantity has no value: it cannot be read at all, or it is infinite or undefined. -/
inductive Unvalued where
  | unreadable
  | notFinite
  deriving DecidableEq

namespace Quantity

def value : Quantity → Rat
  | .exact q => q
  | .rounded _ q => q

def neg : Quantity → Quantity
  | .exact q => .exact (-q)
  | .rounded bits q => .rounded bits (-q)

/-- An exact number over a floating-point one is multiplied by the rounded inverse. -/
def div : Quantity → Quantity → Except Unvalued Quantity
  | .exact a, .exact b => if b = 0 then .error .notFinite else .ok (.exact (a / b))
  | .exact a, .rounded bits b =>
    if b = 0 then .error .notFinite
    else .ok (.rounded bits (roundSignificant bits
      (roundSignificant bits a * roundSignificant bits (1 / b))))
  | .rounded bits a, .exact b =>
    if b = 0 then .error .notFinite
    else .ok (.rounded bits (roundSignificant bits (a / roundSignificant bits b)))
  | .rounded bits a, .rounded bits' b =>
    if b = 0 then .error .unreadable
    else .ok (.rounded (max bits bits') (roundSignificant (max bits bits') (a / b)))

/-- The sum of two numbers that are not zero. -/
def addNonzero : Quantity → Quantity → Quantity
  | .exact a, .exact b => .exact (a + b)
  | .exact a, .rounded bits b => .rounded bits (roundSignificant bits (roundSignificant bits a + b))
  | .rounded bits a, .exact b => .rounded bits (roundSignificant bits (a + roundSignificant bits b))
  | .rounded bits a, .rounded bits' b =>
    .rounded (max bits bits') (roundSignificant (max bits bits') (a + b))

/-- A zero, floating-point or not, leaves the other number as it is. -/
def add (a b : Quantity) : Quantity :=
  if a.value = 0 then b else if b.value = 0 then a else a.addNonzero b

def exactBits : Nat := 57

/-- The double for a finished part. A zero has no sign. -/
def toDouble (x : Quantity) : Double :=
  let kept := match x with
    | .exact q => truncateSignificant exactBits q
    | .rounded _ q => q
  let y := Double.ofRat (roundSignificant 53 kept)
  if y.eq .zero then .zero else y

end Quantity

namespace Numeral

/-- Integers of more digits than this are refused. -/
def maxDigits : Nat := 4300

def natValue (ds : List Char) : Nat := Nat.ofDigitChars 10 ds 0

def isInteger (x : Numeral) : Bool := x.fraction.isNone && x.exponent.isNone

def mantissa (x : Numeral) : List Char := x.whole ++ x.fraction.getD []

def exponentValue (x : Numeral) : Int :=
  match x.exponent with
  | some (negative, ds) => if negative then -(natValue ds : Int) else natValue ds
  | none => 0

def decimalValue (x : Numeral) : Rat :=
  let shift := x.exponentValue - (x.fraction.getD []).length
  let n := natValue x.mantissa
  if 0 ≤ shift then ((n * Nat.pow 10 shift.toNat : Nat) : Rat)
  else mkRat n (Nat.pow 10 (-shift).toNat)

/-- The number of significant digits of the numeral: those of the mantissa without leading zeros.
Without a point the zeros that a positive exponent adds to a whole value count too. -/
def precisionDigits (x : Numeral) : Nat :=
  let n := natValue x.mantissa
  let count := (Nat.toDigits 10 n).length
  if x.fraction.isNone && n ≠ 0 then count + x.exponentValue.toNat else count

/-- The precision of a numeral of so many digits: at least fifteen of them, and one more. A digit
takes 3.3219280948873626 bits. -/
def precisionBits (count : Nat) : Nat :=
  roundHalfEven ((max 15 count + 1) * 33219280948873626) (Nat.pow 10 16)

def quantity (x : Numeral) : Except Unvalued Quantity :=
  if x.isInteger then
    let significant := x.whole.dropWhile (· == '0')
    if maxDigits < significant.length then .error .unreadable
    else if x.whole.head? = some '0' then .ok (.exact 0)
    else .ok (.exact (natValue x.whole))
  else
    let bits := precisionBits x.precisionDigits
    .ok (.rounded bits (roundSignificant bits x.decimalValue))

end Numeral

/-- If one of two numbers cannot be read, that comes first. -/
def bothValued {β γ : Type} (a : Except Unvalued β) (b : Except Unvalued γ) :
    Except Unvalued (β × γ) :=
  match a, b with
  | .ok a, .ok b => .ok (a, b)
  | .error .unreadable, _ | _, .error .unreadable => .error .unreadable
  | _, _ => .error .notFinite

namespace Quotient

def quantity (x : Quotient) : Except Unvalued Quantity := do
  match x.denominator with
  | none => x.numerator.quantity
  | some denominator =>
    let (a, b) ← bothValued x.numerator.quantity denominator.quantity
    a.div b

end Quotient

namespace Part

def quantity (x : Part) : Except Unvalued Quantity := do
  let size ← match x.size with
    | some size => size.quantity
    | none => pure (.exact 1)
  return if x.negative then size.neg else size

end Part

namespace Literal

/-- The real and the imaginary part before they become doubles. -/
def parts (x : Literal) : Except Unvalued (Quantity × Quantity) :=
  match x.second with
  | none => do
    let q ← x.first.quantity
    return if x.first.imaginary then (.exact 0, q) else (q, .exact 0)
  | some second => do
    let (a, b) ← bothValued x.first.quantity second.quantity
    return if x.first.imaginary then (.exact 0, a.add b) else (a, b)

/-- The two parts as doubles, both of them finite. -/
def value (x : Literal) : Except Unvalued (Double × Double) := do
  let (re, im) ← x.parts
  let re := re.toDouble
  let im := im.toDouble
  if re.isFinite && im.isFinite then return (re, im) else throw .notFinite

end Literal

end GaussJordan
