import GaussJordan.Fault
import GaussJordan.Decimal
import GaussJordan.Double

/-!
# GaussJordan.Scalar

The numbers that the real and imaginary parts of a term are drawn from. The reduction is written
once over the class `Scalar`, with two instances: `Double`, whose operations round and may
overflow, and the rationals, where every operation is exact. Both write a part by the same rule,
`partText`, applied to the exact value.
-/

namespace GaussJordan

/-- A value nearer than this fraction to a whole number is written as that whole number: the
binary64 number nearest to `10 ^ -12`. -/
def wholeMargin : Nat × Nat := (4951760157141521, Nat.pow 2 92)

/-- The distance of `num / den` from a whole number, in units of `1 / den`. -/
def wholeDistance (num den whole : Nat) : Nat := (num - whole * den) + (whole * den - num)

def NearlyWhole (num den : Nat) : Prop :=
  wholeDistance num den (roundHalfEven num den) * wholeMargin.2 < wholeMargin.1 * den

instance (num den : Nat) : Decidable (NearlyWhole num den) := inferInstanceAs (Decidable (_ < _))

/-- The most decimals that can be asked for. A formatting routine may run out of range at the last
few counts below, and write zeros there. -/
def maxPlaces : Int := 2147483647

/-- One part as a decimal text: a (nearly) whole value bare, any other with at most `places`
decimals and without zeros at the end. -/
def partText (places : Int) (negative : Bool) (num den : Nat) : Except Fault (List Char) :=
  if NearlyWhole num den then .ok (Decimal.wholeText negative (roundHalfEven num den))
  else if places < 0 then .error .negativePlaces
  else if maxPlaces < places then .error .manyPlaces
  else .ok (Decimal.trimmedText negative num den places.toNat)

class Scalar (α : Type) where
  zero : α
  one : α
  add : α → α → α
  sub : α → α → α
  mul : α → α → α
  div : α → α → α
  neg : α → α
  eq : α → α → Bool
  /-- `within tol x`: the magnitude of `x` is at most `tol`. -/
  within : α → α → Bool
  square : α → Except Fault α
  /-- The text with at most the given number of decimals. -/
  text : Int → α → Except Fault (List Char)
  Length : Type
  length : α → α → Length
  /-- `lengthWithin tol l`: the length `l` is at most `tol`. -/
  lengthWithin : α → Length → Bool
  longer : Length → Length → Length
  lengthText : Length → List Char

namespace Double

/-- The square; of a finite number it has to be finite. It is the product, rounded once; the power
function of the C library may differ from it in the last bit. -/
def square (x : Double) : Except Fault Double :=
  let y := mul x x
  if x.isFinite && y.isInfinite then .error .squareOverflow else .ok y

def text (places : Int) : Double → Except Fault (List Char)
  | .finite s u _ => partText places s u unitsPerOne
  | .infinite _ => .error .infiniteText
  | .nan => .error .nanText

/-- The larger of two lengths; a NaN wins. -/
def larger (x y : Double) : Double :=
  if x.isNaN then x else if y.isNaN then y else if lt x y then y else x

def significantText : Double → List Char
  | .finite s u _ => Decimal.significantText s u unitsPerOne
  | .infinite s => Decimal.sign s ++ ['i', 'n', 'f']
  | .nan => ['n', 'a', 'n']

end Double

instance : Scalar Double where
  zero := Double.zero
  one := Double.one
  add := Double.add
  sub := Double.sub
  mul := Double.mul
  div := Double.div
  neg := Double.neg
  eq := Double.eq
  within tol x := Double.le x.abs tol
  square := Double.square
  text := Double.text
  Length := Double
  length := Double.hypot
  lengthWithin tol l := Double.le l tol
  longer := Double.larger
  lengthText := Double.significantText

/-- A length over the rationals, known by its square. -/
structure SquaredLength where
  square : Rat

namespace SquaredLength

/-- Three significant digits of the root, from a root with many more digits rounded down. -/
def text (l : SquaredLength) : List Char :=
  let scale := Nat.pow 10 (2 * (Decimal.digits l.square.den).length + 12)
  Decimal.significantText false
    (Nat.sqrt (l.square.num.natAbs * l.square.den * scale * scale)) (l.square.den * scale)

end SquaredLength

instance : Scalar Rat where
  zero := 0
  one := 1
  add := (· + ·)
  sub := (· - ·)
  mul := (· * ·)
  div := (· / ·)
  neg := (- ·)
  eq x y := x == y
  within tol x := x.abs ≤ tol
  square x := .ok (x * x)
  text places x := partText places (decide (x.num < 0)) x.num.natAbs x.den
  Length := SquaredLength
  length x y := ⟨x * x + y * y⟩
  lengthWithin tol l := 0 ≤ tol && decide (l.square ≤ tol * tol)
  longer a b := if a.square < b.square then b else a
  lengthText := SquaredLength.text

end GaussJordan
