import GaussJordan.Rounding

/-!
# GaussJordan.Decimal

Decimal texts of an exact value `num / den`.

* `fixedText`: a fixed number of decimals, the last one rounded half to even; `trimmedText` is
  that text without zeros at the end.
* `nearestDigits`: the value rounded to a number of significant digits, half to even, as digits
  and the exponent of the first of them.
* `Layout.text`: where digits with an exponent are written out positionally and where with an
  exponent of at least two digits.

Texts are lists of characters, so that they can be read back digit by digit.
-/

namespace GaussJordan

namespace Decimal

/-- The digits of `n`, most significant first, without leading zeros; zero is one digit. -/
def digits (n : Nat) : List Char := Nat.toDigits 10 n

/-- The digits of `n` with zeros in front up to the given width. -/
def padded (width n : Nat) : List Char :=
  let ds := digits n
  List.replicate (width - ds.length) '0' ++ ds

def sign (negative : Bool) : List Char := if negative then ['-'] else []

/-- `n / 10 ^ places` written with exactly `places` decimals. -/
def pointed (places n : Nat) : List Char :=
  if places = 0 then digits n
  else digits (n / Nat.pow 10 places) ++ '.' :: padded places (n % Nat.pow 10 places)

/-- The value with exactly `places` decimals, the last one rounded half to even. A value that
rounds to zero keeps its sign. -/
def fixedText (negative : Bool) (num den places : Nat) : List Char :=
  sign negative ++ pointed places (roundHalfEven (num * Nat.pow 10 places) den)

def dropTrailing (c : Char) (cs : List Char) : List Char :=
  (cs.reverse.dropWhile (· == c)).reverse

/-- A whole number. Zero has no sign. -/
def wholeText (negative : Bool) (n : Nat) : List Char := sign (negative && n != 0) ++ digits n

/-- The text with exactly `places` decimals less the zeros at the end, and less the point if no
decimals are left. With no decimals the zeros at the end of the whole part are dropped too. Where
nothing or a negative zero is left, it is zero. -/
def trimmedText (negative : Bool) (num den places : Nat) : List Char :=
  let text := dropTrailing '.' (dropTrailing '0' (fixedText negative num den places))
  if text = [] ∨ text = ['-', '0'] then ['0'] else text

/-! ## Significant digits -/

/-- The exponent of the first digit of a positive `num / den`: `10 ^ e ≤ num / den < 10 ^ (e + 1)`.
The numbers of digits give `e` or one more. -/
def leadingExponent (num den : Nat) : Int :=
  let e : Int := (digits num).length - (digits den).length
  let reached :=
    if 0 ≤ e then den * Nat.pow 10 e.toNat ≤ num else den ≤ num * Nat.pow 10 (-e).toNat
  if reached then e else e - 1

/-- The fraction `num / den` in units of `10 ^ e`. -/
def inUnits (num den : Nat) (e : Int) : Nat × Nat :=
  if 0 ≤ e then (num, den * Nat.pow 10 e.toNat) else (num * Nat.pow 10 (-e).toNat, den)

/-- The digits of a positive value rounded half to even to `count` significant digits, without
zeros at the end, and the exponent of the first one. -/
def nearestDigits (count num den : Nat) : List Char × Int :=
  let e := leadingExponent num den
  let (a, b) := inUnits num den (e - count + 1)
  let ds := digits (roundHalfEven a b)
  (dropTrailing '0' ds, if count < ds.length then e + 1 else e)

/-- A number format that writes some magnitudes positionally and the others with an exponent. -/
structure Layout where
  /-- From this exponent of the first digit on, the exponent is written. -/
  positionalBelow : Int
  /-- Whether a whole number written positionally ends in a point and a zero. -/
  pointZero : Bool

/-- Digits with an exponent of at least two digits; the first digit stands before the point. -/
def scientific (ds : List Char) (e : Int) : List Char :=
  let mantissa := match ds with
    | d :: r@(_ :: _) => d :: '.' :: r
    | ds => ds
  mantissa ++ 'e' :: (if e < 0 then '-' else '+') :: padded 2 e.natAbs

namespace Layout

/-- Digits whose first one has exponent `e`. Down to `0.0001` they are written positionally. -/
def text (layout : Layout) (ds : List Char) (e : Int) : List Char :=
  if e < -4 || layout.positionalBelow ≤ e then scientific ds e
  else if e < 0 then '0' :: '.' :: (List.replicate (-e - 1).toNat '0' ++ ds)
  else
    let whole := (e + 1).toNat
    if ds.length ≤ whole then
      ds ++ List.replicate (whole - ds.length) '0' ++ (if layout.pointZero then ['.', '0'] else [])
    else ds.take whole ++ '.' :: ds.drop whole

end Layout

/-- Three significant digits: an exponent from a thousand on, and no point after a whole
number. -/
def threeDigits : Layout := ⟨3, false⟩

def significantText (negative : Bool) (num den : Nat) : List Char :=
  if num = 0 then sign negative ++ ['0']
  else
    let (ds, e) := nearestDigits 3 num den
    sign negative ++ threeDigits.text ds e

/-! ## The shortest digits inside an interval -/

/-- The digits on the decimal grid of step `10 ^ e` that lie inside an interval around
`value / den`: of the value's two neighbours the nearer one inside, the even one if both are
equally near. -/
def gridPoint? (inside : Nat → Nat → Bool) (value den : Nat) (e : Int) : Option Nat :=
  let (a, b) := inUnits value den e
  let low := a / b
  let high := low + 1
  let holds (k : Nat) : Bool :=
    if 0 ≤ e then inside (k * Nat.pow 10 e.toNat) 1 else inside k (Nat.pow 10 (-e).toNat)
  let nearest := roundHalfEven a b
  if holds nearest then some nearest
  else if holds low then some low
  else if holds high then some high
  else none

/-- The fewest significant digits, at most `count` more than `used`, of a number inside an
interval around `value / den`, with the exponent of the first digit. `inside p q` tells whether
`p / q` lies in the interval. -/
def shortestDigits (inside : Nat → Nat → Bool) (value den : Nat) (lead : Int) :
    (used count : Nat) → List Char × Int
  | used, 0 => nearestDigits used value den
  | used, count + 1 =>
    match gridPoint? inside value den (lead - used + 1) with
    | some k =>
      let ds := digits k
      (dropTrailing '0' ds, if used < ds.length then lead + 1 else lead)
    | none => shortestDigits inside value den lead (used + 1) count

end Decimal

end GaussJordan
