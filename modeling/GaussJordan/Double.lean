import GaussJordan.Rounding

/-!
# GaussJordan.Double

Binary64 numbers. A finite number is a sign and a whole number of *units*, the smallest positive
number `2 ^ -1074` being one unit; it has at most 53 significant bits. Every operation forms the
exact result of its operands and rounds it once (`Double.ofUnits`): to nearest, ties to even,
gradually down to zero, and to an infinity from `2 ^ 1024` on. There is one NaN.
-/

namespace GaussJordan

def unitsPerOne : Nat := Nat.pow 2 1074

/-- The units in `2 ^ 1024`, where the finite numbers end. -/
def unitsLimit : Nat := Nat.pow 2 2098

/-- A number of units that some finite binary64 number has. -/
def Representable (units : Nat) : Prop := units < unitsLimit ∧ FitsBits 53 units

inductive Double where
  | finite (negative : Bool) (units : Nat) (representable : Representable units)
  | infinite (negative : Bool)
  | nan

namespace Double

theorem unitsPerOne_pos : 0 < unitsPerOne := by
  unfold unitsPerOne
  generalize 1074 = k
  exact Nat.two_pow_pos k

theorem unitsPerOne_lt_unitsLimit : unitsPerOne < unitsLimit := by
  unfold unitsPerOne unitsLimit
  generalize ha : 1074 = a
  generalize hb : 2098 = b
  exact Nat.pow_lt_pow_right (by decide) (by omega)

theorem representable_zero : Representable 0 :=
  ⟨Nat.lt_trans unitsPerOne_pos unitsPerOne_lt_unitsLimit, 0, by simp⟩

theorem representable_one : Representable unitsPerOne := by
  refine ⟨unitsPerOne_lt_unitsLimit, ?_⟩
  unfold unitsPerOne
  generalize 1074 = k
  have h := fitsBits_mul_two_pow k (Nat.one_le_two_pow : 1 ≤ 2 ^ 53) (by decide)
  rwa [Nat.one_mul] at h

def signedZero (negative : Bool) : Double := .finite negative 0 representable_zero

def zero : Double := signedZero false

def one : Double := .finite false unitsPerOne representable_one

/-- The number nearest to `num / den` units, with the given sign. -/
def ofUnits (negative : Bool) (num den : Nat) : Double :=
  let units := roundToBits 53 num den
  if h : units < unitsLimit then
    .finite negative units ⟨h, roundToBits_fits num den (by decide)⟩
  else
    .infinite negative

def ofRatio (negative : Bool) (num den : Nat) : Double :=
  ofUnits negative (num * unitsPerOne) den

def ofInt (i : Int) : Double := ofRatio (decide (i < 0)) i.natAbs 1

def ofRat (q : Rat) : Double := ofRatio (decide (q.num < 0)) q.num.natAbs q.den

def isFinite : Double → Bool
  | .finite .. => true
  | _ => false

def isInfinite : Double → Bool
  | .infinite _ => true
  | _ => false

def isNaN : Double → Bool
  | .nan => true
  | _ => false

/-- The signed number of units of a finite number. -/
def signedUnits (negative : Bool) (units : Nat) : Int :=
  if negative then -(units : Int) else units

def toRat? : Double → Option Rat
  | .finite s u _ => some (mkRat (signedUnits s u) unitsPerOne)
  | _ => none

/-! ## Arithmetic -/

def neg : Double → Double
  | .finite s u h => .finite (!s) u h
  | .infinite s => .infinite (!s)
  | .nan => .nan

def abs : Double → Double
  | .finite _ u h => .finite false u h
  | .infinite _ => .infinite false
  | .nan => .nan

/-- An exact sum of zero is negative only when both terms are. -/
def add : Double → Double → Double
  | .finite s a _, .finite t b _ =>
    let sum := signedUnits s a + signedUnits t b
    if sum = 0 then signedZero (s && t) else ofUnits (decide (sum < 0)) sum.natAbs 1
  | .finite .., .infinite t => .infinite t
  | .infinite s, .finite .. => .infinite s
  | .infinite s, .infinite t => if s = t then .infinite s else .nan
  | .nan, _ => .nan
  | _, .nan => .nan

def sub (x y : Double) : Double := add x y.neg

def mul : Double → Double → Double
  | .finite s a _, .finite t b _ => ofUnits (s ^^ t) (a * b) unitsPerOne
  | .finite s a _, .infinite t => if a = 0 then .nan else .infinite (s ^^ t)
  | .infinite s, .finite t b _ => if b = 0 then .nan else .infinite (s ^^ t)
  | .infinite s, .infinite t => .infinite (s ^^ t)
  | .nan, _ => .nan
  | _, .nan => .nan

def div : Double → Double → Double
  | .finite s a _, .finite t b _ =>
    if b = 0 then (if a = 0 then .nan else .infinite (s ^^ t))
    else ofUnits (s ^^ t) (a * unitsPerOne) b
  | .finite s _ _, .infinite t => signedZero (s ^^ t)
  | .infinite s, .finite t _ _ => .infinite (s ^^ t)
  | .infinite _, .infinite _ => .nan
  | .nan, _ => .nan
  | _, .nan => .nan

/-- The number of at most 53 significant bits nearest to the square root of `n`; a half goes to
the even multiple of the grid step. -/
def roundSqrt (n : Nat) : Nat :=
  let root := n.sqrt
  let step := Nat.pow 2 (gridShift 53 root)
  let k := root / step
  let twiceMiddle := (2 * k + 1) * step
  if 4 * n < twiceMiddle * twiceMiddle then k * step
  else if twiceMiddle * twiceMiddle < 4 * n then (k + 1) * step
  else (k + k % 2) * step

theorem roundSqrt_fits (n : Nat) : FitsBits 53 (roundSqrt n) := by
  have hk := div_gridStep_lt 53 n.sqrt
  simp only [roundSqrt]
  split
  · exact fitsBits_mul_two_pow _ (by omega) (by decide)
  · split <;> exact fitsBits_mul_two_pow _ (by omega) (by decide)

/-- The length of the vector with the given coordinates: infinite as soon as one of them is. The
root is rounded once; the function of the C library may differ from it in the last bit. -/
def hypot : Double → Double → Double
  | .finite _ a _, .finite _ b _ =>
    let units := roundSqrt (a * a + b * b)
    if h : units < unitsLimit then .finite false units ⟨h, roundSqrt_fits _⟩ else .infinite false
  | .infinite _, _ => .infinite false
  | _, .infinite _ => .infinite false
  | .nan, _ => .nan
  | _, .nan => .nan

/-! ## Comparison: a NaN is neither equal to, below nor above anything -/

def eq : Double → Double → Bool
  | .finite s a _, .finite t b _ => signedUnits s a = signedUnits t b
  | .infinite s, .infinite t => s = t
  | _, _ => false

def lt : Double → Double → Bool
  | .finite s a _, .finite t b _ => signedUnits s a < signedUnits t b
  | .finite .., .infinite t => !t
  | .infinite s, .finite .. => s
  | .infinite s, .infinite t => s && !t
  | _, _ => false

def le (x y : Double) : Bool := lt x y || eq x y

/-! ## The interchange form -/

/-- The 64 bits of the interchange form as a number: sign, eleven bits of exponent, 52 bits of
fraction. Below the first full grid step the exponent field is zero. -/
def toBits : Double → Nat
  | .finite s u _ =>
    let shift := gridShift 53 u
    (if s then Nat.pow 2 63 else 0) + shift * Nat.pow 2 52 + u / Nat.pow 2 shift
  | .infinite s => (if s then Nat.pow 2 63 else 0) + 2047 * Nat.pow 2 52
  | .nan => 2047 * Nat.pow 2 52 + Nat.pow 2 51

end Double

end GaussJordan
