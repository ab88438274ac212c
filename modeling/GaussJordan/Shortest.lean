import GaussJordan.System

/-!
# GaussJordan.Shortest

The shortest decimal text that reads back as a given binary64 number: of the numerals with the
fewest digits inside the interval of reals that round to it, the nearest one. Magnitudes from
`0.0001` to below `10 ^ 16` are written positionally and always with a point, the others with an
exponent.
-/

namespace GaussJordan

namespace Double

/-- Whether `p / q` rounds to the finite number of `units` units, all counted in units. The ends
of the interval round to it when the multiple of the grid step is even. Below a power of two the
step is half as wide. -/
def roundsTo (units p q : Nat) : Bool :=
  let step := Nat.pow 2 (gridShift 53 units)
  let even := units / step % 2 = 0
  let narrow := units = step * Nat.pow 2 52 && 1 < step
  let above := 2 * p ≤ (2 * units + step) * q
  let below := if narrow then (4 * units - step) * q ≤ 4 * p else (2 * units - step) * q ≤ 2 * p
  let aboveStrict := 2 * p < (2 * units + step) * q
  let belowStrict :=
    if narrow then (4 * units - step) * q < 4 * p else (2 * units - step) * q < 2 * p
  if even then above && below else aboveStrict && belowStrict

/-- The exponent is written from `10 ^ 16` on, and a whole number ends in a point and a zero. -/
def shortestLayout : Decimal.Layout := ⟨16, true⟩

/-- The shortest text that reads back as the number. -/
def shortest : Double → List Char
  | .finite s u _ =>
    if u = 0 then Decimal.sign s ++ ['0', '.', '0']
    else
      let (ds, e) := Decimal.shortestDigits (fun p q => roundsTo u (p * unitsPerOne) q)
        u unitsPerOne (Decimal.leadingExponent u unitsPerOne) 1 17
      Decimal.sign s ++ shortestLayout.text ds e
  | .infinite s => Decimal.sign s ++ ['i', 'n', 'f']
  | .nan => ['n', 'a', 'n']

end Double

namespace Complex

def exactText (a : Complex Double) : String :=
  let re := String.ofList a.re.shortest
  let im := String.ofList a.im.shortest
  s!"ComplexNumber({re}, {im})"

end Complex

namespace Row

def exactText {n : Nat} (r : Row Double n) : String :=
  let terms := ", ".intercalate (r.toList.map Complex.exactText)
  s!"EquationRow([{terms}])"

end Row

end GaussJordan
