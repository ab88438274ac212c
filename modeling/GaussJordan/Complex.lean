import GaussJordan.Scalar

/-!
# GaussJordan.Complex

Complex values over a scalar type: arithmetic by the schoolbook formulas, tolerant tests for zero
and one, and the text of a value.

A quotient is formed over the sum of the squares of the divisor's parts. It fails if a square
overflows, and if the sum is zero, which over `Double` happens for small nonzero divisors too.
-/

namespace GaussJordan

@[ext]
structure Complex (α : Type) where
  re : α
  im : α

namespace Complex

variable {α : Type} [Scalar α]

def ofReal (x : α) : Complex α := ⟨x, Scalar.zero⟩

def zero : Complex α := ofReal Scalar.zero

def one : Complex α := ofReal Scalar.one

instance : Add (Complex α) := ⟨fun a b => ⟨Scalar.add a.re b.re, Scalar.add a.im b.im⟩⟩

instance : Sub (Complex α) := ⟨fun a b => ⟨Scalar.sub a.re b.re, Scalar.sub a.im b.im⟩⟩

instance : Neg (Complex α) := ⟨fun a => ⟨Scalar.neg a.re, Scalar.neg a.im⟩⟩

instance : Mul (Complex α) := ⟨fun a b =>
  ⟨Scalar.sub (Scalar.mul a.re b.re) (Scalar.mul a.im b.im),
   Scalar.add (Scalar.mul a.re b.im) (Scalar.mul a.im b.re)⟩⟩

def eq (a b : Complex α) : Bool := Scalar.eq a.re b.re && Scalar.eq a.im b.im

/-- Each part is at most `tol` away from zero. -/
def isZero (tol : α) (a : Complex α) : Bool := Scalar.within tol a.re && Scalar.within tol a.im

/-- Each part is at most `tol` away from that of one. -/
def isOne (tol : α) (a : Complex α) : Bool :=
  Scalar.within tol (Scalar.sub a.re Scalar.one) && Scalar.within tol a.im

/-! ## Text -/

/-- Joins the texts of the two parts as `a`, `bi`, `a+bi` or `a-bi`; a factor one before `i` is
left out. A grouped value with two parts stands in parentheses. -/
def joinParts (grouped : Bool) (real imag : List Char) : List Char :=
  if imag = ['0'] then real
  else
    let size := imag.dropWhile (· == '-')
    let unit := (if size = ['1'] then [] else size) ++ ['i']
    let negative := imag.head? == some '-'
    if real = ['0'] then Decimal.sign negative ++ unit
    else
      let text := real ++ (if negative then '-' else '+') :: unit
      if grouped then '(' :: text ++ [')'] else text

/-- The text with at most `places` decimals in each part. -/
def textWith (grouped : Bool) (places : Int) (a : Complex α) : Except Fault String := do
  let real ← Scalar.text places a.re
  let imag ← Scalar.text places a.im
  return String.ofList (joinParts grouped real imag)

/-- The text of a term: ten decimals. -/
def text (a : Complex α) : Except Fault String := a.textWith false 10

/-- The text of a factor of a row operation. -/
def factorText (a : Complex α) : Except Fault String := a.textWith true 10

/-! ## Division -/

def div (a b : Complex α) : Except Fault (Complex α) := do
  let reSquare ← Scalar.square b.re
  let imSquare ← Scalar.square b.im
  let size := Scalar.add reSquare imSquare
  if Scalar.eq size Scalar.zero then
    throw (.divisionByZero (← a.text))
  else
    return ⟨Scalar.div (Scalar.add (Scalar.mul a.re b.re) (Scalar.mul a.im b.im)) size,
      Scalar.div (Scalar.sub (Scalar.mul a.im b.re) (Scalar.mul a.re b.im)) size⟩

def inverse (a : Complex α) : Except Fault (Complex α) :=
  if Scalar.eq a.re Scalar.zero && Scalar.eq a.im Scalar.zero then .error .zeroInverse
  else div one a

end Complex

end GaussJordan
