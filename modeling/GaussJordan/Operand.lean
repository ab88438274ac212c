import GaussJordan.Shortest

/-!
# GaussJordan.Operand

What may stand where a complex value is wanted: an integer, a real number, a complex value, or
something that is no number at all. Integers become doubles when they are used, and one that is
too large for that is a fault.
-/

namespace GaussJordan

inductive Operand where
  | integer (value : Int)
  | real (value : Double)
  | complex (value : Complex Double)
  | absent
  | text

namespace Operand

/-- The double nearest to an integer, which has to be finite. -/
def integerToDouble (value : Int) : Except Fault Double :=
  let x := Double.ofInt value
  if x.isInfinite then .error .integerTooLarge else .ok x

def toComplex : Operand → Except Fault (Complex Double)
  | .integer value => do return .ofReal (← integerToDouble value)
  | .real value => .ok (.ofReal value)
  | .complex value => .ok value
  | .absent => .error (.notComplex "NoneType")
  | .text => .error (.notComplex "str")

/-- The value as an operand of an arithmetic operation. -/
def toArithmetic : Operand → Except Fault (Complex Double)
  | .absent | .text => .error .unsupportedOperand
  | operand => operand.toComplex

/-- The value as one part of a complex value: a real number. -/
def toPart : Operand → Except Fault Double
  | .integer value => integerToDouble value
  | .real value => .ok value
  | .complex _ | .absent | .text => .error .unsupportedOperand

def arithmetic (f : Complex Double → Complex Double → Except Fault (Complex Double))
    (a b : Operand) : Except Fault (Complex Double) := do
  f (← a.toArithmetic) (← b.toArithmetic)

/-- Equality as numbers; what is no number equals no number. -/
def eq (a b : Operand) : Except Fault Bool :=
  match a, b with
  | .absent, _ | _, .absent | .text, _ | _, .text => .ok false
  | _, _ => do return Complex.eq (← a.toComplex) (← b.toComplex)

/-- A complex value from at most two parts, each zero if it is not given. -/
def make (re im : Option Operand) : Except Fault (Complex Double) := do
  let re ← (re.map toPart).getD (.ok .zero)
  let im ← (im.map toPart).getD (.ok .zero)
  return ⟨re, im⟩

def assign (_ : Operand) : Except Fault (Complex Double) := .error .immutable

end Operand

end GaussJordan
