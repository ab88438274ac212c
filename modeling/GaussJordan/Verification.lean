import GaussJordan.System

/-!
# GaussJordan.Verification

Substitution of a proposed solution into the equations of a system. The residual of an equation is
the length of the difference of its two sides; the solution passes if no residual exceeds the
tolerance.
-/

namespace GaussJordan

structure Step where
  number : Nat
  description : String
  expression : String
  explanation : String

structure Verdict where
  passed : Bool
  steps : List Step

variable {α : Type} [Scalar α] {n : Nat}

namespace Row

/-- The left-hand side under an assignment of values to the unknowns, term by term from the left.
Every product and every sum is rounded by itself; an array library that groups the sums or fuses
them with the products may differ in the last bits. -/
def leftSide (r : Row α n) (x : Vector (Complex α) n) : Complex α :=
  (r.coefficients.zip x.toList).foldl (fun sum (a, v) => sum + a * v) .zero

def residual (r : Row α n) (x : Vector (Complex α) n) : Scalar.Length α :=
  let gap := r.leftSide x - r.constant
  Scalar.length gap.re gap.im

end Row

def verifyRow (tol : α) (x : Vector (Complex α) n) (number : Nat) (r : Row α n) :
    Except Fault Step := do
  let passed := Scalar.lengthWithin tol (r.residual x)
  let left ← (r.leftSide x).text
  let right ← r.constant.text
  let row ← r.text
  let mark := if passed then "✓" else "✗"
  let gap := String.ofList (Scalar.lengthText (r.residual x))
  return {
    number := number + 1
    description := s!"Equation ({number}): {row}"
    expression := s!"LHS = {left},  RHS = {right}  →  {mark}"
    explanation :=
      if passed then s!"Both sides ≈ {left}." else s!"Sides differ by {gap} — check the input." }

namespace System

def largestResidual (m : System α n) (x : Vector (Complex α) n) : Scalar.Length α :=
  match m.rows.toList.map (·.residual x) with
  | [] => Scalar.length Scalar.zero Scalar.zero
  | r :: rest => rest.foldl Scalar.longer r

def passes (tol : α) (m : System α n) (x : Vector (Complex α) n) : Bool :=
  m.rows.toList.all fun r => Scalar.lengthWithin tol (r.residual x)

def verify (tol : α) (m : System α n) (x : Vector (Complex α) n) : Except Fault Verdict := do
  let equations ← (m.rows.toList.zipIdx 1).mapM fun (r, i) => verifyRow tol x i r
  let passed := m.passes tol x
  let largest := String.ofList (Scalar.lengthText (m.largestResidual x))
  let opening : Step := {
    number := 1
    description := "Substitute into every equation"
    expression := "Checking…"
    explanation := "Plug the solution back into each original equation." }
  let closing : Step :=
    if passed then {
      number := n + 2
      description := "All equations verified"
      expression := "All equations satisfied  ✓"
      explanation := "The solution is correct." }
    else {
      number := n + 2
      description := "Verification failed"
      expression := "Residual too large  ✗"
      explanation := s!"Largest residual is {largest}." }
  return ⟨passed, opening :: equations ++ [closing]⟩

/-- Checks a list of values, which has to hold one for each unknown. -/
def verifyList (tol : α) (m : System α n) (xs : List (Complex α)) : Except Fault Verdict :=
  if h : xs.length = n then m.verify tol ⟨xs.toArray, by simpa using h⟩
  else .error .solutionLength

end System

end GaussJordan
