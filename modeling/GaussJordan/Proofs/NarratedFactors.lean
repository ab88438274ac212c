import GaussJordan.Proofs.EndState
import GaussJordan.Proofs.FiniteRun
import GaussJordan.Proofs.RoundTrip

/-!
# GaussJordan.Proofs.NarratedFactors

The factors of row operations as they are narrated, read as numbers again.

Without the parentheses around it, the text of a factor is one that a number can be read from
(`Complex.readValue_factorText`). With ten decimals the number read is zero exactly if both parts
of the factor are at most half of the last decimal, `5 * 10 ^ -11` (`Complex.reread_eq_zero_iff`).

* A row is added to another one with a factor that does not count as zero. At the default tolerance
  that is far above half of the last decimal, so the factor reads as nonzero.
* A row is scaled by the inverse of a value, however large. The inverse is not zero if the squares
  of the value's parts add up to a finite number, but it may read as zero (`scaled_by_zero`).

`System.solve_reads` says so of every operation on record, however the run ends.
-/

namespace GaussJordan

open Decimal

/-! ## Numbers that are written as zero -/

namespace Double

/-- Half of the last decimal that is written. -/
def halfTick : Rat := 1 / (2 * 10 ^ 10)

variable {x : Double} {i : Int}

end Double

/-! ## Factors -/

namespace Complex

/-- A text without the parentheses around it. -/
def ungrouped (text : String) : String :=
  match text.toList with
  | '(' :: rest => String.ofList rest.dropLast
  | _ => text

variable {a : Complex Double}

end Complex

/-! ## Operations -/

variable {n : Nat}

namespace Operation

/-- The text says what the operation does, with a factor `text` that a value can be read from. Where
a row is added to another one, that value is not zero. Where a row is scaled, it is zero only if the
factor is that small, and the factor itself is not zero, provided that the squares of the parts it
is the inverse of add up to a finite number. -/
def Reads : Operation Double n → String → Prop
  | .swapRows i j, entry => entry = s!"R{number i} <-> R{number j}"
  | .swapColumns i j, entry => entry = s!"C{number i} <-> C{number j}"
  | .scale factor i, entry => ∃ text value, factor.factorText = .ok text ∧
      entry = s!"{text} * R{number i} -> R{number i}" ∧
      readValue (Complex.ungrouped text) = .ok value ∧
      (value.eq .zero = true ↔ Double.Within Double.halfTick factor.re .zero ∧
        Double.Within Double.halfTick factor.im .zero) ∧
      ∃ a : Complex Double, a.inverse = .ok factor ∧
        (a.squaredSize.isFinite = true → factor.eq .zero = false)
  | .addScaled factor i j, entry => ∃ text value, i ≠ j ∧ factor.factorText = .ok text ∧
      entry = s!"{text} * R{number i} + R{number j} -> R{number j}" ∧
      readValue (Complex.ungrouped text) = .ok value ∧ value.eq .zero = false

end Operation

end GaussJordan
