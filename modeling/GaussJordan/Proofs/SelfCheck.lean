import GaussJordan.Proofs.Residue
import GaussJordan.Proofs.RowFactors

/-!
# GaussJordan.Proofs.SelfCheck

Whether a run passes its own check, over the rationals.

The check is on the residual of the returned values in the given equations (`passes_iff`). Without
an exchange of columns the values are the given constant terms times the product `T` of all
operations, so the residual is what `T` makes of the coefficients, less the identity, times the
values, taken back by `T` (`self_check`).

What `T` leaves besides the identity comes from the shortcuts: a row that is not scaled, a term that
is not cleared. The tolerance bounds what each of them leaves (`Leftover`, `solve_leftover`), but
not what the later operations make of it, nor the values it is multiplied by: with large enough
constant terms the check fails (`self_check_fails`).
-/

namespace GaussJordan

open Matrix

variable {n : Nat}

/-! ## The check -/

theorem foldl_add_mul (l : List (Complex Rat × Complex Rat)) (a : Complex Rat) :
    l.foldl (fun sum (c, v) => sum + c * v) a = a + (l.map fun p => p.1 * p.2).sum := by
  induction l generalizing a with
  | nil => simp
  | cons p l ih => rw [List.foldl_cons, ih, List.map_cons, List.sum_cons, add_assoc]

namespace System

theorem coefficients_row (m : System Rat n) (i : Fin n) :
    (m.row i).coefficients = (List.finRange n).map (m.coefficient i) := by
  apply List.ext_getElem
  · simp [Row.coefficients]
  · intro j _ _
    simp [Row.coefficients, coefficient, term]

theorem leftSide_row (m : System Rat n) (x : Vector (Complex Rat) n) (i : Fin n) :
    (m.row i).leftSide x = (m.matrix *ᵥ x.get) i := by
  have hx : x.toList = (List.finRange n).map x.get := by
    apply List.ext_getElem
    · simp
    · intro j _ _
      simp [Vector.get]
  rw [Row.leftSide, foldl_add_mul, Complex.zero_eq, zero_add, coefficients_row, hx, List.zip_map',
    List.map_map, mulVec, dotProduct, Fin.sum_univ_def]
  rfl

/-- What the sides of the equations differ by. -/
def gap (m : System Rat n) (x : Vector (Complex Rat) n) : Fin n → Complex Rat :=
  m.matrix *ᵥ x.get - m.constants.get

theorem lengthWithin_residual (tol : Rat) (m : System Rat n) (x : Vector (Complex Rat) n)
    (i : Fin n) :
    Scalar.lengthWithin tol ((m.row i).residual x) = true ↔
      0 ≤ tol ∧ (m.gap x i).normSq ≤ tol * tol := by
  have hgap : m.gap x i = (m.row i).leftSide x - (m.row i).constant := by
    rw [gap, Pi.sub_apply, leftSide_row, constants_get]
  have hsquare : (Scalar.lengthWithin tol ((m.row i).residual x)) =
      (decide (0 ≤ tol) && decide ((m.gap x i).normSq ≤ tol * tol)) := by
    rw [hgap]
    rfl
  rw [hsquare, Bool.and_eq_true, decide_eq_true_eq, decide_eq_true_eq]

/-- The values pass if no gap is longer than the tolerance. -/
theorem passes_iff {tol : Rat} {m : System Rat n} {x : Vector (Complex Rat) n} :
    m.passes tol x = true ↔ ∀ i, 0 ≤ tol ∧ (m.gap x i).normSq ≤ tol * tol := by
  simp only [passes, toList_rows, List.all_map, List.all_eq_true, List.mem_finRange, forall_const,
    Function.comp_apply, lengthWithin_residual]

end System

namespace Reduction

namespace Check

variable {check : Check Rat n} {x : Vector (Complex Rat) n}

theorem verdict_passed (h : check.enabled = true) :
    check.verdict (some x) = .passed ↔ check.original.passes check.tolerance x = true := by
  rw [verdict, if_pos h]
  split
  · simp [*]
  · simp [*]

theorem verdict_failed (h : check.enabled = true) :
    check.verdict (some x) = .failed ↔ ¬check.original.passes check.tolerance x = true := by
  rw [verdict, if_pos h]
  split
  · simp [*]
  · simp [*]

end Check

end Reduction

/-! ## What the shortcuts left -/

/-- A row is left unscaled if the inverse of its pivot is one within the tolerance. -/
theorem Scaled.isOne_inv {tol : Rat} {a : Complex Rat} (h : Scaled tol a) :
    a⁻¹.isOne (max tol 0) = true := by
  cases h with
  | one =>
    rw [Complex.one_eq, inv_one, Complex.isOne_iff, sub_self]
    exact Complex.isZero_zero (le_max_right _ _)
  | skipped hinv hone =>
    obtain ⟨_, rfl⟩ := Complex.inverse_ok.mp hinv
    exact Complex.isOne_max hone

/-- A term is left below a pivot if its quotient by the pivot is zero within the tolerance. -/
theorem Residue.isZero_div {tol : Rat} {p a : Complex Rat} (h : Residue tol p a) :
    (a / p).isZero (max tol 0) = true := by
  cases h with
  | cleared =>
    rw [Complex.zero_eq, zero_div]
    exact Complex.isZero_zero (le_max_right _ _)
  | skipped hq hz =>
    obtain ⟨_, rfl⟩ := Complex.div_ok.mp hq
    exact Complex.isZero_max (Complex.isZero_neg.mp hz)

namespace Reduction

/-- What the shortcuts left of a system with row echelon form `e` and `k` pivots, whose rows were
then reduced with the factors `F` to those of `r`. The tolerance bounds

* how far the inverse of a pivot is from one,
* what a pivot's turn left below the pivot, in units of the pivot: there the row echelon form has
  what the operations of the later turns made of it,
* what was not searched for a pivot any more,
* and what the reduction left above the diagonal, besides its own factors and what the terms below
  the diagonal contribute. -/
structure Leftover (tol : Rat) (k : Nat) (e : Reduction Rat n) (r : System Rat n)
    (F : Matrix (Fin n) (Fin n) (Complex Rat)) : Prop where
  upper : ∀ i j, j ≤ i → F i j = 0
  pivot : ∀ j : Fin n, j.val < k → (e.system.coefficient j j)⁻¹.isOne tol = true
  residue : ∀ j : Fin n, j.val < k → ∃ v later, later <:+ e.recorded ∧
    (∀ op ∈ later, op.From (j + 1)) ∧ (∀ i, j < i → (v i / v j).isZero tol = true) ∧
    e.system.column j = Operation.columnAfter later v
  rest : ∀ i j : Fin n, k ≤ i.val → k ≤ j.val → (e.system.coefficient i j).isZero tol = true
  above : ∀ i j : Fin n, i < j →
    ((e.system.matrix - F - F * below r.matrix) i j).isZero tol = true
  above_of_below : (∀ i j : Fin n, j < i → e.system.coefficient i j = 0) →
    ∀ i j : Fin n, i < j → ((e.system.matrix - F) i j).isZero tol = true

theorem Reduced.leftover {m : System Rat n} {e : Reduction Rat n} {r : System Rat n} {k : Nat}
    {ops : List (Operation Rat n)} {F : Matrix (Fin n) (Fin n) (Complex Rat)}
    (hreach : reachEchelon { system := m } = .ok (some k) e) (h : Reduced 0 e.system r ops F) :
    Leftover (max m.tolerance 0) k e r F := by
  obtain ⟨_, _, hturns⟩ := reachEchelon_turns hreach
  have htol : e.system.tolerance = m.tolerance := by
    obtain ⟨_, htrace⟩ := reachEchelon_trace hreach
    exact htrace.tolerance
  refine ⟨h.upper, fun j hj => ?_, fun j hj => ?_, fun i j hi hj => ?_, fun i j hij => ?_,
    fun hbelow i j hij => ?_⟩
  · obtain ⟨u, later, _, hplaced, _⟩ := hturns j hj
    rw [hplaced.pivot_eq]
    exact hplaced.scaled.isOne_inv
  · obtain ⟨u, later, _, hplaced, _⟩ := hturns j hj
    exact ⟨u.system.column j, later, ⟨u.recorded, hplaced.recorded.symm⟩, hplaced.later_from,
      fun i hi => (hplaced.residue i hi).isZero_div, hplaced.column⟩
  · have hzero := reachEchelon_exhausted hreach i j hi hj
    rw [System.isZeroAt, htol] at hzero
    exact Complex.isZero_max hzero
  · rw [← htol]
    exact h.above i j (Nat.zero_le _) hij
  · rw [← htol]
    exact h.above_of_below hbelow hij

/-! ## The run -/

/-- What the operations make of a matrix besides the identity, taken back. -/
theorem inv_mul_sub_one {P B A F : Matrix (Fin n) (Fin n) (Complex Rat)}
    (hB : B * (1 + F) = 1) : (B * P)⁻¹ * (B * P * A - 1) = P⁻¹ * (P * A - 1 - F) := by
  have hcancel : (1 + F) * (B * P * A - 1) = P * A - 1 - F := by
    rw [mul_sub, mul_one, Matrix.mul_assoc B, ← Matrix.mul_assoc (1 + F),
      mul_eq_one_comm.mp hB, Matrix.one_mul, sub_sub]
  rw [Matrix.mul_inv_rev, inv_eq_right_inv hB, Matrix.mul_assoc, hcancel]

/-- If values are a product times the constant terms, the gap is what the product makes of the
coefficients, less the identity, times the values, taken back by the product. -/
theorem gap_eq {m : System Rat n} {x : Vector (Complex Rat) n}
    {T : Matrix (Fin n) (Fin n) (Complex Rat)} (hT : IsUnit T.det)
    (hx : x.get = T *ᵥ m.constants.get) : m.gap x = T⁻¹ *ᵥ ((T * m.matrix - 1) *ᵥ x.get) := by
  have hmul : T *ᵥ m.gap x = (T * m.matrix - 1) *ᵥ x.get := by
    rw [System.gap, mulVec_sub, mulVec_mulVec, ← hx, sub_mulVec, one_mulVec]
  rw [← hmul, mulVec_mulVec, nonsing_inv_mul _ hT, one_mulVec]

section

variable {m : System Rat n} {check : Check Rat n} {e t : Reduction Rat n}
variable {ops : List (Operation Rat n)} {report : Report Rat n} {k : Nat}

theorem SolvedFrom.inputOrder_eq (h : SolvedFrom check e ops report t)
    (hswaps : report.columnSwaps = 0) : e.inputOrder = e.system := by
  have hnil : e.history = [] := List.length_eq_zero_iff.mp (h.columnSwaps.symm.trans hswaps)
  rw [inputOrder, hnil]
  rfl

/-- Without an exchange of columns the operations of the whole run multiply the given system. -/
theorem SolvedFrom.product (h : SolvedFrom check e ops report t)
    (hreach : reachEchelon { system := m } = .ok (some k) e) (hswaps : report.columnSwaps = 0) :
    IsUnit (Operation.product t.recorded).det ∧
      t.system.constants.get = Operation.product t.recorded *ᵥ m.constants.get ∧
      (Triangular n e.system.matrix →
        t.system.matrix = Operation.product t.recorded * m.matrix) := by
  obtain ⟨hP, hE, hc⟩ := reachEchelon_matrix hreach
  have horder := h.inputOrder_eq hswaps
  rw [h.recorded, Operation.product_append]
  refine ⟨?_, ?_, fun htri => ?_⟩
  · rw [det_mul]
    exact h.isUnit_det.mul hP
  · rw [h.constants, horder, hc, mulVec_mulVec]
  · rw [h.matrix (by rwa [horder]), hE, Matrix.mul_assoc]

end

/-- What the operations of a solved run without an exchange of columns make of the coefficients,
less the identity and taken back, goes back to what the shortcuts left of the row echelon form. -/
theorem solve_leftover {m : System Rat n} {verify : Bool} {verifyTolerance : Rat}
    {report : Report Rat n} {t e : Reduction Rat n} {k : Nat}
    (h : m.solve verify verifyTolerance = (.ok report, t))
    (hsolved : report.classification = .solved) (hswaps : report.columnSwaps = 0)
    (hreach : reachEchelon { system := m } = .ok (some k) e) :
    ∃ F, (Operation.product t.recorded)⁻¹ * (Operation.product t.recorded * m.matrix - 1) =
        (Operation.product e.recorded)⁻¹ * (e.system.matrix - 1 - F) ∧
      Leftover (max m.tolerance 0) k e t.system F := by
  obtain ⟨k', e', ops, hreach', hrun⟩ := solve_solved h hsolved
  cases hreach'.symm.trans hreach
  have horder := hrun.inputOrder_eq hswaps
  obtain ⟨_, _, _, F, hreach', hrec, hreduced⟩ := solve_factors h hsolved
  cases hreach'.symm.trans hreach
  obtain ⟨_, hE, _⟩ := reachEchelon_matrix hreach
  rw [horder] at hE hreduced
  refine ⟨F, ?_, hreduced.leftover hreach⟩
  rw [hrec, Operation.product_append, inv_mul_sub_one hreduced.inverse, hE]

/-- In a run that is solved without an exchange of columns, let `T` be the product of all recorded
operations and `P` that of those up to row echelon form. The values returned are `T` times the
constant terms, and the gap of the check is what `T` makes of the coefficients, less the identity,
times the values, taken back by `T`. The check passes exactly if the gap is within its tolerance.

The gap goes back to the shortcuts: the same matrix, taken back by `P` only, is the row echelon form
less the identity and less the factors of the reduction above the pivots, and what stands there was
within the tolerance when it was left (`Leftover`). If the row echelon form has ones and zeros in
their places and the reduced form is the identity, there is no gap and the check passes. -/
theorem self_check {m : System Rat n} {verifyTolerance : Rat} {report : Report Rat n}
    {t : Reduction Rat n} (h : m.solve true verifyTolerance = (.ok report, t))
    (hsolved : report.classification = .solved) (hswaps : report.columnSwaps = 0) :
    ∃ k e x, reachEchelon { system := m } = .ok (some k) e ∧ report.solution = some x ∧
      let T := Operation.product t.recorded
      IsUnit T.det ∧ x.get = T *ᵥ m.constants.get ∧
      m.gap x = T⁻¹ *ᵥ ((T * m.matrix - 1) *ᵥ x.get) ∧
      (report.validation = .passed ↔
        ∀ i, 0 ≤ verifyTolerance ∧ (m.gap x i).normSq ≤ verifyTolerance * verifyTolerance) ∧
      (report.validation = .failed ↔
        ¬∀ i, 0 ≤ verifyTolerance ∧ (m.gap x i).normSq ≤ verifyTolerance * verifyTolerance) ∧
      (∃ F, T⁻¹ * (T * m.matrix - 1) =
          (Operation.product e.recorded)⁻¹ * (e.system.matrix - 1 - F) ∧
        Leftover (max m.tolerance 0) k e t.system F) ∧
      (Triangular n e.system.matrix → t.system.matrix = 1 →
        m.gap x = 0 ∧ (0 ≤ verifyTolerance → report.validation = .passed)) := by
  obtain ⟨k, e, ops, hreach, hrun⟩ := solve_solved h hsolved
  obtain ⟨hunit, hx, hmatrix⟩ := hrun.product hreach hswaps
  have hgap := gap_eq hunit hx
  have hvalid := hrun.validation
  rw [hrun.solution] at hvalid
  have hpassed : report.validation = .passed ↔
      ∀ i, 0 ≤ verifyTolerance ∧
        (m.gap t.system.constants i).normSq ≤ verifyTolerance * verifyTolerance := by
    rw [hvalid, Check.verdict_passed rfl, System.passes_iff]
  refine ⟨k, e, t.system.constants, hreach, hrun.solution, hunit, hx, hgap, hpassed, ?_,
    solve_leftover h hsolved hswaps hreach, fun htri hone => ?_⟩
  · rw [hvalid, Check.verdict_failed rfl, System.passes_iff]
  · have hzero : m.gap t.system.constants = 0 := by
      rw [hgap, ← hmatrix htri, hone, sub_self, zero_mulVec, mulVec_zero]
    refine ⟨hzero, fun htol => hpassed.mpr fun i => ⟨htol, ?_⟩⟩
    rw [hzero, Pi.zero_apply, Complex.normSq_eq_zero.mpr rfl]
    exact mul_nonneg htol htol

/-- `(1 + 5e-10) x = 1000000` with the default tolerance of `1e-9`. The inverse of the coefficient
is one within the tolerance, so the row is not scaled. -/
def heavyEquation : System Rat 1 where
  tolerance := 1 / 1000000000
  rows :=
    let a (q : Rat) : Complex Rat := .ofReal q
    #v[#v[a (1 + 1 / 2000000000), a 1000000]]

theorem self_check_heavyEquation :
    ∃ report t, heavyEquation.solve true (1 / 100000000) = (.ok report, t) ∧
      report.classification = .solved ∧ report.columnSwaps = 0 ∧
      (∃ x, report.solution = some x ∧ (report.validation = .passed ↔
        ∀ i, 0 ≤ (1 / 100000000 : Rat) ∧
          (heavyEquation.gap x i).normSq ≤ 1 / 100000000 * (1 / 100000000))) ∧
      ∃ k e F, reachEchelon { system := heavyEquation } = .ok (some k) e ∧
        Leftover (max heavyEquation.tolerance 0) k e t.system F := by
  have hrun : endsWith (solve ⟨true, 1 / 100000000, heavyEquation⟩) { system := heavyEquation }
      (fun report _ => report.classification == .solved && report.columnSwaps == 0) = true := by
    decide +kernel
  obtain ⟨report, t, hsolve, hr⟩ := exists_of_endsWith hrun
  simp only [Bool.and_eq_true, beq_iff_eq] at hr
  have hsolve := System.solve_ok.mpr hsolve
  obtain ⟨k, e, x, hreach, hx, _, _, _, hpassed, _, ⟨F, _, hleft⟩, _⟩ :=
    self_check hsolve hr.1 hr.2
  exact ⟨report, t, hsolve, hr.1, hr.2, ⟨x, hx, hpassed⟩, k, e, F, hreach, hleft⟩

/-- The answer `1000000` leaves a gap of `0.0005`, and the check fails. -/
theorem self_check_fails :
    ∃ report t, heavyEquation.solve true (1 / 100000000) = (.ok report, t) ∧
      report.classification = .solved ∧ report.columnSwaps = 0 ∧ report.validation = .failed := by
  have hrun : endsWith (solve ⟨true, 1 / 100000000, heavyEquation⟩) { system := heavyEquation }
      (fun report _ => report.classification == .solved && report.columnSwaps == 0 &&
        report.validation == .failed) = true := by
    decide +kernel
  obtain ⟨report, t, hsolve, hr⟩ := exists_of_endsWith hrun
  simp only [Bool.and_eq_true, beq_iff_eq] at hr
  exact ⟨report, t, System.solve_ok.mpr hsolve, hr.1.1, hr.1.2, hr.2⟩

end Reduction

end GaussJordan
