import GaussJordan.Proofs.BackReduction

/-!
# GaussJordan.Proofs.ColumnExchange

What an exchange of columns does to the answer, over the rationals.

The exchanges are taken back before the reduction above the pivots, which works on the system in the
order of the input. There a pivot whose column was exchanged is no longer on the diagonal: its place
is taken by the term that was not good enough for a pivot (`PivotPlaced.exchanged_term`), and later
turns leave the term alone (`PivotPlaced.inputOrder_coefficient`). So the reduction does not lead to
the identity, and the constant terms it ends with need not satisfy the system it started from.
`exchanged_solution_iff` says when they do, and `exchanged_solution_wrong` is a run where they do
not.
-/

namespace GaussJordan

open Matrix

variable {n : Nat}

namespace Reduction

variable {s t : Reduction Rat n} {pivot : Fin n}

theorem inputOrder_coefficient (s : Reduction Rat n) (i j : Fin n) :
    s.inputOrder.coefficient i j = s.system.coefficient i (undoing s.history j) :=
  congrFun (congrFun s.matrix_inputOrder i) j

/-! ## The rows above the pivot -/

theorem exchanged_swap (i j k : Fin n) : exchanged i j (Equiv.swap i j k) = k := by
  have h : ∀ l, exchanged i j l = Equiv.swap i j l := fun l => (Equiv.swap_apply_def i j l).symm
  rw [h, Equiv.swap_apply_self]

theorem PivotFound.inputOrder_coefficient (h : PivotFound pivot s t) {i : Fin n} (hi : i < pivot)
    (j : Fin n) : t.inputOrder.coefficient i j = s.inputOrder.coefficient i j := by
  rw [Reduction.inputOrder_coefficient, Reduction.inputOrder_coefficient]
  cases h with
  | here => rfl
  | row hrow hp =>
    have hle := (System.findRow_eq_some hrow).1
    rw [hp.system, hp.history, Operation.apply, System.coefficient_swapRows, exchanged_of_lt hi hle]
    rfl
  | column _ _ hp =>
    rw [hp.system, hp.history, Operation.apply, System.coefficient_swapColumns]
    exact congrArg _ (exchanged_swap _ _ _)
  | columnRow _ _ hp hrow hq =>
    have hle := (System.findRow_eq_some hrow).1
    rw [hq.system, hq.history, Operation.apply, System.coefficient_swapRows, exchanged_of_lt hi hle,
      hp.system, hp.history, Operation.apply, System.coefficient_swapColumns]
    exact congrArg _ (exchanged_swap _ _ _)

/-- In the order of the input, a pivot's turn leaves the rows above alone. -/
theorem PivotPlaced.inputOrder_coefficient (h : PivotPlaced pivot s t) {i : Fin n} (hi : i < pivot)
    (j : Fin n) : t.inputOrder.coefficient i j = s.inputOrder.coefficient i j := by
  obtain @⟨u, v, hfound, hnorm, helim⟩ := h
  have hhist : t.history = u.history := history_of_normalize_eliminateBelow hnorm helim
  have hrow : t.system.row i = u.system.row i := by
    rw [(eliminateBelow_ok helim).2.1 i (le_of_lt hi)]
    obtain ⟨_, _, ⟨_, rfl⟩ | ⟨_, hp⟩⟩ := normalize_ok hnorm
    · rfl
    · rw [hp.system, Operation.row_apply_scale, if_neg (ne_of_gt hi)]
  rw [← hfound.inputOrder_coefficient hi, Reduction.inputOrder_coefficient,
    Reduction.inputOrder_coefficient, hhist, System.coefficient, System.term, hrow]
  rfl

/-- The first exchange of columns puts a term on the diagonal, in the order of the input, that is
not one, unless the tolerance is one or more. -/
theorem PivotPlaced.exchanged_term (h : PivotPlaced pivot s t) (hs : s.history = []) :
    t.history = [] ∨
      (s.system.tolerance < 1 → t.inputOrder.coefficient pivot pivot ≠ 1) := by
  obtain @⟨u, v, hfound, hnorm, helim⟩ := h
  have hhist : t.history = u.history := history_of_normalize_eliminateBelow hnorm helim
  rcases hfound.history with hu | ⟨column, hlt, hu, _, hzero⟩
  · exact .inl (hhist.trans (hu.trans hs))
  · right
    intro htol
    have hterm : t.inputOrder.coefficient pivot pivot = v.system.coefficient pivot column := by
      rw [Reduction.inputOrder_coefficient, hhist, hu, hs]
      change t.system.coefficient pivot (Equiv.swap pivot column pivot) = _
      rw [Equiv.swap_apply_left, System.coefficient, System.term,
        (eliminateBelow_ok helim).2.1 pivot (le_refl _)]
      rfl
    rw [hterm]
    have hpivot := hfound.nonzero
    rw [System.isZeroAt] at hzero hpivot
    obtain ⟨factor, hf, ⟨_, rfl⟩ | ⟨_, hp⟩⟩ := normalize_ok hnorm
    · intro hone
      have hone : v.system.coefficient pivot column = 1 := hone
      rw [hone, Complex.isZero_one_iff, hfound.rearranged.tolerance] at hzero
      exact absurd hzero (not_le.mpr htol)
    · intro hone
      obtain ⟨hne, rfl⟩ := Complex.inverse_ok.mp hf
      rw [hp.system, Operation.coefficient_apply_scale, if_pos rfl, if_neg (ne_of_lt hlt),
        mul_inv_eq_one₀ hne] at hone
      rw [hone, hpivot] at hzero
      cases hzero

/-- If columns were exchanged, some term on the diagonal is not one in the order of the input. -/
theorem reachEchelon_exchanged {m : System Rat n} {e : Reduction Rat n} {k : Nat}
    (h : reachEchelon { system := m } = .ok (some k) e) :
    e.history = [] ∨
      ∃ p : Fin n, m.tolerance < 1 → e.inputOrder.coefficient p p ≠ 1 := by
  rcases reachEchelon_ok h with ⟨hr, _⟩ | ⟨_, u, v, _, hopen, hplace, ha⟩
  · cases hr
  · have hI := placePivots_invariant
      (I := fun k w => w.system.tolerance = m.tolerance ∧ (w.history = [] ∨
        ∃ p : Fin n, p.val < k ∧ (m.tolerance < 1 → w.inputOrder.coefficient p p ≠ 1))) ?_
      n 0 u v _ (Nat.zero_add n) ⟨hopen.tolerance, .inl hopen.history⟩ hplace
    · have horder : e.inputOrder = v.inputOrder := by
        rw [inputOrder, inputOrder, ha.system, ha.history]
      rw [ha.history, horder]
      exact hI.2.1.2.imp id fun ⟨p, _, hp⟩ => ⟨p, hp⟩
    · rintro pivot w x ⟨hw, hterm⟩ hplaced
      refine ⟨hplaced.tolerance.trans hw, ?_⟩
      rcases hterm with hnil | ⟨p, hp, hne⟩
      · rw [← hw]
        exact (hplaced.exchanged_term hnil).imp id fun hne => ⟨pivot, Nat.lt_succ_self _, hne⟩
      · refine .inr ⟨p, Nat.lt_succ_of_lt hp, ?_⟩
        rwa [hplaced.inputOrder_coefficient (Fin.lt_def.mpr hp)]

/-! ## The answer -/

/-- In a solved system with an exchange of columns the echelon form is not unit upper triangular in
the order of the input. -/
theorem inputOrder_not_triangular {m : System Rat n} {e : Reduction Rat n} {k : Nat}
    (h : reachEchelon { system := m } = .ok (some k) e) (hcounts : ∀ i, e.system.counts i = true)
    (hhist : e.history ≠ []) : ¬Triangular n e.inputOrder.matrix := by
  intro htri
  obtain ⟨p, hp⟩ := (reachEchelon_exchanged h).resolve_left hhist
  by_cases htol : m.tolerance < 1
  · exact hp htol (htri.pivot p p.isLt)
  · -- under so large a tolerance the last row, that of the identity, does not count
    have hn : n - 1 < n := by
      have := p.isLt
      omega
    obtain ⟨j, hj⟩ := System.counts_iff.mp (hcounts ⟨n - 1, hn⟩)
    obtain ⟨ops, htrace⟩ := reachEchelon_trace h
    have htol : 1 ≤ e.system.tolerance := by
      rw [htrace.tolerance]
      exact not_lt.mp htol
    obtain ⟨l, rfl⟩ := (undoing e.history).surjective j
    rw [System.isZeroAt, ← inputOrder_coefficient, ← Bool.not_eq_true] at hj
    apply hj
    rcases lt_or_eq_of_le (Nat.le_sub_one_of_lt l.isLt) with hlt | heq
    · have hzero : e.inputOrder.coefficient ⟨n - 1, hn⟩ l = 0 := htri.below _ l l.isLt hlt
      rw [hzero]
      exact Complex.isZero_zero (le_trans zero_le_one htol)
    · obtain rfl : l = ⟨n - 1, hn⟩ := Fin.ext heq
      have hone : e.inputOrder.coefficient ⟨n - 1, hn⟩ ⟨n - 1, hn⟩ = 1 := htri.pivot _ hn
      rw [hone]
      exact Complex.isZero_one_iff.mpr htol

/-- After an exchange of columns, let `T` be the product of the operations above the pivots and `E`
the coefficients of the row echelon form in the order of the input. The values returned are `T`
times the constant terms. They satisfy the row echelon form exactly if `T * E` maps them to
themselves, and `T * E` is never the identity. -/
theorem exchanged_solution_iff {m : System Rat n} {verify : Bool} {verifyTolerance : Rat}
    {report : Report Rat n} {t : Reduction Rat n}
    (h : m.solve verify verifyTolerance = (.ok report, t))
    (hsolved : report.classification = .solved) (hswaps : 0 < report.columnSwaps) :
    ∃ k e x, reachEchelon { system := m } = .ok (some k) e ∧ report.solution = some x ∧
      let T := Operation.product (t.recorded.drop e.recorded.length)
      let E := e.inputOrder.matrix
      let c := e.inputOrder.constants.get
      x.get = T *ᵥ c ∧ (E *ᵥ x.get = c ↔ (T * E) *ᵥ x.get = x.get) ∧ T * E ≠ 1 := by
  obtain ⟨k, e, ops, hreach, hrun⟩ := solve_solved h hsolved
  have hhist : e.history ≠ [] := by
    intro hnil
    rw [hrun.columnSwaps, hnil] at hswaps
    exact absurd hswaps (Nat.lt_irrefl 0)
  have hdrop : t.recorded.drop e.recorded.length = ops := by
    rw [hrun.recorded, List.drop_left]
  refine ⟨k, e, t.system.constants, hreach, hrun.solution, ?_⟩
  rw [hdrop]
  refine ⟨hrun.constants, ?_, fun hone => ?_⟩
  · rw [← mulVec_eq_iff hrun.isUnit_det, ← hrun.constants]
  · exact inputOrder_not_triangular hreach hrun.counts hhist (hrun.triangular.of_mul_eq_one hone)

/-- `x / 4 + y / 2 = 0` and `y = 1` with a tolerance of a quarter. The first column counts as zero,
so `y` gets the first pivot, and the scaling of its row makes the term of `x` count. -/
def faintPair : System Rat 2 where
  tolerance := 1 / 4
  rows :=
    let a (q : Rat) : Complex Rat := .ofReal q
    #v[#v[a (1 / 4), a (1 / 2), a 0], #v[a 0, a 1, a 1]]

theorem exchanged_solution_iff_faintPair :
    ∃ report t, faintPair.solve false 0 = (.ok report, t) ∧ report.classification = .solved ∧
      0 < report.columnSwaps ∧
      ∃ k e x, reachEchelon { system := faintPair } = .ok (some k) e ∧ report.solution = some x ∧
        let T := Operation.product (t.recorded.drop e.recorded.length)
        let E := e.inputOrder.matrix
        let c := e.inputOrder.constants.get
        x.get = T *ᵥ c ∧ (E *ᵥ x.get = c ↔ (T * E) *ᵥ x.get = x.get) ∧ T * E ≠ 1 := by
  have hrun : endsWith (solve ⟨false, 0, faintPair⟩) { system := faintPair }
      (fun report _ => report.classification == .solved && report.columnSwaps == 1) = true := by
    decide +kernel
  obtain ⟨report, t, hsolve, hr⟩ := exists_of_endsWith hrun
  simp only [Bool.and_eq_true, beq_iff_eq] at hr
  have hsolve := System.solve_ok.mpr hsolve
  have hswaps : 0 < report.columnSwaps := by omega
  exact ⟨report, t, hsolve, hr.1, hswaps, exchanged_solution_iff hsolve hr.1 hswaps⟩

/-- The answer `(2, -2)` does not satisfy `x = -2`, the second row of the row echelon form. -/
theorem exchanged_solution_wrong :
    0 < faintPair.tolerance ∧
    ∃ report t e x, faintPair.solve false 0 = (.ok report, t) ∧ report.classification = .solved ∧
      0 < report.columnSwaps ∧ reachEchelon { system := faintPair } = .ok (some 2) e ∧
      report.solution = some x ∧ e.inputOrder.matrix *ᵥ x.get ≠ e.inputOrder.constants.get := by
  have hrun : endsWith reachEchelon { system := faintPair } (fun r e => r == some 2 &&
      endsWith (solve ⟨false, 0, faintPair⟩) { system := faintPair } fun report _ =>
        report.classification == .solved && report.columnSwaps == 1 &&
          report.solution.any fun x => ((e.inputOrder.matrix *ᵥ x.get) 1).re !=
            (e.inputOrder.constants.get 1).re) = true := by
    decide +kernel
  obtain ⟨r, e, hreach, hr⟩ := exists_of_endsWith hrun
  simp only [Bool.and_eq_true, beq_iff_eq] at hr
  obtain ⟨rfl, hr⟩ := hr
  obtain ⟨report, t, hsolve, hr⟩ := exists_of_endsWith hr
  simp only [Bool.and_eq_true, beq_iff_eq, Option.any_eq_true, bne_iff_ne] at hr
  obtain ⟨⟨hsolved, hcount⟩, x, hx, hne⟩ := hr
  refine ⟨by decide +kernel, report, t, e, x, System.solve_ok.mpr hsolve, hsolved, by omega, hreach,
    hx, fun h => hne ?_⟩
  rw [h]

end Reduction

end GaussJordan
