import GaussJordan.Proofs.BackReduction
import GaussJordan.Proofs.Rank
import GaussJordan.Proofs.Totality

/-!
# GaussJordan.Proofs.Exactness

Over the rationals and with tolerance zero the reduction is exact.

The turns of the pivots leave a matrix in row echelon form with ones for pivots
(`PivotPlaced.triangular`). If columns were exchanged on the way the matrix is singular, since the
columns up to the pivot's then are dependent (`reachEchelon_echelon`). So an invertible system is
reduced without an exchange of columns, and the reduction above the pivots ends at the identity.

`solve_exact` says what this means for the report: the classification is right in all three cases,
the solution solves the given system, and the free variables are counted by the rank.
-/

namespace GaussJordan

open Matrix

variable {n : Nat} {k : Nat}

namespace System

variable {m : System Rat n}

theorem isZeroAt_iff (htol : m.tolerance = 0) {i j : Fin n} :
    m.isZeroAt i j = true ↔ m.matrix i j = 0 := by
  rw [isZeroAt, htol, Complex.isZero_zero_iff]
  rfl

theorem Rearranged.triangular {m' : System Rat n} (h : Rearranged k m m')
    (hm : Triangular k m.matrix) : Triangular k m'.matrix := by
  constructor
  · intro i hi
    rw [matrix_eq, h.coefficient_eq hi hi]
    exact hm.pivot i hi
  · intro i j hj hji
    by_cases hi : i.val < k
    · rw [matrix_eq, h.coefficient_eq hi hj]
      exact hm.below i j hj hji
    · refine h.column (P := fun a => a = 0) hj (fun l hl => ?_) i (not_lt.mp hi)
      exact hm.below l j hj (Fin.lt_def.mpr (by omega))

end System

namespace Reduction

variable {s t : Reduction Rat n} {pivot : Fin n} {c : Unit}

/-! ## One pivot -/

theorem normalize_triangular (htol : s.system.tolerance = 0)
    (hs : Triangular pivot s.system.matrix) (h : normalize pivot s = .ok c t) :
    t.system.coefficient pivot pivot = 1 ∧ Triangular pivot t.system.matrix := by
  obtain ⟨factor, hf, ⟨hone, rfl⟩ | ⟨_, hp⟩⟩ := normalize_ok h
  · refine ⟨?_, hs⟩
    rw [htol] at hone
    obtain ⟨_, hinv⟩ := Complex.inverse_ok.mp hf
    rw [Complex.isOne_zero_iff.mp hone] at hinv
    exact inv_eq_one.mp hinv.symm
  · have hcoef := Operation.coefficient_apply_scale s.system factor pivot
    rw [← hp.system] at hcoef
    have hone : t.system.coefficient pivot pivot = 1 := by
      rw [hcoef, if_pos rfl, if_pos rfl, Complex.one_eq]
    refine ⟨hone, fun i hi => ?_, fun i j hj hji => ?_⟩
    · rw [System.matrix_eq, hcoef, if_neg (fun he => by rw [he] at hi; exact lt_irrefl _ hi)]
      exact hs.pivot i hi
    · rw [System.matrix_eq, hcoef]
      split
      · rename_i hi
        have hzero : s.system.coefficient pivot j = 0 := hs.below pivot j hj (hi ▸ hji)
        rw [if_neg (fun he => by rw [he] at hj; exact lt_irrefl _ hj), hzero, zero_mul]
      · exact hs.below i j hj hji

theorem eliminateBelow_triangular (htol : s.system.tolerance = 0)
    (hpivot : s.system.coefficient pivot pivot = 1) (hs : Triangular pivot s.system.matrix)
    (h : eliminateBelow pivot s = .ok c t) : Triangular (pivot + 1) t.system.matrix := by
  obtain ⟨_, hsame, hbelow⟩ := eliminateBelow_ok h
  have hupper : ∀ i j : Fin n, i ≤ pivot → t.system.matrix i j = s.system.matrix i j := by
    intro i j hi
    rw [System.matrix_eq, System.coefficient, System.term, hsame i hi]
    rfl
  have hlower : ∀ i j : Fin n, pivot < i → t.system.matrix i j = s.system.matrix i j +
      s.system.matrix pivot j * -(s.system.matrix i pivot) := by
    intro i j hi
    obtain ⟨q, hq, hrow⟩ := hbelow i hi
    rw [hpivot] at hq
    obtain ⟨_, rfl⟩ := Complex.div_ok.mp hq
    rw [div_one] at hrow
    have hfaithful : s.system.coefficient i pivot +
        s.system.coefficient pivot pivot * -(s.system.coefficient i pivot) = 0 := by
      rw [hpivot, one_mul, add_neg_cancel]
    rw [System.matrix_eq, System.coefficient, System.term, hrow, htol]
    exact Row.get_cleared hfaithful j
  constructor
  · intro i hi
    rw [hupper i i (Fin.le_def.mpr (by omega))]
    by_cases hip : i = pivot
    · rw [hip]
      exact hpivot
    · have hne : i.val ≠ pivot.val := fun he => hip (Fin.ext he)
      exact hs.pivot i (by omega)
  · intro i j hj hji
    by_cases hi : i ≤ pivot
    · rw [hupper i j hi]
      exact hs.below i j (lt_of_lt_of_le hji hi) hji
    · rw [hlower i j (not_le.mp hi)]
      by_cases hjp : j = pivot
      · have hpivot : s.system.matrix pivot pivot = 1 := hpivot
        rw [hjp, hpivot, one_mul, add_neg_cancel]
      · have hne : j.val ≠ pivot.val := fun he => hjp (Fin.ext he)
        have hlt : j.val < pivot.val := by omega
        rw [hs.below i j hlt hji, hs.below pivot j hlt hlt, zero_mul, add_zero]

/-- The turn of a pivot adds its column to the triangular ones. -/
theorem PivotPlaced.triangular (h : PivotPlaced pivot s t) (htol : s.system.tolerance = 0)
    (hs : Triangular pivot s.system.matrix) : Triangular (pivot + 1) t.system.matrix := by
  obtain @⟨u, v, hfound, hnorm, helim⟩ := h
  have hu : u.system.tolerance = 0 := hfound.rearranged.tolerance.trans htol
  obtain ⟨hpivot, hv⟩ := normalize_triangular hu (hfound.rearranged.triangular hs) hnorm
  refine eliminateBelow_triangular ?_ hpivot hv helim
  obtain ⟨_, ops⟩ := normalize_trace hnorm
  exact ops.tolerance.trans hu

theorem ForwardStep.det_eq_zero {m : System Rat n} {op : Operation Rat n} (h : ForwardStep m op)
    (hm : m.matrix.det = 0) : (op.apply m).matrix.det = 0 := by
  rw [Operation.matrix_apply h.faithful, det_mul, det_permute', hm, mul_zero, mul_zero]

/-- An exchange of columns happens in a singular system only. -/
theorem PivotPlaced.history_or (h : PivotPlaced pivot s t) (htol : s.system.tolerance = 0)
    (hs : Triangular pivot s.system.matrix) :
    t.history = s.history ∨ s.system.matrix.det = 0 := by
  obtain @⟨u, v, hfound, hnorm, helim⟩ := h
  have hrows : t.history = u.history := history_of_normalize_eliminateBelow hnorm helim
  rcases hfound.history with hu | ⟨_, _, _, hzero, _⟩
  · exact .inl (hrows.trans hu)
  · exact .inr (hs.det_eq_zero fun i hi => (System.isZeroAt_iff htol).mp (hzero i hi))

/-! ## Row echelon form -/

/-- With tolerance zero, and whatever happened, the system in row echelon form has a pivot in each
of the first `k` columns and zeros elsewhere. If columns were exchanged it is singular. -/
theorem reachEchelon_echelon {m : System Rat n} {e : Reduction Rat n} (htol : m.tolerance = 0)
    (h : reachEchelon { system := m } = .ok (some k) e) :
    Echelon k e.system.matrix ∧ e.system.tolerance = 0 ∧
      (e.history = [] ∨ e.system.matrix.det = 0) := by
  rcases reachEchelon_ok h with ⟨hr, _⟩ | ⟨_, u, v, hk, hopen, hplace, ha⟩
  · cases hr
  · cases hk
    have hu : u.system.tolerance = 0 := hopen.tolerance.trans htol
    have hI := placePivots_invariant
      (I := fun p w => w.system.tolerance = 0 ∧ Triangular p w.system.matrix ∧
        (w.history = [] ∨ w.system.matrix.det = 0)) ?_
      n 0 u v k (Nat.zero_add n)
      ⟨hu, ⟨fun i hi => absurd hi (Nat.not_lt_zero _), fun _ j hj => absurd hj (Nat.not_lt_zero _)⟩,
        .inl hopen.history⟩ hplace
    · rw [Nat.zero_add] at hI
      obtain ⟨hkn, ⟨hv, htri, hhist⟩, hzero⟩ := hI
      rw [ha.system, ha.history]
      refine ⟨⟨htri, hkn, fun i j hi hj => ?_⟩, hv, hhist⟩
      exact (System.isZeroAt_iff hv).mp (hzero i j hi hj)
    · rintro pivot w x ⟨hw, htri, hhist⟩ hplaced
      refine ⟨hplaced.tolerance.trans hw, hplaced.triangular hw htri, ?_⟩
      obtain ⟨ops, htrace⟩ := hplaced.trace
      have hdet : w.system.matrix.det = 0 → x.system.matrix.det = 0 := fun hzero =>
        htrace.invariant (I := fun m => m.matrix.det = 0) (fun _ _ hg => hg.det_eq_zero) hzero
      rcases hplaced.history_or hw htri with hx | hzero
      · exact hhist.imp (fun hnil => hx.trans hnil) hdet
      · exact .inr (hdet hzero)

end Reduction

/-! ## Classification -/

namespace System

variable {m : System Rat n}

theorem counts_iff_of_echelon (htol : m.tolerance = 0) (h : Echelon k m.matrix) (i : Fin n) :
    m.counts i = true ↔ i.val < k := by
  rw [counts_iff]
  constructor
  · rintro ⟨j, hj⟩
    refine Nat.lt_of_not_le fun hi => ?_
    rw [(isZeroAt_iff htol).mpr (h.row_eq_zero hi j)] at hj
    cases hj
  · intro hi
    refine ⟨i, ?_⟩
    rw [← Bool.not_eq_true, isZeroAt_iff htol, h.pivot i hi]
    exact one_ne_zero

/-- In row echelon form the rank that the system is classified by is that of its matrix. -/
theorem rank_of_echelon (htol : m.tolerance = 0) (h : Echelon k m.matrix) :
    m.rank = m.matrix.rank := by
  rw [h.rank_eq, rank_eq_iff h.le fun i hi => (counts_iff_of_echelon htol h i).mpr hi]
  intro i hi
  rw [← Bool.not_eq_true, counts_iff_of_echelon htol h]
  exact not_lt.mpr hi

/-- In row echelon form a system is inconsistent exactly if it has no solution. -/
theorem isInconsistent_of_echelon (htol : m.tolerance = 0) (h : Echelon k m.matrix) :
    m.isInconsistent = true ↔ ¬∃ y, m.matrix *ᵥ y = m.constants.get := by
  rw [isInconsistent_iff, h.solvable_iff, not_forall]
  refine exists_congr fun i => ?_
  rw [← Bool.not_eq_true, ← Bool.not_eq_true, counts_iff_of_echelon htol h, htol,
    Complex.isZero_zero_iff, constants_get, not_lt, Classical.not_imp]

/-- The second system is in row echelon form with `k` pivots and has the same solutions as the first
one, up to their order. -/
structure ReducesTo (m e : System Rat n) (k : Nat) : Prop where
  tolerance : e.tolerance = 0
  echelon : Echelon k e.matrix
  solvable : (∃ x, m.matrix *ᵥ x = m.constants.get) ↔ ∃ y, e.matrix *ᵥ y = e.constants.get
  rank : m.matrix.rank = e.matrix.rank
  isUnit : IsUnit m.matrix ↔ IsUnit e.matrix

namespace ReducesTo

variable {e : System Rat n}

theorem isInconsistent_iff (h : ReducesTo m e k) :
    e.isInconsistent = true ↔ ¬∃ x, m.matrix *ᵥ x = m.constants.get := by
  rw [isInconsistent_of_echelon h.tolerance h.echelon, h.solvable]

theorem exists_solution (h : ReducesTo m e k) (he : e.isInconsistent = false) :
    ∃ x, m.matrix *ᵥ x = m.constants.get := by
  by_contra hno
  rw [h.isInconsistent_iff.mpr hno] at he
  cases he

theorem freeVariables_eq (h : ReducesTo m e k) : e.freeVariables = n - m.matrix.rank := by
  rw [freeVariables, rank_of_echelon h.tolerance h.echelon, h.rank]

theorem isUnit_iff (h : ReducesTo m e k) : IsUnit m.matrix ↔ k = n := by
  rw [h.isUnit, isUnit_iff_isUnit_det, isUnit_iff_ne_zero, h.echelon.det_ne_zero_iff]

theorem rank_eq (h : ReducesTo m e k) : m.matrix.rank = k := by
  rw [h.rank, h.echelon.rank_eq]

end ReducesTo

/-- An invertible system has a solution. -/
theorem exists_solution_of_isUnit (h : IsUnit m.matrix) :
    ∃ x, m.matrix *ᵥ x = m.constants.get := by
  refine ⟨m.matrix⁻¹ *ᵥ m.constants.get, ?_⟩
  rw [mulVec_mulVec, mul_nonsing_inv _ ((isUnit_iff_isUnit_det _).mp h), one_mulVec]

/-- A system without a nonzero coefficient is in row echelon form. -/
theorem reducesTo_self (htol : m.tolerance = 0) (h : m.findFirstRow = none) : ReducesTo m m 0 := by
  have hzero : ∀ i j, m.matrix i j = 0 := by
    intro i j
    rw [findFirstRow, List.findSome?_eq_none_iff] at h
    have hrow := findRow_eq_none.mp (h j (List.mem_finRange j)) i (Nat.zero_le _)
    exact (isZeroAt_iff htol).mp hrow
  refine ⟨htol, ⟨⟨fun i hi => ?_, fun i j hj _ => ?_⟩, Nat.zero_le n, fun i j _ _ => hzero i j⟩,
    Iff.rfl, rfl, Iff.rfl⟩
  · exact absurd hi (Nat.not_lt_zero _)
  · exact absurd hj (Nat.not_lt_zero _)

end System

namespace Reduction

variable {m : System Rat n} {e t : Reduction Rat n}

theorem reachEchelon_reducesTo (htol : m.tolerance = 0)
    (h : reachEchelon { system := m } = .ok (some k) e) : m.ReducesTo e.system k := by
  obtain ⟨hech, he, _⟩ := reachEchelon_echelon htol h
  obtain ⟨hP, hmatrix, hconst⟩ := reachEchelon_matrix h
  rw [matrix_inputOrder] at hmatrix
  have hsolvable : (∃ x, m.matrix *ᵥ x = m.constants.get) ↔
      ∃ y, e.system.matrix *ᵥ y = e.system.constants.get := by
    constructor
    · rintro ⟨x, hx⟩
      rw [← mulVec_eq_iff hP, ← hmatrix, ← hconst, submatrix_mulVec_equiv] at hx
      exact ⟨_, hx⟩
    · rintro ⟨y, hy⟩
      refine ⟨y ∘ undoing e.history, ?_⟩
      rw [← mulVec_eq_iff hP, ← hmatrix, ← hconst, submatrix_mulVec_equiv, Function.comp_assoc,
        Equiv.self_comp_symm, Function.comp_id]
      exact hy
  refine ⟨he, hech, hsolvable, ?_, ?_⟩
  · rw [← rank_mul_eq_right_of_isUnit_det _ _ hP, ← hmatrix]
    exact rank_submatrix e.system.matrix (Equiv.refl _) _
  · have hperm : IsUnit (e.system.matrix.submatrix id (undoing e.history)) ↔
        IsUnit e.system.matrix :=
      isUnit_submatrix_equiv (Equiv.refl _) _
    rw [← hperm, hmatrix, isUnit_iff_isUnit_det, isUnit_iff_isUnit_det, det_mul, IsUnit.mul_iff]
    exact (and_iff_right hP).symm

/-- An invertible system is reduced to the identity, and the constant terms become its solution. -/
theorem backReduce_solution (htol : m.tolerance = 0)
    (h : reachEchelon { system := m } = .ok (some n) e) {u v : Reduction Rat n} {c : Unit}
    (hu : u.system = e.inputOrder) (hback : backReduce u = .ok c v) :
    m.matrix *ᵥ v.system.constants.get = m.constants.get := by
  obtain ⟨hech, he, hhist⟩ := reachEchelon_echelon htol h
  obtain ⟨hP, hmatrix, hconst⟩ := reachEchelon_matrix h
  have hnil : e.history = [] := hhist.resolve_right (hech.det_ne_zero_iff.mpr rfl)
  rw [inputOrder, hnil] at hu hmatrix
  have hu : u.system = e.system := hu
  obtain ⟨ops, _, _, _, hx, hreduced⟩ := backReduce_product hback
  rw [hu] at hx hreduced
  have hone : Operation.product ops * e.system.matrix = 1 := by
    rw [← hreduced hech.toTriangular]
    refine backReduce_identity ?_ ?_ hback
    · rw [hu, he]
    · rw [hu]
      exact hech.toTriangular
  rw [← mulVec_eq_iff hP, ← hmatrix, ← hconst, hx]
  change e.system.matrix *ᵥ _ = _
  rw [mulVec_mulVec, mul_eq_one_comm.mp hone, one_mulVec]

end Reduction

/-- Over the rationals and with tolerance zero every run ends with a report, and it is right: a
system is solved exactly if its matrix is invertible, and then the values in the order of the input
satisfy it; it has no solution exactly if no values do; and it has infinitely many exactly if it is
consistent and singular, the free variables being those that the rank leaves. -/
theorem System.solve_exact (m : System Rat n) (hn : 1 ≤ n) (htol : m.tolerance = 0) (verify : Bool)
    (verifyTolerance : Rat) :
    ∃ report t, m.solve verify verifyTolerance = (.ok report, t) ∧
      (report.classification = .solved ↔ IsUnit m.matrix) ∧
      (report.classification = .solved →
        ∃ x, report.solution = some x ∧ m.matrix *ᵥ x.get = m.constants.get) ∧
      (report.classification = .noSolution ↔ ¬∃ x, m.matrix *ᵥ x = m.constants.get) ∧
      (report.classification = .infiniteSolutions ↔
        (∃ x, m.matrix *ᵥ x = m.constants.get) ∧ ¬IsUnit m.matrix) ∧
      (report.classification = .infiniteSolutions →
        report.freeVariables = n - m.matrix.rank) := by
  obtain ⟨report, t, hsolve⟩ := m.solve_total (le_of_eq htol.symm) verify verifyTolerance
  refine ⟨report, t, hsolve, ?_⟩
  rcases Reduction.solve_ok (System.solve_ok.mp hsolve) with
    ⟨e, hreach, hend⟩ | ⟨k, e, hreach, hend⟩
  · rcases Reduction.reachEchelon_ok hreach with ⟨_, hrow, ha⟩ | ⟨_, _, _, hr, _⟩
    · have hred : m.ReducesTo e.system 0 := by
        rw [ha.system]
        exact reducesTo_self htol hrow
      have hsingular : ¬IsUnit m.matrix := by
        rw [hred.isUnit_iff]
        omega
      rcases Reduction.classifyDegenerate_ok hend with ⟨hi, hc, _⟩ | ⟨hi, hc, _, hfree⟩
      · have hno := hred.isInconsistent_iff.mp hi
        simp [hc, hno, hsingular]
      · have hsome := hred.exists_solution hi
        simp [hc, hsome, hsingular, hfree, hred.rank_eq]
    · cases hr
  · have hred := Reduction.reachEchelon_reducesTo htol hreach
    cases hend with
    | noSolution hi hc =>
      have hno := hred.isInconsistent_iff.mp hi
      have hsingular : ¬IsUnit m.matrix := fun h => hno (exists_solution_of_isUnit h)
      simp [hc, hno, hsingular]
    | infiniteSolutions hi hpos hc _ hfree =>
      have hsome := hred.exists_solution hi
      have hsingular : ¬IsUnit m.matrix := by
        rw [hred.isUnit_iff]
        rw [hred.freeVariables_eq, hred.rank_eq] at hpos
        omega
      simp [hc, hsome, hsingular, hfree, hred.freeVariables_eq]
    | solved hi hfree hu _ hback ha hc hx =>
      have hsome := hred.exists_solution hi
      have hk : k = n := by
        have hle := hred.echelon.le
        rw [hred.freeVariables_eq, hred.rank_eq] at hfree
        omega
      subst hk
      have hunit := hred.isUnit_iff.mpr rfl
      have hsolution := Reduction.backReduce_solution htol hreach hu hback
      rw [← ha.system] at hsolution
      simp [hc, hsome, hunit, hx, hsolution]

/-- `y = 3` and `2 x + y = 7`: a row has to be moved up for the first pivot. -/
def crossedPair : System Rat 2 where
  tolerance := 0
  rows :=
    let a (q : Rat) : Complex Rat := .ofReal q
    #v[#v[a 0, a 1, a 3], #v[a 2, a 1, a 7]]

theorem System.solve_exact_crossedPair :
    1 ≤ 2 ∧ crossedPair.tolerance = 0 ∧
    ∃ report t, crossedPair.solve true 0 = (.ok report, t) ∧ report.classification = .solved ∧
      ∃ x, report.solution = some x ∧ crossedPair.matrix *ᵥ x.get = crossedPair.constants.get := by
  obtain ⟨report, t, hsolve, hunit, hsolution, _⟩ :=
    crossedPair.solve_exact (by decide) rfl true 0
  have hdet : (crossedPair.matrix.det).re ≠ 0 := by
    rw [det_fin_two]
    decide +kernel
  have hsolved : report.classification = .solved := by
    rw [hunit, isUnit_iff_isUnit_det, isUnit_iff_ne_zero]
    intro h
    rw [h] at hdet
    exact hdet rfl
  exact ⟨by decide, rfl, report, t, hsolve, hsolved, hsolution hsolved⟩

end GaussJordan
