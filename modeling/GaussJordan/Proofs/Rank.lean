import GaussJordan.Proofs.Outcome

/-!
# GaussJordan.Proofs.Rank

The rank a system is classified by, over any scalar type: the number of rows with a coefficient that
is not zero within the tolerance.

* `rank_eq_add`: if the first `k` rows count, the rank is `k` and the number of later rows that do.
* `reachEchelon_counts`: in row echelon form the rows of the pivots count, and of the other rows
  those that have a term left over to the left of the last pivot.
* `Outcome.solved_iff`: a run is solved exactly if every row counts.
-/

namespace GaussJordan

variable {α : Type} [Scalar α] {n : Nat}

namespace System

theorem hasZeroCoefficients_row (m : System α n) (i : Fin n) :
    (m.row i).hasZeroCoefficients m.tolerance = true ↔ ∀ j, m.isZeroAt i j = true := by
  simp only [Row.hasZeroCoefficients, Row.coefficients, List.all_eq_true]
  constructor
  · intro h j
    apply h
    rw [List.mem_take_iff_getElem]
    exact ⟨j.val, by simp, by simp [coefficient, term]⟩
  · intro h a ha
    obtain ⟨j, hj, rfl⟩ := List.mem_take_iff_getElem.mp ha
    have hjn : j < n := by simp at hj; omega
    simpa [isZeroAt, coefficient, term] using h ⟨j, hjn⟩

/-- A row counts for the rank if some coefficient is not zero within the tolerance. -/
def counts (m : System α n) (i : Fin n) : Bool := !(m.row i).hasZeroCoefficients m.tolerance

theorem counts_iff {m : System α n} {i : Fin n} :
    m.counts i = true ↔ ∃ j, m.isZeroAt i j = false := by
  have h := m.hasZeroCoefficients_row i
  rw [counts, Bool.not_eq_true', ← Bool.not_eq_true, h]
  simp

theorem rank_eq_countP (m : System α n) : m.rank = (List.finRange n).countP m.counts := by
  rw [rank, toList_rows, List.countP_map]
  rfl

theorem rank_le (m : System α n) : m.rank ≤ n := by
  have h := List.countP_le_length (l := List.finRange n) (p := m.counts)
  rwa [List.length_finRange, ← rank_eq_countP] at h

/-- If the first `k` rows count, the rank is `k` and the number of later rows that count. -/
theorem rank_eq_add {m : System α n} {k : Nat} (hk : k ≤ n)
    (hrows : ∀ i : Fin n, i.val < k → m.counts i = true) :
    m.rank = k + ((List.finRange n).drop k).countP m.counts := by
  have hfirst : ((List.finRange n).take k).countP m.counts = k := by
    rw [List.countP_eq_length.mpr]
    · simp [hk]
    · intro i hi
      obtain ⟨l, hl, rfl⟩ := List.mem_take_iff_getElem.mp hi
      apply hrows
      rw [List.getElem_finRange]
      exact Nat.lt_of_lt_of_le hl (Nat.min_le_left _ _)
  rw [rank_eq_countP, ← List.take_append_drop k (List.finRange n), List.countP_append, hfirst,
    List.take_append_drop]

theorem mem_drop_finRange {k : Nat} {i : Fin n} : i ∈ (List.finRange n).drop k ↔ k ≤ i.val := by
  rw [List.mem_drop_iff_getElem]
  constructor
  · rintro ⟨l, _, rfl⟩
    simp
  · intro hi
    refine ⟨i.val - k, by simp; omega, ?_⟩
    simp only [List.getElem_finRange]
    exact Fin.ext (by simp; omega)

theorem rank_eq_iff {m : System α n} {k : Nat} (hk : k ≤ n)
    (hrows : ∀ i : Fin n, i.val < k → m.counts i = true) :
    m.rank = k ↔ ∀ i : Fin n, k ≤ i.val → m.counts i = false := by
  rw [rank_eq_add hk hrows]
  constructor
  · intro h i hi
    have hzero : ((List.finRange n).drop k).countP m.counts = 0 := by omega
    have := List.countP_eq_zero.mp hzero i (mem_drop_finRange.mpr hi)
    simpa using this
  · intro h
    have hzero : ((List.finRange n).drop k).countP m.counts = 0 := by
      rw [List.countP_eq_zero]
      intro i hi
      rw [h i (mem_drop_finRange.mp hi)]
      exact Bool.false_ne_true
    omega

theorem rank_eq_size_iff {m : System α n} : m.rank = n ↔ ∀ i, m.counts i = true := by
  constructor
  · intro h i
    rw [rank_eq_countP] at h
    have hlen : (List.finRange n).countP m.counts = (List.finRange n).length := by
      rw [h, List.length_finRange]
    exact List.countP_eq_length.mp hlen i (List.mem_finRange i)
  · intro h
    rw [rank_eq_countP, List.countP_eq_length.mpr (fun i _ => h i), List.length_finRange]

theorem isInconsistent_iff {m : System α n} :
    m.isInconsistent = true ↔
      ∃ i, m.counts i = false ∧ (m.row i).constant.isZero m.tolerance = false := by
  simp [isInconsistent, toList_rows, counts]

/-- With every row counting, no row reads `0 = c`. -/
theorem isInconsistent_of_counts {m : System α n} (h : ∀ i, m.counts i = true) :
    m.isInconsistent = false := by
  rw [← Bool.not_eq_true, isInconsistent_iff]
  rintro ⟨i, hi, _⟩
  rw [h i] at hi
  cases hi

end System

namespace Reduction

/-- Wherever a pivot was placed there is a nonzero term. -/
theorem placePivots_nonzero {s t : Reduction α n} {k : Nat}
    (hone : (Complex.one : Complex α).isZero s.system.tolerance = false)
    (h : placePivots (List.finRange n) s = .ok k t) :
    k ≤ n ∧ (∀ i : Fin n, i.val < k → t.system.isZeroAt i i = false) ∧ t.system.Exhausted k := by
  have hI := placePivots_invariant
    (I := fun k u => u.system.tolerance = s.system.tolerance ∧
      ∀ i : Fin n, i.val < k → u.system.isZeroAt i i = false) ?_
    n 0 s t k (Nat.zero_add n) ⟨rfl, fun i hi => absurd hi (Nat.not_lt_zero _)⟩ h
  · rw [Nat.zero_add] at hI
    exact ⟨hI.1, hI.2.1.2, hI.2.2⟩
  · rintro pivot u v ⟨htol, hu⟩ hplaced
    refine ⟨hplaced.tolerance.trans htol, fun i hi => ?_⟩
    by_cases hip : i = pivot
    · subst hip
      rcases hplaced.pivot_term with hp | hp
      · rw [System.isZeroAt, hp, hplaced.tolerance, htol]
        exact hone
      · exact hp
    · have hlt : i < pivot := by
        have hne : i.val ≠ pivot.val := fun he => hip (Fin.ext he)
        exact Fin.lt_def.mpr (by omega)
      rw [System.isZeroAt, hplaced.coefficient_eq hlt hlt, hplaced.tolerance]
      exact hu i hlt

/-- In row echelon form the rows of the pivots count, and of the other rows only a residue to the
left of the last pivot can count. -/
theorem reachEchelon_counts {s e : Reduction α n} {k : Nat}
    (hone : (Complex.one : Complex α).isZero s.system.tolerance = false)
    (h : reachEchelon s = .ok (some k) e) :
    k ≤ n ∧ (∀ i : Fin n, i.val < k → e.system.counts i = true) ∧
      ∀ i : Fin n, k ≤ i.val →
        (e.system.counts i = true ↔ ∃ j : Fin n, j.val < k ∧ e.system.isZeroAt i j = false) := by
  rcases reachEchelon_ok h with ⟨hr, _⟩ | ⟨_, u, v, hk, hopen, hplace, ha⟩
  · cases hr
  · cases hk
    rw [← hopen.tolerance] at hone
    obtain ⟨hkn, hpivots, hzero⟩ := placePivots_nonzero hone hplace
    rw [ha.system]
    refine ⟨hkn, fun i hi => System.counts_iff.mpr ⟨i, hpivots i hi⟩, fun i hi => ?_⟩
    rw [System.counts_iff]
    constructor
    · rintro ⟨j, hj⟩
      refine ⟨j, Nat.lt_of_not_le fun hkj => ?_, hj⟩
      rw [hzero i j hi hkj] at hj
      cases hj
    · rintro ⟨j, _, hj⟩
      exact ⟨j, hj⟩

/-- A run in row echelon form is solved exactly if every row counts. -/
theorem Outcome.solved_iff {check : Check α n} {e t : Reduction α n} {report : Report α n}
    (h : Outcome check e report t) :
    report.classification = .solved ↔ ∀ i, e.system.counts i = true := by
  rw [← System.rank_eq_size_iff]
  have hle := e.system.rank_le
  cases h with
  | noSolution hinc hc =>
    rw [hc]
    refine ⟨nofun, fun h => ?_⟩
    rw [System.isInconsistent_of_counts (System.rank_eq_size_iff.mp h)] at hinc
    cases hinc
  | infiniteSolutions _ hfree hc =>
    rw [hc]
    refine ⟨nofun, fun h => ?_⟩
    rw [System.freeVariables, h] at hfree
    omega
  | solved _ hfree _ _ _ _ hc =>
    rw [hc]
    refine ⟨fun _ => ?_, fun _ => rfl⟩
    rw [System.freeVariables] at hfree
    omega

end Reduction

end GaussJordan
