import GaussJordan.Proofs.Rank

/-!
# GaussJordan.Proofs.PivotCount

The rank a system is classified by, against the number of pivots that were placed.

The rank counts the rows with a coefficient that is not zero within the tolerance. The loop over the
pivots decides by other terms: it looks for a pivot only from the pivot's row and column on, and it
leaves a term below a pivot alone if the *quotient* of the term by the pivot is zero within the
tolerance. Such a residue may exceed the tolerance, or be scaled up later, and its row then counts.

* `rank_eq_pivots_iff`: the two agree exactly if no residue to the left of the last pivot exceeds
  the tolerance, and a run that stopped early is solved exactly if every row left over has one.
* `rank_exceeds_pivots`: a singular system that is reported as solved.
-/

namespace GaussJordan

variable {n : Nat}

/-! ## Binary64 numbers -/

namespace Double

/-- One half. -/
def half : Double := ofRatio false 1 2

theorem half_eq : ∃ units h, half = .finite false units h ∧ units < unitsPerOne := by
  have hunits : roundToBits 53 (1 * unitsPerOne) 2 < unitsPerOne := by decide +kernel
  have hlimit := Nat.lt_trans hunits unitsPerOne_lt_unitsLimit
  refine ⟨_, ⟨hlimit, roundToBits_fits _ _ (by decide)⟩, ?_, hunits⟩
  simp only [half, ofRatio, ofUnits]
  exact dif_pos hlimit

theorem le_one_of_lt_half {tol : Double} (h : lt tol half = true) : le one tol = false := by
  obtain ⟨units, hrep, hhalf, hunits⟩ := half_eq
  rw [hhalf] at h
  cases tol with
  | finite negative u _ =>
    have hlt : signedUnits negative u < units := by simpa [lt, signedUnits] using h
    simp only [le, one, lt, eq, signedUnits, Bool.false_eq_true, if_false, Bool.or_eq_false_iff,
      decide_eq_false_iff_not]
    rw [signedUnits] at hlt
    constructor <;> omega
  | infinite negative =>
    cases negative with
    | false => simp [lt] at h
    | true => rfl
  | nan => simp [lt] at h

/-- Below one half, the tolerance tells one from zero. -/
theorem isZero_one {tol : Double} (h : lt tol half = true) :
    (Complex.one : Complex Double).isZero tol = false := by
  have hle : Scalar.within tol (Complex.one : Complex Double).re = false := le_one_of_lt_half h
  rw [Complex.isZero, hle, Bool.false_and]

end Double

namespace Reduction

/-- With `k` pivots placed, the rank is `k` exactly if every term to the left of column `k` in the
rows from `k` on is zero within the tolerance. If the loop stopped before the last pivot, the run is
nevertheless reported as solved exactly if each of these rows has a term there that is not. -/
theorem rank_eq_pivots_iff {m : System Double n} {e : Reduction Double n} {k : Nat}
    (htol : Double.lt m.tolerance Double.half = true)
    (h : reachEchelon { system := m } = .ok (some k) e) :
    (e.system.rank = k ↔
      ∀ i j : Fin n, k ≤ i.val → j.val < k → e.system.isZeroAt i j = true) ∧
    ∀ (check : Check Double n) (report : Report Double n) (t : Reduction Double n), k < n →
      classify check e = .ok report t →
      (report.classification = .solved ↔
        ∀ i : Fin n, k ≤ i.val → ∃ j : Fin n, j.val < k ∧ e.system.isZeroAt i j = false) := by
  obtain ⟨hkn, hrows, hrest⟩ := reachEchelon_counts (Double.isZero_one htol) h
  constructor
  · rw [System.rank_eq_iff hkn hrows]
    constructor
    · intro hzero i j hi hj
      by_cases hz : e.system.isZeroAt i j = true
      · exact hz
      · have hc := (hrest i hi).mpr ⟨j, hj, by simpa using hz⟩
        rw [hzero i hi] at hc
        cases hc
    · intro hzero i hi
      cases hc : e.system.counts i with
      | false => rfl
      | true =>
        obtain ⟨j, hj, hz⟩ := (hrest i hi).mp hc
        rw [hzero i j hi hj] at hz
        cases hz
  · intro check report t _ hclass
    rw [(classify_ok hclass).solved_iff]
    constructor
    · intro hall i hi
      exact (hrest i hi).mp (hall i)
    · intro hall i
      by_cases hi : k ≤ i.val
      · exact (hrest i hi).mpr (hall i hi)
      · exact hrows i (by omega)

/-- `1.25 x = 1` and `0.3125 x = 0` with a tolerance of a quarter; the second unknown occurs
nowhere. The inverse of `1.25` is one within the tolerance and the quotient `0.25` of the first
terms is zero, so neither is the first row scaled nor the second one cleared. -/
def unclearedPair : System Double 2 where
  tolerance := .ofRatio false 1 4
  rows :=
    let a (num den : Nat) := Complex.ofReal (.ofRatio false num den)
    #v[#v[a 5 4, .zero, .one], #v[a 5 16, .zero, .zero]]

theorem rank_eq_pivots_iff_unclearedPair :
    Double.lt unclearedPair.tolerance Double.half = true ∧
    ∃ e report t, reachEchelon { system := unclearedPair } = .ok (some 1) e ∧
      classify ⟨false, .zero, unclearedPair⟩ e = .ok report t ∧
      (e.system.rank = 1 ↔
        ∀ i j : Fin 2, 1 ≤ i.val → j.val < 1 → e.system.isZeroAt i j = true) ∧
      (report.classification = .solved ↔
        ∀ i : Fin 2, 1 ≤ i.val → ∃ j : Fin 2, j.val < 1 ∧ e.system.isZeroAt i j = false) := by
  have htol : Double.lt unclearedPair.tolerance Double.half = true := by decide +kernel
  have hrun : endsWith reachEchelon { system := unclearedPair } (fun r e => r == some 1 &&
      endsWith (classify ⟨false, .zero, unclearedPair⟩) e fun _ _ => true) = true := by
    decide +kernel
  obtain ⟨r, e, hreach, hr⟩ := exists_of_endsWith hrun
  simp only [Bool.and_eq_true, beq_iff_eq] at hr
  obtain ⟨rfl, hclass⟩ := hr
  obtain ⟨report, t, hclass, _⟩ := exists_of_endsWith hclass
  obtain ⟨hrank, hsolved⟩ := rank_eq_pivots_iff htol hreach
  exact ⟨htol, e, report, t, hreach, hclass, hrank, hsolved _ report t (by decide) hclass⟩

/-- Only one pivot is placed, but both rows count for the rank and the run is reported as solved. -/
theorem rank_exceeds_pivots :
    Double.lt .zero unclearedPair.tolerance = true ∧
    Double.lt unclearedPair.tolerance Double.half = true ∧
    (∀ i j, (unclearedPair.term i j).re.isFinite = true ∧
      (unclearedPair.term i j).im.isFinite = true) ∧
    ∃ e report t, reachEchelon { system := unclearedPair } = .ok (some 1) e ∧
      e.system.rank = 2 ∧ classify ⟨false, .zero, unclearedPair⟩ e = .ok report t ∧
      report.classification = .solved := by
  refine ⟨by decide +kernel, by decide +kernel, by decide +kernel, ?_⟩
  have hrun : endsWith reachEchelon { system := unclearedPair } (fun r e => r == some 1 &&
      e.system.rank == 2 && endsWith (classify ⟨false, .zero, unclearedPair⟩) e
        fun report _ => report.classification == .solved) = true := by
    decide +kernel
  obtain ⟨r, e, hreach, hr⟩ := exists_of_endsWith hrun
  simp only [Bool.and_eq_true, beq_iff_eq] at hr
  obtain ⟨⟨rfl, hrank⟩, hclass⟩ := hr
  obtain ⟨report, t, hclass, hsolved⟩ := exists_of_endsWith hclass
  exact ⟨e, report, t, hreach, hrank, hclass, eq_of_beq hsolved⟩

end Reduction

end GaussJordan
