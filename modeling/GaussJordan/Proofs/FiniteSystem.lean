import GaussJordan.Proofs.Overflow

/-!
# GaussJordan.Proofs.FiniteSystem

Which runs over a system of finite binary64 numbers end with a report, without a check of the
solution.

Not all do (`finite_sum_fails`). If every coefficient is zero, the constant terms alone decide on
the classification, but their sum has to be written as well, so it must not overflow. Otherwise the
run ends with a report unless a term of the system or the square of a pivot overflows on the way
(`solve_finite`).
-/

namespace GaussJordan

variable {n : Nat} {m : System Double n} {verifyTolerance : Double}

namespace Reduction

variable {s t : Reduction Double n} {check : Check Double n}

theorem classifyDegenerate_sum {report : Report Double n}
    (h : classifyDegenerate check s = .ok report t) : s.system.sumOfConstants.IsFinite := by
  simp only [classifyDegenerate, bind_ok, get_ok, lift_ok] at h
  obtain ⟨_, _, henter, _, _, ⟨rfl, rfl⟩, _, _, ⟨hsum, rfl⟩, _⟩ := h
  rw [← (enter_ok henter).system]
  exact Complex.isFinite_of_textWith hsum

/-- Without a nonzero coefficient a run over finite numbers fails only at the sum. -/
theorem solve_degenerate_iff (hfinite : s.system.IsFinite)
    (hrow : s.system.findFirstRow = none) :
    (∃ report t, solve check s = .ok report t) ↔ s.system.sumOfConstants.IsFinite := by
  constructor
  · rintro ⟨report, t, h⟩
    rcases solve_ok h with ⟨e, hreach, hdegenerate⟩ | ⟨k, e, hreach, _⟩
    · rcases reachEchelon_ok hreach with ⟨_, _, ha⟩ | ⟨_, _, _, hr, _⟩
      · rw [← ha.system]
        exact classifyDegenerate_sum hdegenerate
      · cases hr
    · exact absurd hrow (findFirstRow_of_reachEchelon hreach)
  · intro hsum
    cases h : solve check s with
    | ok report t => exact ⟨report, t, rfl⟩
    | error e t =>
      exfalso
      cases solve_err h with
      | picture _ hp => exact (System.text_fault hp).2 hfinite
      | sum _ _ htext => exact (Complex.text_fault htext).2 hsum
      | blocked hsome _ => exact hsome hrow
      | answer hsome _ => exact hsome hrow
      | verdict hsome _ _ => exact hsome hrow

/-- With a nonzero coefficient a run over finite numbers fails only where a number overflows. -/
theorem solve_overflowed {e : Fault} (h : solve check s = .error e t)
    (hcheck : check.enabled = false) (hfinite : s.system.IsFinite)
    (htol : s.system.tolerance.PositiveSquare) (hrow : s.system.findFirstRow ≠ none) :
    Overflowed e t := by
  cases solve_err h with
  | picture _ hp => exact absurd hfinite (System.text_fault hp).2
  | sum _ hnone _ => exact absurd hnone hrow
  | blocked _ hb => exact hb.overflowed htol
  | answer _ hx =>
    obtain ⟨i, hi⟩ := System.constants_err hx
    obtain ⟨he, hinf⟩ := Complex.text_fault hi
    exact .term he fun ht => hinf (ht i (Fin.last n))
  | verdict _ henabled _ =>
    rw [hcheck] at henabled
    cases henabled

end Reduction

/-- At the default tolerance and without a check of the solution, a system of finite numbers is
classified as follows. If every coefficient is zero, the run ends with a report exactly if the sum
of the constant terms is finite. Otherwise it ends with a report, or where a number overflowed. -/
theorem System.solve_finite (hfinite : m.IsFinite) (htol : m.tolerance = defaultTolerance) :
    (m.findFirstRow = none →
      ((∃ report t, m.solve false verifyTolerance = (.ok report, t)) ↔
        m.sumOfConstants.IsFinite)) ∧
    (m.findFirstRow ≠ none →
      (∃ report t, m.solve false verifyTolerance = (.ok report, t)) ∨
        ∃ e t, m.solve false verifyTolerance = (.error e, t) ∧ Reduction.Overflowed e t) := by
  simp only [System.solve_ok, System.solve_err]
  refine ⟨fun hrow => Reduction.solve_degenerate_iff hfinite hrow, fun hrow => ?_⟩
  cases h : Reduction.solve ⟨false, verifyTolerance, m⟩ { system := m } with
  | ok report t => exact .inl ⟨report, t, rfl⟩
  | error e t =>
    have hpos : m.tolerance.PositiveSquare := by
      rw [htol]
      exact positiveSquare_defaultTolerance
    exact .inr ⟨e, t, rfl, Reduction.solve_overflowed h rfl hfinite hpos hrow⟩

namespace Reduction

theorem solve_finite_hugePivot :
    hugePivot.IsFinite ∧ hugePivot.tolerance = defaultTolerance ∧ hugePivot.findFirstRow ≠ none ∧
      ∃ e t, hugePivot.solve false defaultVerifyTolerance = (.error e, t) ∧ Overflowed e t := by
  have hfinite : hugePivot.IsFinite := by decide +kernel
  have htol : hugePivot.tolerance = defaultTolerance := by simp only [hugePivot]
  have hrow : hugePivot.findFirstRow ≠ none := by decide +kernel
  refine ⟨hfinite, htol, hrow, ?_⟩
  have hrun : faultOf (solve ⟨false, defaultVerifyTolerance, hugePivot⟩) { system := hugePivot } =
      some .squareOverflow := by
    decide +kernel
  obtain ⟨t, h⟩ := faultOf_eq_some hrun
  have h := System.solve_err.mpr h
  rcases (System.solve_finite hfinite htol).2 hrow with ⟨_, _, hok⟩ | hover
  · cases h.symm.trans hok
  · exact hover

/-- `0 = 10 ^ 308`, twice. -/
def hugeConstants : System Double 2 where
  tolerance := defaultTolerance
  rows :=
    let c : Complex Double := .ofReal (.ofRatio false (Nat.pow 10 308) 1)
    #v[#v[.zero, .zero, c], #v[.zero, .zero, c]]

/-- Each row decides for itself that there is no solution, but the sum `2 * 10 ^ 308` cannot be
written. -/
theorem finite_sum_fails :
    hugeConstants.IsFinite ∧ hugeConstants.tolerance = defaultTolerance ∧
      hugeConstants.isInconsistent = true ∧
      ∃ t, hugeConstants.solve false defaultVerifyTolerance = (.error .infiniteText, t) := by
  refine ⟨by decide +kernel, by simp only [hugeConstants], by decide +kernel, ?_⟩
  have hrun : faultOf (solve ⟨false, defaultVerifyTolerance, hugeConstants⟩)
      { system := hugeConstants } = some .infiniteText := by
    decide +kernel
  obtain ⟨t, h⟩ := faultOf_eq_some hrun
  exact ⟨t, System.solve_err.mpr h⟩

end Reduction

end GaussJordan
