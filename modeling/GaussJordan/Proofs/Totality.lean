import GaussJordan.Proofs.ExactArithmetic
import GaussJordan.Proofs.Faults

/-!
# GaussJordan.Proofs.Totality

Over the rationals every run ends with a report (`solve_total`), since none of the causes of a fault
can arise. Every value has a text. And the only divisors are pivots, each of which has a part that
exceeds the tolerance or is one, so it is not zero unless the tolerance is negative.
-/

namespace GaussJordan

/-! ## Texts -/

theorem Complex.textWith_ne_error {a : Complex Rat} {grouped : Bool} {places : Int}
    (hplaces : 0 ≤ places ∧ places ≤ maxPlaces) {e : Fault} :
    a.textWith grouped places ≠ .error e := by
  intro h
  rcases textWith_err h with hre | him
  · exact partText_ne_error hplaces hre
  · exact partText_ne_error hplaces him

theorem Complex.text_ne_error {a : Complex Rat} {e : Fault} : a.text ≠ .error e :=
  textWith_ne_error (by decide)

variable {n : Nat}

theorem System.text_ne_error {m : System Rat n} {e : Fault} : m.text ≠ .error e := by
  intro h
  obtain ⟨_, _, ht⟩ := text_err h
  exact Complex.text_ne_error ht

namespace Reduction

variable {e : Fault} {s t : Reduction Rat n}

/-! ## No cause of a fault -/

theorem not_blocked {tol : Rat} (htol : 0 ≤ tol) : ¬Blocked tol e t := by
  have hpivot : ∀ {a : Complex Rat}, a.isZero tol = false → a ≠ 0 := by
    rintro a ha rfl
    rw [Complex.isZero_zero htol] at ha
    cases ha
  intro h
  cases h with
  | picture hp => exact System.text_ne_error hp
  | factor _ hop =>
    obtain ⟨_, _, hf⟩ := Operation.text_err hop
    exact Complex.textWith_ne_error (by decide) hf
  | inverse _ hzero hinv =>
    rw [Complex.inverse_ok.mpr ⟨hpivot hzero, rfl⟩] at hinv
    cases hinv
  | quotient _ hterm hdiv =>
    rw [Complex.div_ok.mpr ⟨?_, rfl⟩] at hdiv
    · cases hdiv
    · rcases hterm with hone | hzero
      · rw [hone]
        exact one_ne_zero
      · exact hpivot hzero

theorem not_stopped {check : Check Rat n} {m : System Rat n} (htol : 0 ≤ m.tolerance) :
    ¬Stopped check m e t := by
  intro h
  rcases h.blocked_or_text with hb | ⟨_, ht⟩
  · exact not_blocked htol hb
  · exact Complex.text_ne_error ht

theorem reachEchelon_total (htol : 0 ≤ s.system.tolerance) : ∃ r e, reachEchelon s = .ok r e := by
  cases h : reachEchelon s with
  | ok r e => exact ⟨r, e, rfl⟩
  | error fault t =>
    rcases reachEchelon_err h with ⟨_, hp⟩ | ⟨_, hb⟩
    · exact (System.text_ne_error hp).elim
    · exact (not_blocked htol hb).elim

end Reduction

/-- Over the rationals every run ends with a report. -/
theorem System.solve_total (m : System Rat n) (htol : 0 ≤ m.tolerance) (verify : Bool)
    (verifyTolerance : Rat) :
    ∃ report t, m.solve verify verifyTolerance = (.ok report, t) := by
  cases h : Reduction.solve ⟨verify, verifyTolerance, m⟩ { system := m } with
  | ok report t => exact ⟨report, t, System.solve_ok.mpr h⟩
  | error fault t => exact (Reduction.not_stopped htol (Reduction.solve_err h)).elim

end GaussJordan
