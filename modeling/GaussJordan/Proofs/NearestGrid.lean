import GaussJordan.Proofs.GridRounding
import Mathlib.Algebra.Order.Field.Basic
import Mathlib.Data.Nat.Cast.Order.Field
import Mathlib.Data.Rat.Cast.Order
import Mathlib.Tactic.FieldSimp
import Mathlib.Tactic.Positivity

/-!
# GaussJordan.Proofs.NearestGrid

Rounding to a grid gives the nearest point.

* `roundToBits_nearest`: no whole number of so many significant bits is nearer to the quotient.
* `roundToBits_tie`: if another one is as near, the last bit of the rounded value is zero.
* `roundToBits_mul_two_pow`: the grid grows with the numbers, so a factor that is a power of two can
  be taken out.
-/

namespace GaussJordan

/-! ## Whole numbers -/

section

variable {num den : Nat}

theorem roundHalfEven_half (hd : 0 < den) :
    |(roundHalfEven num den : Rat) - num / den| ≤ 1 / 2 := by
  have hpos : (0 : Rat) < den := Nat.cast_pos.mpr hd
  have ⟨hlow, hhigh⟩ := roundHalfEven_near num den hd
  rw [← @Nat.cast_le Rat] at hlow hhigh
  push_cast at hlow hhigh
  generalize (roundHalfEven num den : Rat) = k at *
  have hnum : (num : Rat) = num / den * den := by field_simp
  rw [hnum] at hlow hhigh
  generalize (num : Rat) / den = t at *
  rw [abs_le]
  constructor
  · have hle : 2 * t ≤ 2 * k + 1 := le_of_mul_le_mul_right (by linarith) hpos
    linarith
  · have hle : 2 * k ≤ 2 * t + 1 := le_of_mul_le_mul_right (by linarith) hpos
    linarith

/-- Rounded to multiples of `1 / scale`, the quotient is at most half a step away. -/
theorem roundHalfEven_scaled_near (num : Nat) {scale : Nat} (hd : 0 < den) (hs : 0 < scale) :
    |(roundHalfEven (num * scale) den : Rat) / scale - num / den| ≤ 1 / (2 * scale) := by
  have hscale : (0 : Rat) < scale := Nat.cast_pos.mpr hs
  have hhalf : |(roundHalfEven (num * scale) den : Rat) - (num * scale : Nat) / den| ≤ 1 / 2 :=
    roundHalfEven_half hd
  have hsplit : (roundHalfEven (num * scale) den : Rat) / scale - num / den =
      (roundHalfEven (num * scale) den - (num * scale : Nat) / den) / scale := by
    push_cast
    field_simp
  rw [hsplit, abs_div, abs_of_pos hscale, ← div_div]
  exact div_le_div_of_nonneg_right hhalf hscale.le

/-- Another whole number is at least half a unit away. -/
theorem half_le_of_ne {j k : Nat} {t : Rat} (hk : |(k : Rat) - t| ≤ 1 / 2) (h : j ≠ k) :
    1 / 2 ≤ |(j : Rat) - t| := by
  have ⟨hlow, hhigh⟩ := abs_le.mp hk
  rw [le_abs]
  rcases Nat.lt_or_gt_of_ne h with hlt | hgt
  · have hcast : (j : Rat) + 1 ≤ k := by exact_mod_cast hlt
    right
    linarith
  · have hcast : (k : Rat) + 1 ≤ j := by exact_mod_cast hgt
    left
    linarith

theorem roundHalfEven_nearest (hd : 0 < den) (j : Nat) :
    |(roundHalfEven num den : Rat) - num / den| ≤ |(j : Rat) - num / den| := by
  by_cases h : j = roundHalfEven num den
  · rw [h]
  · exact (roundHalfEven_half hd).trans (half_le_of_ne (roundHalfEven_half hd) h)

theorem roundHalfEven_even (hd : 0 < den) {j : Nat} (h : j ≠ roundHalfEven num den)
    (heq : |(j : Rat) - num / den| = |(roundHalfEven num den : Rat) - num / den|) :
    roundHalfEven num den % 2 = 0 := by
  have hpos : (den : Rat) ≠ 0 := Nat.cast_ne_zero.mpr hd.ne'
  have hhalf : |(roundHalfEven num den : Rat) - num / den| ≤ 1 / 2 := roundHalfEven_half hd
  have htie := le_antisymm hhalf (heq ▸ half_le_of_ne hhalf h)
  generalize hk : roundHalfEven num den = k at *
  rcases (abs_eq (by norm_num)).mp htie with hdown | hup
  · -- the value lies below `k`, in the middle between `k - 1` and `k`
    have hodd : ((2 * num + den : Nat) : Rat) = (2 * k * den : Nat) := by
      push_cast
      rw [sub_eq_iff_eq_add] at hdown
      rw [hdown]
      field_simp
      ring
    have hnat : 2 * num + den = 2 * k * den := Nat.cast_injective hodd
    cases k with
    | zero => omega
    | succ l =>
      have hl : 2 * num = (2 * l + 1) * den := by linarith
      rw [roundHalfEven_of_tie hd hl] at hk
      omega
  · have hodd : ((2 * num : Nat) : Rat) = ((2 * k + 1) * den : Nat) := by
      push_cast
      rw [sub_eq_iff_eq_add] at hup
      rw [hup]
      field_simp
      ring
    have hnat : 2 * num = (2 * k + 1) * den := Nat.cast_injective hodd
    rw [roundHalfEven_of_tie hd hnat] at hk
    omega

theorem roundHalfEven_mul (hd : 0 < den) {c : Nat} (hc : 0 < c) :
    roundHalfEven (num * c) (den * c) = roundHalfEven num den := by
  have hcross : num * c * den = num * (den * c) := by ring
  have hpos := Nat.mul_pos hd hc
  exact le_antisymm (roundHalfEven_mono hpos hd hcross.le) (roundHalfEven_mono hd hpos hcross.ge)

end

/-! ## The grid -/

section

variable {p num den : Nat}

theorem FitsBits.mono {p' u : Nat} (h : FitsBits p u) (hp : p ≤ p') : FitsBits p' u := by
  refine Nat.dvd_trans (Nat.pow_dvd_pow 2 ?_) h
  simp only [gridShift]
  omega

theorem log2_mul_two_pow_div (s : Nat) (hd : 0 < den) (h : num / den ≠ 0) :
    (num * Nat.pow 2 s / den).log2 = (num / den).log2 + s := by
  have hs : 0 < Nat.pow 2 s := Nat.two_pow_pos s
  have ⟨hlow, hhigh⟩ := (Nat.log2_eq_iff h).mp rfl
  have hlow' := (Nat.le_div_iff_mul_le hd).mp hlow
  have hhigh' := (Nat.div_lt_iff_lt_mul hd).mp hhigh
  have hle : Nat.pow 2 ((num / den).log2 + s) ≤ num * Nat.pow 2 s / den := by
    have hsplit : Nat.pow 2 ((num / den).log2 + s) = Nat.pow 2 (num / den).log2 * Nat.pow 2 s :=
      Nat.pow_add 2 _ s
    have hmul := Nat.mul_le_mul_right (Nat.pow 2 s) hlow'
    rw [Nat.le_div_iff_mul_le hd, hsplit, Nat.mul_right_comm]
    exact hmul
  have hlt : num * Nat.pow 2 s / den < Nat.pow 2 ((num / den).log2 + s + 1) := by
    have hsplit : Nat.pow 2 ((num / den).log2 + s + 1) =
        Nat.pow 2 ((num / den).log2 + 1) * Nat.pow 2 s := by
      rw [Nat.add_right_comm]
      exact Nat.pow_add 2 _ s
    have hmul := Nat.mul_lt_mul_of_pos_right hhigh' hs
    rw [Nat.div_lt_iff_lt_mul hd, hsplit, Nat.mul_right_comm]
    exact hmul
  have hne : num * Nat.pow 2 s / den ≠ 0 := by
    have hpos : 0 < Nat.pow 2 ((num / den).log2 + s) := Nat.two_pow_pos _
    omega
  exact (Nat.log2_eq_iff hne).mpr ⟨hle, hlt⟩

/-- From `2 ^ (p - 1)` on, the grid grows with the numbers. -/
theorem gridShift_mul_two_pow_div (s : Nat) (hp : 0 < p) (hd : 0 < den)
    (h : Nat.pow 2 (p - 1) ≤ num / den) :
    gridShift p (num * Nat.pow 2 s / den) = gridShift p (num / den) + s := by
  have hne : num / den ≠ 0 := by
    have hpos : 0 < Nat.pow 2 (p - 1) := Nat.two_pow_pos _
    omega
  have hlog : p - 1 ≤ (num / den).log2 := (Nat.le_log2 hne).mpr h
  simp only [gridShift, log2_mul_two_pow_div s hd hne]
  omega

theorem roundToBits_mul_two_pow (s : Nat) (hp : 0 < p) (hd : 0 < den)
    (h : Nat.pow 2 (p - 1) ≤ num / den) :
    roundToBits p (num * Nat.pow 2 s) den = roundToBits p num den * Nat.pow 2 s := by
  have hsplit : Nat.pow 2 (gridShift p (num / den) + s) =
      Nat.pow 2 (gridShift p (num / den)) * Nat.pow 2 s := Nat.pow_add 2 _ s
  have hs : 0 < Nat.pow 2 s := Nat.two_pow_pos s
  have hstep := gridStep_pos p (num / den)
  simp only [roundToBits, gridShift_mul_two_pow_div s hp hd h, hsplit]
  rw [← Nat.mul_assoc den, roundHalfEven_mul (Nat.mul_pos hd hstep) hs, Nat.mul_assoc]

/-- A point that is not on the grid of a quotient lies below a power of two that is, and that is
not above the quotient. -/
theorem FitsBits.lt_of_not_dvd {w q : Nat} (hp : 0 < p) (hw : FitsBits p w)
    (h : ¬Nat.pow 2 (gridShift p q) ∣ w) :
    ∃ b, Nat.pow 2 (gridShift p q) ∣ b ∧ w < b ∧ b ≤ q := by
  have hw0 : w ≠ 0 := by
    rintro rfl
    exact h (Nat.dvd_zero _)
  have hshift : gridShift p w < gridShift p q := by
    by_contra hge
    exact h (Nat.dvd_trans (Nat.pow_dvd_pow 2 (Nat.not_lt.mp hge)) hw)
  have hlog : w.log2 < q.log2 ∧ gridShift p q ≤ q.log2 := by
    simp only [gridShift] at hshift ⊢
    omega
  have hq0 : q ≠ 0 := by
    rintro rfl
    rw [Nat.log2_zero] at hlog
    omega
  exact ⟨Nat.pow 2 q.log2, Nat.pow_dvd_pow 2 hlog.2, (Nat.log2_lt hw0).mp hlog.1,
    Nat.log2_self_le hq0⟩

theorem abs_sub_of_mul {step : Nat} (hd : 0 < den) (hstep : 0 < step) (j : Nat) :
    |((j * step : Nat) : Rat) - num / den| = step * |(j : Rat) - num / (den * step : Nat)| := by
  have hd' : (den : Rat) ≠ 0 := Nat.cast_ne_zero.mpr hd.ne'
  have hstep' : (0 : Rat) < step := Nat.cast_pos.mpr hstep
  have hsplit : ((j * step : Nat) : Rat) - num / den = step * (j - num / (den * step : Nat)) := by
    push_cast
    field_simp
  rw [hsplit, abs_mul, abs_of_pos hstep']

theorem roundToBits_nearest_of_dvd (hd : 0 < den) {w : Nat}
    (h : Nat.pow 2 (gridShift p (num / den)) ∣ w) :
    |(roundToBits p num den : Rat) - num / den| ≤ |(w : Rat) - num / den| := by
  have hstep := gridStep_pos p (num / den)
  obtain ⟨j, rfl⟩ := h
  simp only [roundToBits]
  generalize Nat.pow 2 (gridShift p (num / den)) = step at *
  rw [Nat.mul_comm step j, abs_sub_of_mul hd hstep, abs_sub_of_mul hd hstep]
  exact mul_le_mul_of_nonneg_left (roundHalfEven_nearest (Nat.mul_pos hd hstep) j)
    (Nat.cast_nonneg step)

/-- What is not on the grid of the quotient is farther away than the rounded value. -/
theorem roundToBits_lt_of_not_dvd (hp : 0 < p) (hd : 0 < den) {w : Nat} (hw : FitsBits p w)
    (h : ¬Nat.pow 2 (gridShift p (num / den)) ∣ w) :
    |(roundToBits p num den : Rat) - num / den| < |(w : Rat) - num / den| := by
  obtain ⟨b, hb, hlt, hle⟩ := hw.lt_of_not_dvd hp h
  refine lt_of_le_of_lt (roundToBits_nearest_of_dvd hd hb) ?_
  have hbelow : (b : Rat) ≤ num / den := (Nat.cast_le.mpr hle).trans Nat.cast_div_le
  have hcast : (w : Rat) < b := Nat.cast_lt.mpr hlt
  rw [abs_of_nonpos (sub_nonpos.mpr hbelow), abs_of_nonpos (by linarith)]
  linarith

/-- No number of `p` significant bits is nearer than the rounded value. -/
theorem roundToBits_nearest (hp : 0 < p) (hd : 0 < den) {w : Nat} (hw : FitsBits p w) :
    |(roundToBits p num den : Rat) - num / den| ≤ |(w : Rat) - num / den| := by
  by_cases h : Nat.pow 2 (gridShift p (num / den)) ∣ w
  · exact roundToBits_nearest_of_dvd hd h
  · exact (roundToBits_lt_of_not_dvd hp hd hw h).le

/-- The last of the significant bits is zero. -/
def LastBitZero (p u : Nat) : Prop := u / Nat.pow 2 (gridShift p u) % 2 = 0

theorem lastBitZero_zero (p : Nat) : LastBitZero p 0 := by
  rw [LastBitZero, Nat.zero_div]

theorem lastBitZero_two_pow {k : Nat} (hp : 1 < p) (hk : p ≤ k) : LastBitZero p (Nat.pow 2 k) := by
  have hlog : (Nat.pow 2 k).log2 = k := Nat.log2_two_pow
  have hdiv : Nat.pow 2 k / Nat.pow 2 (k + 1 - p) = Nat.pow 2 (p - 1) := by
    have hsplit := Nat.pow_div (x := 2) (by omega : k + 1 - p ≤ k) (by decide)
    rw [show k - (k + 1 - p) = p - 1 by omega] at hsplit
    exact hsplit
  rw [LastBitZero, gridShift, hlog, hdiv, two_pow_pred (by omega)]
  exact Nat.mul_mod_right 2 _

/-- An even multiple of the grid step has an even last bit, also where rounding goes up to the next
power of two. -/
theorem lastBitZero_of_even (hp : 1 < p)
    (h : roundHalfEven num (den * Nat.pow 2 (gridShift p (num / den))) % 2 = 0) :
    LastBitZero p (roundToBits p num den) := by
  by_cases hq : num / den = 0
  · have hzero : gridShift p (num / den) = 0 := by
      rw [hq, gridShift, Nat.log2_zero]
      omega
    have hden : den * Nat.pow 2 0 = den := Nat.mul_one den
    rw [hzero, hden] at h
    have hround : roundToBits p num den = roundHalfEven num den := by
      rw [roundToBits, hzero, hden]
      exact Nat.mul_one _
    have hle := roundHalfEven_le num den
    rw [hround, show roundHalfEven num den = 0 by omega]
    exact lastBitZero_zero p
  have hlow := two_pow_le_roundToBits (p := p) (by omega) hq
  have hhigh := roundToBits_le_two_pow p num den
  generalize hx : roundToBits p num den = x at *
  have hx0 : x ≠ 0 := by
    have hpos : 0 < Nat.pow 2 (num / den).log2 := Nat.two_pow_pos _
    omega
  have hlog : (num / den).log2 ≤ x.log2 := (Nat.le_log2 hx0).mpr hlow
  by_cases hsame : gridShift p x = gridShift p (num / den)
  · have hfactor : x / Nat.pow 2 (gridShift p (num / den)) =
        roundHalfEven num (den * Nat.pow 2 (gridShift p (num / den))) := by
      rw [← hx, roundToBits]
      exact Nat.mul_div_cancel _ (gridStep_pos p _)
    rw [LastBitZero, hsame, hfactor]
    exact h
  · -- `x` is a power of two, the smallest number on its grid
    have hexp : max p ((num / den).log2 + 1) ≤ x.log2 := by
      simp only [gridShift] at hsame
      omega
    have hge : Nat.pow 2 (max p ((num / den).log2 + 1)) ≤ x := (Nat.le_log2 hx0).mp hexp
    rw [le_antisymm hhigh hge]
    exact lastBitZero_two_pow hp (Nat.le_max_left _ _)

/-- Where another number is as near, the last bit of the rounded value is zero. -/
theorem roundToBits_tie (hp : 1 < p) (hd : 0 < den) {w : Nat} (hw : FitsBits p w)
    (hne : w ≠ roundToBits p num den)
    (heq : |(w : Rat) - num / den| = |(roundToBits p num den : Rat) - num / den|) :
    LastBitZero p (roundToBits p num den) := by
  by_cases h : Nat.pow 2 (gridShift p (num / den)) ∣ w
  · refine lastBitZero_of_even hp ?_
    have hstep := gridStep_pos p (num / den)
    obtain ⟨j, rfl⟩ := h
    simp only [roundToBits] at hne heq
    generalize Nat.pow 2 (gridShift p (num / den)) = step at *
    rw [Nat.mul_comm step j] at hne heq
    rw [abs_sub_of_mul hd hstep, abs_sub_of_mul hd hstep] at heq
    refine roundHalfEven_even (Nat.mul_pos hd hstep) (j := j) ?_ ?_
    · rintro rfl
      exact hne rfl
    · exact mul_left_cancel₀ (Nat.cast_ne_zero.mpr hstep.ne') heq
  · exact absurd heq.symm (roundToBits_lt_of_not_dvd (by omega) hd hw h).ne

end

end GaussJordan
