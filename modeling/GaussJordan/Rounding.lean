/-!
# GaussJordan.Rounding

Rounding of an exact quotient `num / den` of natural numbers, a half going to the even neighbour.

* `roundHalfEven`: to a whole number. The value is at most half a unit away
  (`roundHalfEven_near`).
* `roundToBits p`: to a whole number with at most `p` significant bits. Below `2 ^ p` the grid has
  step one, so whole numbers are kept there (`roundToBits_of_fits`).
* `FitsBits p u`: `u` is a point of that grid. Every rounded value is one (`roundToBits_fits`).
-/

namespace GaussJordan

/-- The whole number nearest to `num / den`; a half goes to the even neighbour. -/
def roundHalfEven (num den : Nat) : Nat :=
  let q := num / den
  let r := num % den
  if 2 * r < den then q
  else if den < 2 * r then q + 1
  else q + q % 2

theorem roundHalfEven_le (num den : Nat) : roundHalfEven num den ≤ num / den + 1 := by
  simp only [roundHalfEven]
  split
  · omega
  · split <;> omega

theorem le_roundHalfEven (num den : Nat) : num / den ≤ roundHalfEven num den := by
  simp only [roundHalfEven]
  split
  · omega
  · split <;> omega

/-- The rounded value is at most half a unit away from the quotient. -/
theorem roundHalfEven_near (num den : Nat) (hd : 0 < den) :
    2 * num ≤ 2 * (den * roundHalfEven num den) + den ∧
      2 * (den * roundHalfEven num den) ≤ 2 * num + den := by
  have hdiv := Nat.div_add_mod num den
  have hmod := Nat.mod_lt num hd
  simp only [roundHalfEven]
  split
  · omega
  · split
    · rw [Nat.mul_add]
      omega
    · rcases Nat.mod_two_eq_zero_or_one (num / den) with h | h
      · rw [h, Nat.add_zero]
        omega
      · rw [h, Nat.mul_add]
        omega

theorem roundHalfEven_of_mul (k den : Nat) (hd : 0 < den) : roundHalfEven (k * den) den = k := by
  simp [roundHalfEven, Nat.mul_div_cancel _ hd, hd]

/-- The exponent of the grid step at the whole number `q`, for `p` significant bits. -/
def gridShift (p q : Nat) : Nat := q.log2 + 1 - p

/-- `u` has at most `p` significant bits. -/
def FitsBits (p u : Nat) : Prop := Nat.pow 2 (gridShift p u) ∣ u

instance (p u : Nat) : Decidable (FitsBits p u) := inferInstanceAs (Decidable (_ ∣ _))

/-- The number of at most `p` significant bits nearest to `num / den`; a half goes to the even
multiple of the grid step. -/
def roundToBits (p num den : Nat) : Nat :=
  let step := Nat.pow 2 (gridShift p (num / den))
  roundHalfEven num (den * step) * step

theorem div_gridStep_lt (p q : Nat) : q / Nat.pow 2 (gridShift p q) < Nat.pow 2 p := by
  have hq : q < Nat.pow 2 (q.log2 + 1) := Nat.lt_log2_self
  have hle : Nat.pow 2 (q.log2 + 1) ≤ Nat.pow 2 (p + gridShift p q) :=
    Nat.pow_le_pow_right (by decide) (by simp only [gridShift]; omega)
  have hadd : Nat.pow 2 (p + gridShift p q) = Nat.pow 2 p * Nat.pow 2 (gridShift p q) :=
    Nat.pow_add 2 p (gridShift p q)
  have hpos : 0 < Nat.pow 2 (gridShift p q) := Nat.two_pow_pos _
  exact (Nat.div_lt_iff_lt_mul hpos).2 (by omega)

/-- A multiple of a power of two by a factor of at most `p` bits fits. -/
theorem fitsBits_mul_two_pow {p k : Nat} (s : Nat) (hk : k ≤ Nat.pow 2 p) (hp : 0 < p) :
    FitsBits p (k * Nat.pow 2 s) := by
  unfold FitsBits
  have hs : 0 < Nat.pow 2 s := Nat.two_pow_pos s
  have hadd : Nat.pow 2 (p + s) = Nat.pow 2 p * Nat.pow 2 s := Nat.pow_add 2 p s
  by_cases h0 : k = 0
  · simp [h0]
  have hpos : 0 < k * Nat.pow 2 s := Nat.mul_pos (Nat.pos_of_ne_zero h0) hs
  by_cases hlt : k < Nat.pow 2 p
  · have hb : k * Nat.pow 2 s < Nat.pow 2 (p + s) := by
      rw [hadd]
      exact Nat.mul_lt_mul_of_pos_right hlt hs
    have hl : (k * Nat.pow 2 s).log2 < p + s := (Nat.log2_lt (by omega)).2 hb
    have hle : gridShift p (k * Nat.pow 2 s) ≤ s := by simp only [gridShift]; omega
    exact Nat.dvd_trans (Nat.pow_dvd_pow 2 hle) (Nat.dvd_mul_left _ _)
  · have he : k * Nat.pow 2 s = Nat.pow 2 (p + s) := by
      rw [hadd, show k = Nat.pow 2 p by omega]
    have hl : (Nat.pow 2 (p + s)).log2 = p + s := Nat.log2_two_pow
    rw [he]
    exact Nat.pow_dvd_pow 2 (by simp only [gridShift]; omega)

theorem roundToBits_fits {p : Nat} (num den : Nat) (hp : 0 < p) :
    FitsBits p (roundToBits p num den) := by
  have hq := div_gridStep_lt p (num / den)
  have hle := roundHalfEven_le num (den * Nat.pow 2 (gridShift p (num / den)))
  rw [← Nat.div_div_eq_div_mul] at hle
  exact fitsBits_mul_two_pow _ (by omega) hp

/-- A whole number that fits is its own rounding. -/
theorem roundToBits_of_fits {p u : Nat} (h : FitsBits p u) : roundToBits p u 1 = u := by
  obtain ⟨k, hk⟩ := h
  have hpos : 0 < Nat.pow 2 (gridShift p u) := Nat.two_pow_pos _
  simp only [roundToBits, Nat.div_one, Nat.one_mul]
  generalize Nat.pow 2 (gridShift p u) = step at *
  rw [hk, Nat.mul_comm step k, roundHalfEven_of_mul k step hpos]

end GaussJordan
