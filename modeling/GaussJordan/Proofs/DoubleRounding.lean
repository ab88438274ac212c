import GaussJordan.Proofs.NearestGrid
import GaussJordan.Proofs.SignificantBits

/-!
# GaussJordan.Proofs.DoubleRounding

Rounding a value that was rounded before.

A first step to `p` bits, by rounding or by cutting off, does not carry a value across a number of
`p` bits (`sameSide_roundSignificant`, `sameSide_truncateSignificant`). If it keeps 54 bits or more,
no middle between two doubles is crossed, so the double nearest to what it leaves is nearest to the
value, except in a tie that the first step made (`nearestUnits_iff`).
-/

namespace GaussJordan

/-- No number of `p` significant bits lies between the two values: what is not above the one is not
above the other, and what is not below the one is not below the other. -/
def SameSide (p : Nat) (v r : Rat) : Prop :=
  ∀ k t, FitsBits p k →
    ((k : Rat) / 2 ^ t ≤ v → (k : Rat) / 2 ^ t ≤ r) ∧
    (v ≤ (k : Rat) / 2 ^ t → r ≤ (k : Rat) / 2 ^ t)

section

variable {p : Nat} {q v r : Rat}

theorem SameSide.mono {p' : Nat} (h : SameSide p' v r) (hp : p ≤ p') : SameSide p v r :=
  fun k t hk => h k t (hk.mono hp)

/-- At the scale of the rounding a positive value has more than `p` bits. -/
theorem two_pow_le_scaledNum (hq : 0 < q) : Nat.pow 2 p ≤ scaledNum p q / q.den := by
  have hnum : 0 < q.num.natAbs := Int.natAbs_pos.mpr (Rat.num_pos.mpr hq).ne'
  have hden : q.den ≤ Nat.pow 2 (q.den.log2 + 1) := Nat.le_of_lt Nat.lt_log2_self
  have hsplit : Nat.pow 2 (roundingScale p q) = Nat.pow 2 p * Nat.pow 2 (q.den.log2 + 1) :=
    Nat.pow_add 2 p (q.den.log2 + 1)
  rw [Nat.le_div_iff_mul_le q.den_pos, scaledNum, hsplit]
  calc Nat.pow 2 p * q.den ≤ Nat.pow 2 p * Nat.pow 2 (q.den.log2 + 1) :=
        Nat.mul_le_mul_left _ hden
    _ ≤ q.num.natAbs * (Nat.pow 2 p * Nat.pow 2 (q.den.log2 + 1)) :=
        Nat.le_mul_of_pos_left _ hnum

theorem two_pow_pred_le_scaledNum (hq : 0 < q) : Nat.pow 2 (p - 1) ≤ scaledNum p q / q.den :=
  Nat.le_trans (Nat.pow_le_pow_right (by decide) (Nat.sub_le p 1)) (two_pow_le_scaledNum hq)

/-- A fraction over a power of two is compared to a value in whole numbers. -/
theorem fraction_le_iff (h : 0 ≤ q) (k t : Nat) :
    (k : Rat) / 2 ^ t ≤ q ↔
      k * Nat.pow 2 (roundingScale p q) * q.den ≤ scaledNum p q * Nat.pow 2 t := by
  have hd : (0 : Rat) < q.den := Nat.cast_pos.mpr q.den_pos
  have hs := two_pow_pos (roundingScale p q)
  rw [div_le_iff₀ (two_pow_pos t), ← @Nat.cast_le Rat, Nat.pow_eq, Nat.pow_eq]
  push_cast
  rw [scaledNum_eq p h, ← mul_le_mul_iff_left₀ (mul_pos hd hs)]
  constructor <;> intro hle <;> linarith

theorem le_fraction_iff (h : 0 ≤ q) (k t : Nat) :
    q ≤ (k : Rat) / 2 ^ t ↔
      scaledNum p q * Nat.pow 2 t ≤ k * Nat.pow 2 (roundingScale p q) * q.den := by
  have hd : (0 : Rat) < q.den := Nat.cast_pos.mpr q.den_pos
  have hs := two_pow_pos (roundingScale p q)
  rw [le_div_iff₀ (two_pow_pos t), ← @Nat.cast_le Rat, Nat.pow_eq, Nat.pow_eq]
  push_cast
  rw [scaledNum_eq p h, ← mul_le_mul_iff_left₀ (mul_pos hd hs)]
  constructor <;> intro hle <;> linarith

theorem fraction_le_fraction {a b s t : Nat} (h : a * Nat.pow 2 s ≤ b * Nat.pow 2 t) :
    (a : Rat) / 2 ^ t ≤ b / 2 ^ s := by
  rw [div_le_div_iff₀ (two_pow_pos t) (two_pow_pos s)]
  have hcast : ((a * Nat.pow 2 s : Nat) : Rat) ≤ (b * Nat.pow 2 t : Nat) := Nat.cast_le.mpr h
  rw [Nat.pow_eq, Nat.pow_eq] at hcast
  push_cast at hcast
  exact hcast

/-- Rounding to `p` bits does not cross a number of `p` bits. -/
theorem sameSide_roundSignificant (hp : 0 < p) (h : 0 ≤ q) :
    SameSide p q (roundSignificant p q) := by
  rcases h.eq_or_lt with rfl | hq
  · rw [roundSignificant_zero]
    exact fun k t _ => ⟨id, id⟩
  intro k t hk
  have hscale := fun t => roundToBits_mul_two_pow t hp q.den_pos (two_pow_pred_le_scaledNum hq)
  have hgrid : FitsBits p (k * Nat.pow 2 (roundingScale p q)) :=
    (fitsBits_mul_two_pow_iff _ hp).mpr hk
  rw [roundSignificant_eq h]
  constructor
  · intro hle
    refine fraction_le_fraction ?_
    rw [← hscale]
    exact le_roundToBits hp q.den_pos hgrid ((fraction_le_iff h k t).mp hle)
  · intro hle
    refine fraction_le_fraction ?_
    rw [← hscale]
    exact roundToBits_le hp q.den_pos hgrid ((le_fraction_iff h k t).mp hle)

/-- The multiple of the grid step that is left of a quotient. -/
def truncateToBits (p num den : Nat) : Nat :=
  num / den / Nat.pow 2 (gridShift p (num / den)) * Nat.pow 2 (gridShift p (num / den))

theorem truncateSignificant_eq (h : 0 ≤ q) :
    truncateSignificant p q =
      (truncateToBits p (scaledNum p q) q.den : Rat) / 2 ^ roundingScale p q := by
  have hnum : ¬q.num < 0 := not_lt.mpr (Rat.num_nonneg.mpr h)
  simp only [truncateSignificant, if_neg hnum, mkRat_two_pow, Int.cast_natCast]
  rfl

theorem truncateToBits_mul_le (p num den : Nat) : truncateToBits p num den * den ≤ num :=
  Nat.le_trans (Nat.mul_le_mul_right den (Nat.div_mul_le_self _ _)) (Nat.div_mul_le_self num den)

/-- A number of `p` bits that is not above a scaled quotient is not above what is left of the
quotient, scaled. -/
theorem le_truncateToBits {num den u : Nat} (t : Nat) (hp : 0 < p) (hd : 0 < den)
    (hq : Nat.pow 2 (p - 1) ≤ num / den) (hu : FitsBits p u) (h : u * den ≤ num * Nat.pow 2 t) :
    u ≤ truncateToBits p num den * Nat.pow 2 t := by
  have hsplit : Nat.pow 2 (gridShift p (num / den) + t) =
      Nat.pow 2 (gridShift p (num / den)) * Nat.pow 2 t := Nat.pow_add 2 _ t
  have ht : 0 < Nat.pow 2 t := Nat.two_pow_pos t
  have hmultiple : ∀ w, Nat.pow 2 (gridShift p (num * Nat.pow 2 t / den)) ∣ w →
      w * den ≤ num * Nat.pow 2 t → w ≤ truncateToBits p num den * Nat.pow 2 t := by
    rintro w ⟨j, rfl⟩ hle
    rw [gridShift_mul_two_pow_div t hp hd hq, hsplit] at hle ⊢
    have hstep := gridStep_pos p (num / den)
    have hj : j ≤ num / den / Nat.pow 2 (gridShift p (num / den)) := by
      rw [Nat.le_div_iff_mul_le hstep, Nat.le_div_iff_mul_le hd]
      refine Nat.le_of_mul_le_mul_right ?_ ht
      linarith
    have hmul := Nat.mul_le_mul_right (Nat.pow 2 (gridShift p (num / den)) * Nat.pow 2 t) hj
    rw [truncateToBits]
    linarith
  by_cases hdvd : Nat.pow 2 (gridShift p (num * Nat.pow 2 t / den)) ∣ u
  · exact hmultiple u hdvd h
  · obtain ⟨b, hb, hlt, hle⟩ := hu.lt_of_not_dvd hp hdvd
    exact Nat.le_trans hlt.le (hmultiple b hb ((Nat.le_div_iff_mul_le hd).mp hle))

theorem truncateSignificant_le (h : 0 ≤ q) : truncateSignificant p q ≤ q := by
  rw [truncateSignificant_eq h, fraction_le_iff (p := p) h, Nat.mul_right_comm]
  exact Nat.mul_le_mul_right _ (truncateToBits_mul_le p _ _)

/-- Cutting off all but `p` bits does not cross a number of `p` bits. -/
theorem sameSide_truncateSignificant (hp : 0 < p) (h : 0 ≤ q) :
    SameSide p q (truncateSignificant p q) := by
  rcases h.eq_or_lt with rfl | hq
  · rw [truncateSignificant_zero]
    exact fun k t _ => ⟨id, id⟩
  intro k t hk
  refine ⟨fun hle => ?_, (truncateSignificant_le h).trans⟩
  have hgrid : FitsBits p (k * Nat.pow 2 (roundingScale p q)) :=
    (fitsBits_mul_two_pow_iff _ hp).mpr hk
  rw [truncateSignificant_eq h]
  exact fraction_le_fraction (le_truncateToBits t hp q.den_pos (two_pow_pred_le_scaledNum hq) hgrid
    ((fraction_le_iff h k t).mp hle))

end

/-! ## Nearest numbers of units -/

/-- A double of `u` units is nearest to a value of `v` units, and its last bit is zero where another
one is as near. -/
structure NearestUnits (u : Nat) (v : Rat) : Prop where
  representable : Representable u
  nearest : ∀ w, Representable w → |(u : Rat) - v| ≤ |(w : Rat) - v|
  even : ∀ w, Representable w → w ≠ u → |(w : Rat) - v| = |(u : Rat) - v| → LastBitZero 53 u

theorem nearestUnits_roundToBits {num den : Nat} (hd : 0 < den)
    (h : roundToBits 53 num den < unitsLimit) :
    NearestUnits (roundToBits 53 num den) (num / den) where
  representable := ⟨h, roundToBits_fits num den (by decide)⟩
  nearest _ hw := roundToBits_nearest (by decide) hd hw.2
  even _ hw := roundToBits_tie (by decide) hd hw.2

section

variable {a b v : Rat}

theorem abs_sub_le_iff_of_lt (h : a < b) : |a - v| ≤ |b - v| ↔ 2 * v ≤ a + b := by
  rw [← sq_le_sq]
  constructor
  · intro hle
    nlinarith
  · intro hle
    nlinarith

theorem abs_sub_ge_iff_of_lt (h : a < b) : |b - v| ≤ |a - v| ↔ a + b ≤ 2 * v := by
  rw [← sq_le_sq]
  constructor
  · intro hle
    nlinarith
  · intro hle
    nlinarith

theorem abs_sub_eq_of_middle (h : 2 * v = a + b) : |a - v| = |b - v| := by
  rw [show a - v = -(b - v) by linarith, abs_neg]

end

section

variable {u w : Nat}

/-- The middle between a number and the next one has one bit more. -/
theorem FitsBits.middle {p : Nat} (hu : FitsBits p u) :
    FitsBits (p + 1) (u + (u + Nat.pow 2 (gridShift p u))) := by
  have hlt := lt_gridStep_mul p u
  obtain ⟨k, hk⟩ := hu
  have hsum : u + (u + Nat.pow 2 (gridShift p u)) = (2 * k + 1) * Nat.pow 2 (gridShift p u) := by
    rw [← Nat.add_assoc, ← Nat.two_mul, Nat.add_mul, Nat.one_mul, Nat.mul_assoc, Nat.mul_comm k,
      ← hk]
  rw [hsum]
  refine fitsBits_mul_two_pow _ ?_ (Nat.succ_pos p)
  have hfactor : k < Nat.pow 2 p := by
    generalize Nat.pow 2 (gridShift p u) = step at *
    rw [hk, Nat.mul_comm] at hlt
    exact Nat.lt_of_mul_lt_mul_right hlt
  rw [two_pow_pred (Nat.succ_pos p), Nat.succ_sub_one]
  omega

theorem FitsBits.next_le {p : Nat} (hu : FitsBits p u) (hw : FitsBits p w) (h : u < w) :
    u + Nat.pow 2 (gridShift p u) ≤ w := by
  have hdvd : Nat.pow 2 (gridShift p u) ∣ w :=
    Nat.dvd_trans (Nat.pow_dvd_pow 2 (gridShift_mono h.le)) hw
  have hsub : Nat.pow 2 (gridShift p u) ∣ w - u := Nat.dvd_sub hdvd hu
  have hle := Nat.le_of_dvd (Nat.sub_pos_of_lt h) hsub
  omega

theorem Representable.of_le (hu : FitsBits 53 u) (hw : Representable w) (h : u ≤ w) :
    Representable u :=
  ⟨Nat.lt_of_le_of_lt h hw.1, hu⟩

variable {v r : Rat}
  (hside : ∀ m, FitsBits 54 m → ((m : Rat) ≤ 2 * v → (m : Rat) ≤ 2 * r) ∧
    (2 * v ≤ (m : Rat) → 2 * r ≤ (m : Rat)))
include hside

/-- If the nearest numbers differ, both are as near to the value that was rounded first. -/
theorem NearestUnits.abs_eq (hu : NearestUnits u r) (hw : Representable w)
    (hnearest : ∀ y, Representable y → |(w : Rat) - v| ≤ |(y : Rat) - v|) (hne : w ≠ u) :
    |(w : Rat) - r| = |(u : Rat) - r| := by
  have hstep : ∀ n : Nat, (n : Rat) < (n + Nat.pow 2 (gridShift 53 n) : Nat) := fun n =>
    Nat.cast_lt.mpr (Nat.lt_add_of_pos_right (gridStep_pos 53 n))
  rcases Nat.lt_or_gt_of_ne hne with hlt | hgt
  · -- `r` is neither above the middle behind `w` nor below the one between `w` and `u`
    have hle := hw.2.next_le hu.representable.2 hlt
    have hnext := hu.representable.of_le (hw.2.next (by decide)) hle
    have hv := (abs_sub_le_iff_of_lt (hstep w)).mp (hnearest _ hnext)
    have hr := (abs_sub_ge_iff_of_lt (Nat.cast_lt.mpr hlt)).mp (hu.nearest w hw)
    have hmiddle := (hside _ hw.2.middle).2
    have hcast : ((w + Nat.pow 2 (gridShift 53 w) : Nat) : Rat) ≤ u := Nat.cast_le.mpr hle
    generalize w + Nat.pow 2 (gridShift 53 w) = m at *
    rw [Nat.cast_add] at hmiddle
    have habove := hmiddle hv
    exact abs_sub_eq_of_middle (by linarith)
  · -- `r` is in the middle behind `u`, and `w` is the next number
    have hle := hu.representable.2.next_le hw.2 hgt
    have hfits := hu.representable.2.next (by decide)
    have hnext := hw.of_le hfits hle
    have hr := (abs_sub_le_iff_of_lt (hstep u)).mp (hu.nearest _ hnext)
    have hv := (abs_sub_ge_iff_of_lt (Nat.cast_lt.mpr hgt)).mp (hnearest u hu.representable)
    have hmiddle := (hside _ hu.representable.2.middle).1
    have hbehind := hstep u
    have hcast : ((u + Nat.pow 2 (gridShift 53 u) : Nat) : Rat) ≤ w := Nat.cast_le.mpr hle
    generalize u + Nat.pow 2 (gridShift 53 u) = m at *
    rw [Nat.cast_add] at hmiddle
    have hbelow := hmiddle (by linarith)
    have hlast : m = w := by
      by_contra hdistinct
      have hlt : m < w := Nat.lt_of_le_of_ne hle hdistinct
      have hfar := (abs_sub_ge_iff_of_lt (Nat.cast_lt.mpr hlt)).mp (hnearest m hnext)
      have hdouble : FitsBits 54 (m * Nat.pow 2 1) :=
        (fitsBits_mul_two_pow_iff 1 (by decide)).mpr (hfits.mono (by decide))
      have hm := (hside _ hdouble).1
      rw [Nat.cast_mul, show ((Nat.pow 2 1 : Nat) : Rat) = 2 by norm_num] at hm
      have hcross := hm (by linarith)
      linarith
    subst hlast
    exact (abs_sub_eq_of_middle (by linarith)).symm

/-- A number that is nearest to a value rounded first is nearest to the value itself, unless another
one is as near to the rounded value and nearer to the value. -/
theorem nearestUnits_iff (hu : NearestUnits u r) (hexists : ∃ w, NearestUnits w v) :
    NearestUnits u v ↔
      ¬∃ w, Representable w ∧ |(w : Rat) - r| = |(u : Rat) - r| ∧
        |(w : Rat) - v| < |(u : Rat) - v| := by
  constructor
  · rintro h ⟨w, hw, -, hlt⟩
    exact absurd (h.nearest w hw) (not_le.mpr hlt)
  · intro hnone
    obtain ⟨w, hw⟩ := hexists
    have hclose : |(u : Rat) - v| ≤ |(w : Rat) - v| := by
      by_cases hne : w = u
      · rw [hne]
      · refine not_lt.mp fun hlt => hnone ⟨w, hw.representable, ?_, hlt⟩
        exact hu.abs_eq hside hw.representable hw.nearest hne
    have hnearest : ∀ y, Representable y → |(u : Rat) - v| ≤ |(y : Rat) - v| :=
      fun y hy => hclose.trans (hw.nearest y hy)
    refine ⟨hu.representable, hnearest, fun y hy hne heq => ?_⟩
    -- `y` is nearest to `v` as well, so it is as near to `r` as `u`
    have htie := hu.abs_eq hside hy (fun z hz => heq ▸ hnearest z hz) hne
    exact hu.even y hy hne htie

end

end GaussJordan
