import GaussJordan.Proofs.LiteralText
import GaussJordan.Proofs.NearestGrid
import GaussJordan.Proofs.SignificantBits

/-!
# GaussJordan.Proofs.TickRounding

A binary64 number, written in ticks and read back, is a number that is written in the same ticks.

Reading rounds the ticks twice, first to a precision that depends on how many digits there are and
then to 53 bits. Three cases are told apart.

* A whole number of ones is read exactly, and it is a binary64 number itself
  (`representable_of_whole`).
* From `2 ^ 19` on, half a tick is less than half a grid step, so that the number that was written
  is found again (`roundTwice_settled`).
* Below, the grid is so fine that two roundings move the ticks by less than half a tick
  (`roundTwice_small`).
-/

namespace GaussJordan

open Decimal

/-! ## The units in one -/

theorem units_exponents : ∃ k e, 178 ≤ k ∧ 53 < e ∧ e < Numeral.maxDigits ∧
    unitsPerOne = Nat.pow 2 k ∧ unitsLimit = Nat.pow 2 (e + k) := by
  have hlimit : 2098 = 1024 + 1074 := by decide
  have hk : 178 ≤ 1074 := by decide
  have he : 53 < 1024 ∧ 1024 < Numeral.maxDigits := by decide
  unfold unitsPerOne unitsLimit
  rw [hlimit]
  generalize 1074 = k at hk ⊢
  generalize 1024 = e at he ⊢
  exact ⟨k, e, hk, he.1, he.2, rfl, rfl⟩

/-- Numbers of ones that fit in 53 bits are in the range of binary64. -/
theorem mul_unitsPerOne_lt {a : Nat} (h : a ≤ Nat.pow 2 53) : a * unitsPerOne < unitsLimit := by
  obtain ⟨k, e, -, he, -, hone, hlimit⟩ := units_exponents
  have hsplit : Nat.pow 2 (e + k) = Nat.pow 2 e * Nat.pow 2 k := Nat.pow_add 2 e k
  rw [hlimit, hone, hsplit]
  refine Nat.mul_lt_mul_of_pos_right (Nat.lt_of_le_of_lt h ?_) (Nat.two_pow_pos k)
  exact Nat.pow_lt_pow_right (by decide) he

theorem representable_ones {k : Nat} (h : k ≤ Nat.pow 2 53) : Representable (k * unitsPerOne) := by
  obtain ⟨l, _, -, -, -, hone, -⟩ := units_exponents
  refine ⟨mul_unitsPerOne_lt h, ?_⟩
  rw [hone]
  exact fitsBits_mul_two_pow l h (by decide)

/-- Numbers of `2 ^ 52` and more are whole. -/
theorem dvd_of_large {u : Nat} (hu : FitsBits 53 u) (h : Nat.pow 2 52 * unitsPerOne ≤ u) :
    unitsPerOne ∣ u := by
  obtain ⟨k, _, -, -, -, hone, -⟩ := units_exponents
  have hsplit : Nat.pow 2 (52 + k) = Nat.pow 2 52 * Nat.pow 2 k := Nat.pow_add 2 52 k
  rw [hone, ← hsplit] at h
  rw [hone]
  exact hu.two_pow_dvd (by decide) h

/-! ## A number and its ticks -/

/-- Numbers of one sign are as far apart as their magnitudes. -/
theorem Double.abs_signedUnits_sub (s : Bool) (a b : Nat) (x y : Rat) :
    |(signedUnits s a : Rat) / x - (signedUnits s b : Rat) / y| =
      |(a : Rat) / x - (b : Rat) / y| := by
  cases s with
  | false => rfl
  | true =>
    simp only [signedUnits, if_true]
    push_cast
    rw [neg_div, neg_div, neg_sub_neg, abs_sub_comm]

theorem ticks_near (u : Nat) :
    |(roundHalfEven (u * ticksPerOne) unitsPerOne : Rat) / ticksPerOne - u / unitsPerOne| ≤
      1 / (2 * ticksPerOne) :=
  roundHalfEven_scaled_near u Double.unitsPerOne_pos ticksPerOne_pos

/-- Numbers with the same ticks are at most one tick apart. -/
theorem near_of_ticks_eq {u j : Nat} (h : roundHalfEven (j * ticksPerOne) unitsPerOne =
    roundHalfEven (u * ticksPerOne) unitsPerOne) :
    |(j : Rat) / unitsPerOne - u / unitsPerOne| ≤ 1 / ticksPerOne := by
  have hj := ticks_near j
  have hu := ticks_near u
  rw [h, abs_sub_comm] at hj
  have htriangle := (abs_sub_le _ _ _).trans (add_le_add hj hu)
  have hsum : 1 / (2 * (ticksPerOne : Rat)) + 1 / (2 * ticksPerOne) = 1 / ticksPerOne := by
    field_simp
    norm_num
  exact htriangle.trans_eq hsum

theorem roundHalfEven_of_ticks_near {j n : Nat}
    (h : |(j : Rat) / unitsPerOne - n / ticksPerOne| < 1 / (2 * ticksPerOne)) :
    roundHalfEven (j * ticksPerOne) unitsPerOne = n := by
  have hone : (0 : Rat) < unitsPerOne := Nat.cast_pos.mpr Double.unitsPerOne_pos
  have hticks : (0 : Rat) < ticksPerOne := Nat.cast_pos.mpr ticksPerOne_pos
  have ⟨hlow, hhigh⟩ := abs_lt.mp h
  have hhalf : 1 / (2 * (ticksPerOne : Rat)) * (2 * (unitsPerOne * ticksPerOne)) = unitsPerOne := by
    field_simp
  have hj : (j : Rat) / unitsPerOne * (unitsPerOne * ticksPerOne) = j * ticksPerOne := by field_simp
  have hn : (n : Rat) / ticksPerOne * (unitsPerOne * ticksPerOne) = unitsPerOne * n := by
    field_simp
  have hlow' := mul_lt_mul_of_pos_right hlow (mul_pos hone hticks)
  have hhigh' := mul_lt_mul_of_pos_right hhigh (mul_pos hone hticks)
  refine roundHalfEven_of_near ?_ ?_ <;> rw [← @Nat.cast_lt Rat] <;> push_cast <;> linarith

/-! ## Whole numbers of ones -/

section

variable {u : Nat} (hu : Representable u)

theorem roundHalfEven_ones (m : Nat) :
    roundHalfEven (unitsPerOne * m * ticksPerOne) unitsPerOne = m * ticksPerOne := by
  rw [Nat.mul_assoc, Nat.mul_comm, roundHalfEven_of_mul _ _ Double.unitsPerOne_pos]

theorem ticksPerOne_dvd (h : unitsPerOne ∣ u) :
    ticksPerOne ∣ roundHalfEven (u * ticksPerOne) unitsPerOne := by
  obtain ⟨m, hm⟩ := h
  rw [hm, roundHalfEven_ones]
  exact Nat.dvd_mul_left _ _

include hu

/-- A whole number of ones in the ticks of a binary64 number is a binary64 number too. -/
theorem representable_of_whole {k : Nat}
    (h : roundHalfEven (u * ticksPerOne) unitsPerOne = k * ticksPerOne) :
    Representable (k * unitsPerOne) := by
  by_cases hk : k ≤ Nat.pow 2 53
  · exact representable_ones hk
  · -- a larger number was whole from the start
    have hlarge : Nat.pow 2 52 * unitsPerOne ≤ u := by
      have hnear := (roundHalfEven_near (u * ticksPerOne) unitsPerOne Double.unitsPerOne_pos).2
      have hper : ticksPerOne = 10000000000 := rfl
      have hmul := Nat.mul_le_mul_right unitsPerOne (Nat.le_of_not_le hk)
      rw [h, ← Nat.mul_assoc unitsPerOne, Nat.mul_comm unitsPerOne k, hper] at hnear
      generalize unitsPerOne = one at *
      generalize k * one = size at *
      rw [show Nat.pow 2 53 = 9007199254740992 from rfl] at hmul
      rw [show Nat.pow 2 52 = 4503599627370496 from rfl]
      omega
    obtain ⟨m, hm⟩ := dvd_of_large hu.2 hlarge
    have hmk : m = k := by
      rw [hm, roundHalfEven_ones] at h
      exact Nat.eq_of_mul_eq_mul_right ticksPerOne_pos h
    rw [← hmk, Nat.mul_comm, ← hm]
    exact hu

/-- The ticks of a binary64 number have a bounded number of digits before the point. -/
theorem length_digits_ones :
    (digits (roundHalfEven (u * ticksPerOne) unitsPerOne / ticksPerOne)).length ≤
      Numeral.maxDigits := by
  obtain ⟨k, e, -, -, he, hone, hlimit⟩ := units_exponents
  have hlt := hu.1
  have hsplit : Nat.pow 2 (e + k) = Nat.pow 2 e * Nat.pow 2 k := Nat.pow_add 2 e k
  have hle : roundHalfEven (u * ticksPerOne) unitsPerOne ≤ Nat.pow 2 e * ticksPerOne := by
    have hmono := @roundHalfEven_mono (u * ticksPerOne) unitsPerOne
      (unitsPerOne * Nat.pow 2 e * ticksPerOne) unitsPerOne Double.unitsPerOne_pos
      Double.unitsPerOne_pos
    rw [roundHalfEven_ones] at hmono
    refine hmono (Nat.mul_le_mul_right _ (Nat.mul_le_mul_right _ ?_))
    rw [Nat.mul_comm, hone, ← hsplit, ← hlimit]
    exact Nat.le_of_lt hlt
  rw [Nat.mul_comm (Nat.pow 2 e)] at hle
  have hones := Nat.div_le_of_le_mul hle
  generalize Numeral.maxDigits = limit at *
  refine (Nat.length_toDigits_le_iff (by decide) (by omega)).mpr ?_
  calc roundHalfEven (u * ticksPerOne) unitsPerOne / ticksPerOne ≤ 2 ^ e := hones
    _ < 2 ^ limit := Nat.pow_lt_pow_right (by decide) he
    _ ≤ 10 ^ limit := Nat.pow_le_pow_left (by decide) limit

end

/-! ## Two roundings -/

section

variable {q : Rat} {bits : Nat} (h0 : 0 ≤ q) (hbits : bits = 53 ∨ 56 ≤ bits)
include h0 hbits

/-- Where half a tick is less than half a grid step, two roundings find the number again. -/
theorem roundTwice_settled {k t : Nat} (hk : Nat.pow 2 52 < k) (hk' : k < Nat.pow 2 53)
    (ht : t ≤ 33) (h : |q - k / 2 ^ t| ≤ 1 / (2 * ticksPerOne)) :
    roundSignificant 53 (roundSignificant bits q) = k / 2 ^ t := by
  have hticks : 1 / (2 * (ticksPerOne : Rat)) = 1 / 20000000000 := by norm_num [ticksPerOne]
  have hhalf : (1 : Rat) / 2 ^ (t + 1) = 1 / 2 ^ t / 2 := by
    rw [pow_succ]
    field_simp
  have hgrid : (1 : Rat) / 2 ^ 33 ≤ 1 / 2 ^ t :=
    one_div_le_one_div_of_le (two_pow_pos t) (pow_le_pow_right₀ one_le_two ht)
  rw [hticks] at h
  rcases hbits with rfl | hbits
  · have hfits : FitsBits 53 k := by
      have hfactor := fitsBits_mul_two_pow 0 (Nat.le_of_lt hk') (by decide)
      rwa [show Nat.pow 2 0 = 1 from rfl, Nat.mul_one] at hfactor
    have hnear : |q - k / 2 ^ t| < 1 / 2 ^ (t + 1) := by
      rw [hhalf]
      linarith
    rw [roundSignificant_of_near (by decide) hk hk' (by omega) h0 hnear,
      roundSignificant_of_fits t (by decide) hfits]
  · have hpow : (2 : Rat) ^ (53 - t) = 2 ^ 53 * (1 / 2 ^ t) := by
      rw [pow_sub₀ 2 two_ne_zero (by omega)]
      ring
    have hbelow : q < 2 ^ (53 - t) := by
      have hlast : (k : Rat) + 1 ≤ 2 ^ 53 := by exact_mod_cast hk'
      have hsplit : (k : Rat) / 2 ^ t = k * (1 / 2 ^ t) := div_eq_mul_one_div _ _
      have hmul := mul_le_mul_of_nonneg_right hlast (one_div_nonneg.mpr (two_pow_pos t).le)
      have hhigh := (abs_le.mp h).2
      rw [hpow]
      linarith
    have hfirst : |roundSignificant bits q - q| ≤ 1 / 2 ^ t / 16 :=
      calc |roundSignificant bits q - q| ≤ 2 ^ (53 - t) / 2 ^ (56 + 1) :=
            roundSignificant_near hbits h0 hbelow
        _ = 1 / 2 ^ t / 16 := by
          rw [hpow]
          ring
    have hnear : |roundSignificant bits q - k / 2 ^ t| < 1 / 2 ^ (t + 1) := by
      have htriangle := abs_sub_le (roundSignificant bits q) q (k / 2 ^ t)
      rw [hhalf]
      linarith
    exact roundSignificant_of_near (by decide) hk hk' (by omega)
      (roundSignificant_nonneg (by omega) h0) hnear

/-- Where the grid is finer than a tick, two roundings move a value by less than half a tick. -/
theorem roundTwice_small (h : q + 1 / ticksPerOne ≤ 2 ^ 19) :
    |roundSignificant 53 (roundSignificant bits q) - q| < 1 / (2 * ticksPerOne) := by
  have hticks : (ticksPerOne : Rat) = 10000000000 := by norm_num [ticksPerOne]
  rw [hticks] at h ⊢
  have hbelow : q < 2 ^ 19 := by linarith
  rcases hbits with rfl | hbits
  · rw [roundSignificant_roundSignificant (by decide) h0]
    calc |roundSignificant 53 q - q| ≤ 2 ^ 19 / 2 ^ (53 + 1) :=
          roundSignificant_near le_rfl h0 hbelow
      _ < 1 / (2 * 10000000000) := by norm_num
  · have hfirst : |roundSignificant bits q - q| ≤ 2 ^ 19 / 2 ^ (56 + 1) :=
      roundSignificant_near hbits h0 hbelow
    have hstays : roundSignificant bits q < 2 ^ 19 := by
      have hhigh := (abs_le.mp hfirst).2
      linarith
    have hsecond : |roundSignificant 53 (roundSignificant bits q) - roundSignificant bits q| ≤
        2 ^ 19 / 2 ^ (53 + 1) :=
      roundSignificant_near le_rfl (roundSignificant_nonneg (by omega) h0) hstays
    calc |roundSignificant 53 (roundSignificant bits q) - q| ≤
          |roundSignificant 53 (roundSignificant bits q) - roundSignificant bits q| +
            |roundSignificant bits q - q| := abs_sub_le _ _ _
      _ ≤ 2 ^ 19 / 2 ^ (53 + 1) + 2 ^ 19 / 2 ^ (56 + 1) := add_le_add hsecond hfirst
      _ < 1 / (2 * 10000000000) := by norm_num

end

/-- A number from `2 ^ 19` on that is not whole is a fraction with 53 bits above the line and a few
halvings below. -/
theorem exists_fraction {u : Nat} (hu : FitsBits 53 u) (hlow : Nat.pow 2 19 * unitsPerOne ≤ u)
    (hnot : ¬unitsPerOne ∣ u) :
    ∃ k t, Nat.pow 2 52 < k ∧ k < Nat.pow 2 53 ∧ t ≤ 33 ∧ (u : Rat) / unitsPerOne = k / 2 ^ t := by
  obtain ⟨e, _, he, -, -, hone, -⟩ := units_exponents
  rw [hone] at hlow hnot ⊢
  have hu0 : u ≠ 0 := by
    rintro rfl
    exact hnot (Nat.dvd_zero _)
  have hlog : 19 + e ≤ u.log2 := by
    rw [Nat.le_log2 hu0, Nat.pow_add]
    exact hlow
  have hcoarse : gridShift 53 u ≠ 0 := by
    simp only [gridShift]
    omega
  have hshift : gridShift 53 u < e := by
    by_contra hge
    exact hnot (Nat.dvd_trans (Nat.pow_dvd_pow 2 (Nat.not_lt.mp hge)) hu)
  have hsmall : e - gridShift 53 u ≤ 33 := by
    simp only [gridShift] at hshift ⊢
    omega
  obtain ⟨k, hk, hlower, hupper⟩ := hu.exists_factor hcoarse (by decide)
  generalize gridShift 53 u = s at *
  obtain ⟨t, rfl⟩ := Nat.exists_eq_add_of_lt hshift
  have hne : Nat.pow 2 52 ≠ k := by
    rintro rfl
    refine hnot (hk ▸ ?_)
    have hsplit : Nat.pow 2 (52 + s) = Nat.pow 2 52 * Nat.pow 2 s := Nat.pow_add 2 52 s
    rw [← hsplit]
    exact Nat.pow_dvd_pow 2 (by omega)
  refine ⟨k, t + 1, Nat.lt_of_le_of_ne hlower hne, hupper, by omega, ?_⟩
  rw [hk, Nat.pow_eq, Nat.pow_eq, Nat.add_assoc]
  push_cast
  rw [pow_add]
  have hs := two_pow_pos s
  field_simp

theorem den_le_ticksPerOne (n : Nat) : ((n : Rat) / ticksPerOne).den ≤ ticksPerOne := by
  have hdvd := Rat.den_dvd n ticksPerOne
  rw [Rat.divInt_eq_div] at hdvd
  push_cast at hdvd
  exact Nat.le_of_dvd ticksPerOne_pos (by exact_mod_cast hdvd)

/-- A fraction of 53 bits that is neither too fine nor too large is a binary64 number. -/
theorem exists_units {k t : Nat} (hk : FitsBits 53 k) (ht : t ≤ 178)
    (h : (k : Rat) / 2 ^ t ≤ 2 ^ 53) :
    ∃ j, Representable j ∧ (k : Rat) / 2 ^ t = (j : Rat) / unitsPerOne := by
  obtain ⟨e, _, he, -, -, hone, -⟩ := units_exponents
  obtain ⟨rest, hrest⟩ := Nat.exists_eq_add_of_le (Nat.le_trans ht he)
  have hvalue : (k : Rat) / 2 ^ t = ((k * Nat.pow 2 rest : Nat) : Rat) / unitsPerOne := by
    rw [hone, Nat.pow_eq, Nat.pow_eq, hrest]
    push_cast
    rw [pow_add]
    field_simp
  refine ⟨k * Nat.pow 2 rest, ⟨?_, (fitsBits_mul_two_pow_iff rest (by decide)).mpr hk⟩, hvalue⟩
  refine Nat.lt_of_le_of_lt ?_ (mul_unitsPerOne_lt le_rfl)
  have hpos : (0 : Rat) < unitsPerOne := Nat.cast_pos.mpr Double.unitsPerOne_pos
  have hbits : ((Nat.pow 2 53 : Nat) : Rat) = 2 ^ 53 := by norm_num
  rw [← @Nat.cast_le Rat, Nat.cast_mul (Nat.pow 2 53), ← div_le_iff₀ hpos, hbits, ← hvalue]
  exact h

/-- The result of two roundings of few digits is a binary64 number. -/
theorem exists_representable {q : Rat} {bits : Nat} (h0 : 0 ≤ q) (hden : q.den ≤ ticksPerOne)
    (hbits : bits = 53 ∨ 56 ≤ bits) (hbits' : bits ≤ 90) (h : q + 1 / ticksPerOne ≤ 2 ^ 19) :
    ∃ j, Representable j ∧
      roundSignificant 53 (roundSignificant bits q) = (j : Rat) / unitsPerOne := by
  have hpos : 0 < bits := by omega
  obtain ⟨k, hfits, hk⟩ :=
    roundSignificant_spec (by decide : 0 < 53) (roundSignificant_nonneg hpos h0)
  have hscale : roundingScale 53 (roundSignificant bits q) ≤ 178 := by
    have hlog : q.den.log2 < 34 := (Nat.log2_lt q.den_nz).mpr (Nat.lt_of_le_of_lt hden (by decide))
    have hfirst : roundingScale bits q < 125 := by
      rw [roundingScale]
      omega
    have hlog' : (roundSignificant bits q).den.log2 < 125 := by
      refine (Nat.log2_lt (Rat.den_nz _)).mpr ?_
      calc (roundSignificant bits q).den ≤ 2 ^ roundingScale bits q :=
            den_roundSignificant_le hpos h0
        _ < 2 ^ 125 := Nat.pow_lt_pow_right (by decide) hfirst
    rw [roundingScale]
    omega
  have hbound : (k : Rat) / 2 ^ roundingScale 53 (roundSignificant bits q) ≤ 2 ^ 53 := by
    have hhigh := (abs_lt.mp (roundTwice_small h0 hbits h)).2
    have hticks : (ticksPerOne : Rat) = 10000000000 := by norm_num [ticksPerOne]
    rw [hk, hticks] at hhigh
    rw [hticks] at h
    linarith
  rw [hk]
  exact exists_units hfits hscale hbound

/-! ## Reading ticks -/

namespace Quantity

/-- The value that is rounded to a double. -/
def kept : Quantity → Rat
  | .exact q => truncateSignificant exactBits q
  | .rounded _ q => q

theorem units?_toDouble (x : Quantity) :
    x.toDouble.units? = (Double.ofRat (roundSignificant 53 x.kept)).units? := by
  have hzero : ∀ y : Double, (if y.eq .zero then Double.zero else y).units? = y.units? := by
    intro y
    split
    · rename_i h
      rw [(Double.eq_iff Double.units?_zero).mp h, Double.units?_zero]
    · rfl
  cases x with
  | exact q => simp only [toDouble, kept, hzero]
  | rounded bits q => simp only [toDouble, kept, hzero]

theorem kept_neg (x : Quantity) : x.neg.kept = -x.kept := by
  cases x with
  | exact q => exact truncateSignificant_neg exactBits q
  | rounded bits q => rfl

theorem units?_toDouble_neg (x : Quantity) :
    x.neg.toDouble.units? = x.toDouble.units?.map (- ·) := by
  rw [units?_toDouble, units?_toDouble, kept_neg, roundSignificant_neg, Double.units?_ofRat_neg]

end Quantity

theorem precisionBits_cases : ∀ count ≤ 26, Numeral.precisionBits count = 53 ∨
    56 ≤ Numeral.precisionBits count ∧ Numeral.precisionBits count ≤ 90 := by
  decide +kernel

section

variable {u n : Nat} (hu : Representable u) (hn : roundHalfEven (u * ticksPerOne) unitsPerOne = n)
include hu hn

theorem units?_ofSize_whole {k : Nat} (hk : n = k * ticksPerOne) :
    (Quantity.ofSize n).toDouble.units? = some ((k * unitsPerOne : Nat) : Int) := by
  have hone := representable_of_whole hu (hn.trans hk)
  have hfits : FitsBits 53 k := by
    obtain ⟨l, _, -, -, -, hpow, -⟩ := units_exponents
    have hgrid := hone.2
    rw [hpow] at hgrid
    exact (fitsBits_mul_two_pow_iff l (by decide)).mp hgrid
  have hfits' : FitsBits 57 k := by
    refine Nat.dvd_trans (Nat.pow_dvd_pow 2 ?_) hfits
    simp only [gridShift]
    omega
  have hsize : Quantity.ofSize n = .exact k := by
    rw [hk, Quantity.ofSize, if_pos (Nat.mul_mod_left k _), Nat.mul_div_cancel k ticksPerOne_pos]
  have hkept : (Quantity.exact k).kept = (k : Rat) := truncateSignificant_natCast hfits' (by decide)
  have hround : roundSignificant 53 (k : Rat) = k := by
    have h := roundSignificant_of_fits 0 (by decide) hfits
    rwa [pow_zero, div_one] at h
  have hvalue : (k : Rat) = ((k * unitsPerOne : Nat) : Rat) / unitsPerOne := by
    have hpos : (0 : Rat) < unitsPerOne := Nat.cast_pos.mpr Double.unitsPerOne_pos
    rw [Nat.cast_mul, mul_div_cancel_right₀ _ hpos.ne']
  rw [hsize, Quantity.units?_toDouble, hkept, hround, hvalue, Double.units?_ofRat hone]

omit hu in
/-- The ticks of a number below a whole one are not more than those of the whole one. -/
theorem ticks_le {m : Nat} (h : u ≤ m * unitsPerOne) : n ≤ m * ticksPerOne := by
  have hmono := @roundHalfEven_mono (u * ticksPerOne) unitsPerOne (unitsPerOne * m * ticksPerOne)
    unitsPerOne Double.unitsPerOne_pos Double.unitsPerOne_pos
  rw [roundHalfEven_ones, hn, Nat.mul_comm unitsPerOne m] at hmono
  exact hmono (Nat.mul_le_mul_right _ (Nat.mul_le_mul_right _ h))

/-- Two roundings of ticks that are no whole number of ones give a binary64 number with these
ticks. -/
theorem exists_roundTwice (hr : n % ticksPerOne ≠ 0) {bits : Nat} (hbits : bits = 53 ∨ 56 ≤ bits)
    (hbits' : bits ≤ 90) :
    ∃ j, Representable j ∧
      roundSignificant 53 (roundSignificant bits (n / ticksPerOne)) = (j : Rat) / unitsPerOne ∧
      roundHalfEven (j * ticksPerOne) unitsPerOne = n := by
  have hticks : (0 : Rat) < ticksPerOne := Nat.cast_pos.mpr ticksPerOne_pos
  have h0 : (0 : Rat) ≤ n / ticksPerOne := div_nonneg (Nat.cast_nonneg n) hticks.le
  by_cases hlow : Nat.pow 2 19 * unitsPerOne ≤ u
  · have hnot : ¬unitsPerOne ∣ u := fun h => hr (Nat.mod_eq_zero_of_dvd (hn ▸ ticksPerOne_dvd h))
    obtain ⟨k, t, hk, hk', ht, hvalue⟩ := exists_fraction hu.2 hlow hnot
    have hnear := ticks_near u
    rw [hn, hvalue] at hnear
    refine ⟨u, hu, ?_, hn⟩
    rw [roundTwice_settled h0 hbits hk hk' ht hnear, hvalue]
  · have hbound : (n : Rat) / ticksPerOne + 1 / ticksPerOne ≤ 2 ^ 19 := by
      have hle := ticks_le hn (Nat.le_of_not_le hlow)
      have hne : n ≠ Nat.pow 2 19 * ticksPerOne := by
        rintro rfl
        exact hr (Nat.mul_mod_left _ _)
      have hcast : ((n + 1 : Nat) : Rat) ≤ (Nat.pow 2 19 * ticksPerOne : Nat) :=
        Nat.cast_le.mpr (Nat.lt_of_le_of_ne hle hne)
      rw [Nat.pow_eq] at hcast
      push_cast at hcast
      rwa [← add_div, div_le_iff₀ hticks]
    obtain ⟨j, hj, hvalue⟩ := exists_representable h0 (den_le_ticksPerOne n) hbits hbits' hbound
    have hmoved := roundTwice_small h0 hbits hbound
    rw [hvalue] at hmoved
    exact ⟨j, hj, hvalue, roundHalfEven_of_ticks_near hmoved⟩

theorem units?_ofSize_point (hr : n % ticksPerOne ≠ 0) :
    ∃ j : Nat, (Quantity.ofSize n).toDouble.units? = some (j : Int) ∧
      roundHalfEven (j * ticksPerOne) unitsPerOne = n := by
  have hsmall : u ≤ Nat.pow 2 52 * unitsPerOne := Nat.le_of_not_le fun h =>
    hr (Nat.mod_eq_zero_of_dvd (hn ▸ ticksPerOne_dvd (dvd_of_large hu.2 h)))
  have hcount : (Numeral.ofTicks n).precisionDigits ≤ 26 :=
    Numeral.precisionDigits_ofTicks hr (by decide)
      (Nat.lt_of_le_of_lt (ticks_le hn hsmall) (by decide))
  have hprecision := precisionBits_cases _ hcount
  have hsize : Quantity.ofSize n = .rounded _ _ := if_neg hr
  rw [hsize, Quantity.units?_toDouble, Quantity.kept]
  generalize Numeral.precisionBits (Numeral.ofTicks n).precisionDigits = bits at *
  obtain ⟨j, hj, hvalue, hround⟩ :=
    exists_roundTwice hu hn hr (hprecision.imp_right And.left) (by omega)
  refine ⟨j, ?_, hround⟩
  rw [hvalue, Double.units?_ofRat hj]

/-- The ticks of a binary64 number are read as a number with the same ticks. -/
theorem units?_ofSize :
    ∃ j : Nat, (Quantity.ofSize n).toDouble.units? = some (j : Int) ∧
      roundHalfEven (j * ticksPerOne) unitsPerOne = n := by
  by_cases hr : n % ticksPerOne = 0
  · obtain ⟨k, hk⟩ := Nat.dvd_of_mod_eq_zero hr
    rw [Nat.mul_comm] at hk
    refine ⟨k * unitsPerOne, units?_ofSize_whole hu hn hk, ?_⟩
    rw [Nat.mul_comm k, roundHalfEven_ones, hk]
  · exact units?_ofSize_point hu hn hr

end

end GaussJordan
