import GaussJordan.Literal.Value
import GaussJordan.Proofs.DoubleUnits
import Mathlib.Algebra.Order.Field.Basic
import Mathlib.Data.Nat.Prime.Basic
import Mathlib.Data.Rat.Cast.Order
import Mathlib.Tactic.FieldSimp
import Mathlib.Tactic.Positivity

/-!
# GaussJordan.Proofs.SignificantBits

Rounding of rational values to a number of significant bits.

The rounded value is a fraction over a power of two whose numerator fits (`roundSignificant_spec`).
Such fractions are kept (`roundSignificant_of_fits`), so rounding twice is rounding once; any other
value moves by half a grid step at most (`roundSignificant_near`), and back to a fraction that is
near enough (`roundSignificant_of_near`). A value that some binary64 number has is converted to that
number (`Double.units?_ofRat`).
-/

namespace GaussJordan

variable {p : Nat} {q : Rat}

theorem mkRat_two_pow (a : Int) (t : Nat) : mkRat a (Nat.pow 2 t) = (a : Rat) / 2 ^ t := by
  rw [Rat.mkRat_eq_div, Nat.pow_eq, Nat.cast_pow, Nat.cast_ofNat]

/-! ## Signs -/

theorem roundToBits_zero (p den : Nat) : roundToBits p 0 den = 0 := by
  simp [roundToBits, roundHalfEven]

theorem roundSignificant_zero (p : Nat) : roundSignificant p 0 = 0 := by
  simp [roundSignificant, roundToBits_zero]

theorem truncateSignificant_zero (p : Nat) : truncateSignificant p 0 = 0 := by
  simp [truncateSignificant]

theorem roundSignificant_neg (p : Nat) (q : Rat) :
    roundSignificant p (-q) = -roundSignificant p q := by
  rcases lt_trichotomy q.num 0 with h | h | h
  · simp only [roundSignificant, Rat.neg_num, Rat.neg_den, Int.natAbs_neg, h, if_true,
      if_neg (show ¬-q.num < 0 by omega), mkRat_two_pow]
    rw [Int.cast_neg, neg_div, neg_neg]
  · rw [Rat.num_eq_zero.mp h, neg_zero, roundSignificant_zero, neg_zero]
  · simp only [roundSignificant, Rat.neg_num, Rat.neg_den, Int.natAbs_neg,
      if_pos (show -q.num < 0 by omega), if_neg (show ¬q.num < 0 by omega), mkRat_two_pow]
    rw [Int.cast_neg, neg_div]

theorem truncateSignificant_neg (p : Nat) (q : Rat) :
    truncateSignificant p (-q) = -truncateSignificant p q := by
  rcases lt_trichotomy q.num 0 with h | h | h
  · simp only [truncateSignificant, Rat.neg_num, Rat.neg_den, Int.natAbs_neg, h, if_true,
      if_neg (show ¬-q.num < 0 by omega), mkRat_two_pow]
    rw [Int.cast_neg, neg_div, neg_neg]
  · rw [Rat.num_eq_zero.mp h, neg_zero, truncateSignificant_zero, neg_zero]
  · simp only [truncateSignificant, Rat.neg_num, Rat.neg_den, Int.natAbs_neg,
      if_pos (show -q.num < 0 by omega), if_neg (show ¬q.num < 0 by omega), mkRat_two_pow]
    rw [Int.cast_neg, neg_div]

/-! ## The grid -/

/-- The scale at which a value is rounded. -/
def roundingScale (p : Nat) (q : Rat) : Nat := p + q.den.log2 + 1

/-- The numerator at that scale. -/
def scaledNum (p : Nat) (q : Rat) : Nat := q.num.natAbs * Nat.pow 2 (roundingScale p q)

theorem two_pow_pos (n : Nat) : (0 : Rat) < 2 ^ n := by positivity

theorem natAbs_num_eq (h : 0 ≤ q) : (q.num.natAbs : Rat) = q * q.den := by
  have hnum : (q.num.natAbs : Int) = q.num := Int.natAbs_of_nonneg (Rat.num_nonneg.mpr h)
  rw [Rat.mul_den_eq_num, ← hnum, Int.cast_natCast, Int.natAbs_natCast]

theorem scaledNum_eq (p : Nat) (h : 0 ≤ q) :
    (scaledNum p q : Rat) = q * q.den * 2 ^ roundingScale p q := by
  rw [scaledNum, Nat.cast_mul, Nat.pow_eq, Nat.cast_pow, Nat.cast_ofNat, natAbs_num_eq h]

theorem roundSignificant_eq (h : 0 ≤ q) :
    roundSignificant p q = (roundToBits p (scaledNum p q) q.den : Rat) / 2 ^ roundingScale p q := by
  have hnum : ¬q.num < 0 := not_lt.mpr (Rat.num_nonneg.mpr h)
  simp only [roundSignificant, if_neg hnum, mkRat_two_pow, Int.cast_natCast]
  rfl

/-- A rounded value is a fraction over a power of two with a numerator of few bits. -/
theorem roundSignificant_spec (hp : 0 < p) (h : 0 ≤ q) :
    ∃ k, FitsBits p k ∧ roundSignificant p q = (k : Rat) / 2 ^ roundingScale p q :=
  ⟨_, roundToBits_fits _ _ hp, roundSignificant_eq h⟩

/-- Rounding moves a value by half a grid step at most. -/
theorem roundSignificant_near_step (p : Nat) (h : 0 ≤ q) :
    |roundSignificant p q - q| ≤
      2 ^ gridShift p (scaledNum p q / q.den) / (2 * 2 ^ roundingScale p q) := by
  have hd : (0 : Rat) < q.den := Nat.cast_pos.mpr q.den_pos
  have hscale := two_pow_pos (roundingScale p q)
  have ⟨hlow, hhigh⟩ := roundToBits_near p (scaledNum p q) q.den q.den_pos
  rw [← @Nat.cast_le Rat, Nat.pow_eq] at hlow hhigh
  push_cast at hlow hhigh
  rw [scaledNum_eq p h] at hlow hhigh
  rw [roundSignificant_eq h, abs_le]
  generalize (2 : Rat) ^ gridShift p (scaledNum p q / q.den) = step at *
  generalize ((roundToBits p (scaledNum p q) q.den : Nat) : Rat) = r at *
  generalize (2 : Rat) ^ roundingScale p q = scale at *
  have hlow' : 2 * (q * scale) ≤ 2 * r + step := le_of_mul_le_mul_left (by linarith) hd
  have hhigh' : 2 * r ≤ 2 * (q * scale) + step := le_of_mul_le_mul_left (by linarith) hd
  have hsplit : r / scale - q = 2 * (r - q * scale) / (2 * scale) := by field_simp
  rw [hsplit, ← neg_div]
  constructor
  · gcongr
    linarith
  · gcongr
    linarith

/-- Below `2 ^ e` the grid step is known. -/
theorem roundSignificant_near {p' e : Nat} (hp : p ≤ p') (h : 0 ≤ q) (he : q < 2 ^ e) :
    |roundSignificant p' q - q| ≤ 2 ^ e / 2 ^ (p + 1) := by
  have hd : (0 : Rat) < q.den := Nat.cast_pos.mpr q.den_pos
  have hbound : scaledNum p' q / q.den < Nat.pow 2 (e + roundingScale p' q) := by
    rw [Nat.div_lt_iff_lt_mul q.den_pos, ← @Nat.cast_lt Rat, scaledNum_eq p' h, Nat.pow_eq]
    push_cast
    rw [pow_add]
    have hmul := mul_lt_mul_of_pos_right he (mul_pos hd (two_pow_pos (roundingScale p' q)))
    linarith
  have hshift : gridShift p' (scaledNum p' q / q.den) + (p + 1) ≤ e + (roundingScale p' q + 1) := by
    have hlog : (scaledNum p' q / q.den).log2 < e + roundingScale p' q := by
      by_cases h0 : scaledNum p' q / q.den = 0
      · rw [h0, roundingScale]
        simp
      · exact (Nat.log2_lt h0).mpr hbound
    simp only [gridShift, roundingScale] at hlog ⊢
    omega
  refine (roundSignificant_near_step p' h).trans ?_
  rw [← pow_succ', div_le_div_iff₀ (two_pow_pos _) (two_pow_pos _), ← pow_add, ← pow_add]
  exact pow_le_pow_right₀ one_le_two hshift

theorem den_dvd_two_pow (k t : Nat) : ((k : Rat) / 2 ^ t).den ∣ 2 ^ t := by
  have hdvd := Rat.den_dvd k (2 ^ t)
  rw [Rat.divInt_eq_div] at hdvd
  push_cast at hdvd
  exact_mod_cast hdvd

/-- A fraction over a power of two with a numerator of few bits is kept. -/
theorem roundSignificant_of_fits {k : Nat} (t : Nat) (hp : 0 < p) (hk : FitsBits p k) :
    roundSignificant p (k / 2 ^ t) = k / 2 ^ t := by
  have h : (0 : Rat) ≤ k / 2 ^ t := by positivity
  obtain ⟨j, -, hj⟩ := (Nat.dvd_prime_pow Nat.prime_two).mp (den_dvd_two_pow k t)
  have hscaled := scaledNum_eq p h
  have hvalue := natAbs_num_eq h
  have hcross : ((k : Rat) / 2 ^ t).num.natAbs * Nat.pow 2 t = k * Nat.pow 2 j := by
    rw [← @Nat.cast_inj Rat, Nat.pow_eq, Nat.pow_eq]
    push_cast
    rw [hvalue, hj, Nat.cast_pow, Nat.cast_ofNat]
    field_simp
  rw [roundSignificant_eq h]
  generalize hq : (k : Rat) / 2 ^ t = q at *
  have hnum : FitsBits p (q.num.natAbs * Nat.pow 2 (p + 1)) := by
    rw [fitsBits_mul_two_pow_iff _ hp, ← fitsBits_mul_two_pow_iff t hp, hcross,
      fitsBits_mul_two_pow_iff _ hp]
    exact hk
  have hscale : roundingScale p q = p + 1 + j := by
    rw [roundingScale, hj, Nat.log2_two_pow]
    omega
  have hsplit : scaledNum p q = q.num.natAbs * Nat.pow 2 (p + 1) * q.den := by
    rw [scaledNum, hscale, hj, Nat.pow_eq, Nat.pow_eq, pow_add, Nat.mul_assoc]
  rw [hsplit, roundToBits_of_mul q.den_pos hnum, hscale, Nat.pow_eq]
  push_cast
  rw [hvalue, hj, pow_add 2 (p + 1) j]
  push_cast
  field_simp

theorem roundSignificant_nonneg (hp : 0 < p) (h : 0 ≤ q) : 0 ≤ roundSignificant p q := by
  obtain ⟨k, -, hk⟩ := roundSignificant_spec hp h
  rw [hk]
  positivity

theorem den_roundSignificant_le (hp : 0 < p) (h : 0 ≤ q) :
    (roundSignificant p q).den ≤ 2 ^ roundingScale p q := by
  obtain ⟨k, -, hk⟩ := roundSignificant_spec hp h
  have hdvd := den_dvd_two_pow k (roundingScale p q)
  rw [hk]
  exact Nat.le_of_dvd (Nat.two_pow_pos _) hdvd

/-- Rounding twice to one precision is rounding once. -/
theorem roundSignificant_roundSignificant (hp : 0 < p) (h : 0 ≤ q) :
    roundSignificant p (roundSignificant p q) = roundSignificant p q := by
  obtain ⟨k, hfits, hk⟩ := roundSignificant_spec hp h
  rw [hk, roundSignificant_of_fits _ hp hfits]

/-- A value less than half a grid step away from a fraction over a power of two is rounded to it. -/
theorem roundSignificant_of_near {k t : Nat} (hp : 0 < p) (hk : Nat.pow 2 (p - 1) < k)
    (hk' : k < Nat.pow 2 p) (ht : t ≤ p) (h : 0 ≤ q)
    (hnear : |q - k / 2 ^ t| < 1 / 2 ^ (t + 1)) : roundSignificant p q = k / 2 ^ t := by
  obtain ⟨s, hs⟩ : ∃ s, roundingScale p q = s + t :=
    ⟨roundingScale p q - t, by simp only [roundingScale]; omega⟩
  have hscaled := scaledNum_eq p h
  have hd : (0 : Rat) < q.den := Nat.cast_pos.mpr q.den_pos
  have hstep := mul_pos hd (two_pow_pos s)
  have htail := two_pow_pos t
  have hround : roundToBits p (scaledNum p q) q.den = k * Nat.pow 2 s := by
    have hsize : (k : Rat) = k / 2 ^ t * 2 ^ t := by field_simp
    have hhalf : (1 : Rat) / 2 ^ (t + 1) * (2 ^ t * 2) = 1 := by
      rw [pow_succ]
      field_simp
    rw [hs, pow_add] at hscaled
    have ⟨hlow, hhigh⟩ := abs_lt.mp hnear
    have hlow' := mul_lt_mul_of_pos_right hlow (mul_pos hstep htail)
    have hhigh' := mul_lt_mul_of_pos_right hhigh (mul_pos hstep htail)
    have hunit := congrArg ((q.den : Rat) * 2 ^ s * ·) hhalf
    refine roundToBits_of_near hp hk hk' ?_ ?_ <;> rw [← @Nat.cast_lt Rat, Nat.pow_eq] <;>
      push_cast <;> rw [hscaled, hsize] <;> linarith
  rw [roundSignificant_eq h, hround, hs, pow_add, Nat.pow_eq]
  push_cast
  have hs := two_pow_pos s
  field_simp

theorem truncateSignificant_natCast {k : Nat} (hk : FitsBits p k) (hp : 0 < p) :
    truncateSignificant p k = k := by
  have hfits : FitsBits p (k * Nat.pow 2 (p + 1)) := (fitsBits_mul_two_pow_iff _ hp).mpr hk
  have hnum : ¬(k : Int) < 0 := by omega
  simp only [truncateSignificant, Rat.num_natCast, Rat.den_natCast, Int.natAbs_natCast,
    if_neg hnum, show Nat.log2 1 = 0 from rfl, Nat.add_zero, Nat.div_one]
  rw [Nat.div_mul_cancel hfits, mkRat_two_pow, Nat.pow_eq]
  push_cast
  field_simp

/-! ## Binary64 -/

namespace Double

theorem toRat?_eq_some_iff {x : Double} {q : Rat} :
    x.toRat? = some q ↔ ∃ i, x.units? = some i ∧ q = (i : Rat) / unitsPerOne := by
  cases x with
  | finite s u h =>
    simp only [toRat?, units?, Option.some.injEq, Rat.mkRat_eq_div, exists_eq_left']
    exact eq_comm
  | infinite s => simp only [toRat?, units?, reduceCtorEq, false_and, exists_false]
  | nan => simp only [toRat?, units?, reduceCtorEq, false_and, exists_false]

theorem toRat?_of_units? {x : Double} {i : Int} (h : x.units? = some i) :
    x.toRat? = some ((i : Rat) / unitsPerOne) :=
  toRat?_eq_some_iff.mpr ⟨i, h, rfl⟩

theorem units?_ofUnits_not (s : Bool) (num den : Nat) :
    (ofUnits (!s) num den).units? = (ofUnits s num den).units?.map (- ·) := by
  simp only [ofUnits]
  split
  · cases s <;> simp [units?, signedUnits]
  · rfl

theorem units?_ofRat_zero : (ofRat 0).units? = some 0 := by
  have hround : roundToBits 53 (0 * unitsPerOne) 1 = 0 := by
    rw [Nat.zero_mul, roundToBits_zero]
  rw [ofRat, ofRatio, Rat.num_zero, Rat.den_zero, Int.natAbs_zero,
    units?_ofUnits hround representable_zero.1]
  simp [signedUnits]

theorem units?_ofRat_neg (q : Rat) : (ofRat (-q)).units? = (ofRat q).units?.map (- ·) := by
  by_cases h : q = 0
  · rw [h, neg_zero, units?_ofRat_zero]
    rfl
  · have hnum := Rat.num_ne_zero.mpr h
    have hsign : decide ((-q).num < 0) = !decide (q.num < 0) := by
      rw [Rat.neg_num, ← decide_not, decide_eq_decide]
      omega
    rw [ofRat, ofRatio, hsign, units?_ofUnits_not, Rat.neg_num, Rat.neg_den, Int.natAbs_neg]
    rfl

/-- A value that some binary64 number has is converted to a number of this value. -/
theorem units?_ofRat {u : Nat} (h : Representable u) :
    (ofRat (u / unitsPerOne)).units? = some (u : Int) := by
  have hone : (0 : Rat) < unitsPerOne := Nat.cast_pos.mpr unitsPerOne_pos
  have h0 : (0 : Rat) ≤ u / unitsPerOne := div_nonneg (Nat.cast_nonneg u) hone.le
  have hnum := natAbs_num_eq h0
  have hsign : decide (((u : Rat) / unitsPerOne).num < 0) = false :=
    decide_eq_false (not_lt.mpr (Rat.num_nonneg.mpr h0))
  have hcross : ((u : Rat) / unitsPerOne).num.natAbs * unitsPerOne =
      u * ((u : Rat) / unitsPerOne).den := by
    rw [← @Nat.cast_inj Rat]
    push_cast
    rw [hnum]
    field_simp
  rw [ofRat, ofRatio, hsign, hcross, units?_ofUnits_of_mul (Rat.den_pos _) h]
  rfl

end Double

end GaussJordan
