import GaussJordan.Proofs.DoubleRounding
import GaussJordan.Proofs.TickRounding

/-!
# GaussJordan.Proofs.NearestDouble

Correct rounding to binary64.

* `Double.IsNearest x q`: no finite number is nearer to `q` than `x`, and where another one is as
  near, the last bit of `x` is zero.
* `Double.InRange q`: zero, or between the smallest normal and the largest finite number.
* `Double.Overtaken x r v`: of the numbers that are as near to `r` as `x`, another one is nearer to
  `v`.

A quantity becomes the double nearest to the value that is kept of it, and this is the nearest one
to the value it was formed from unless it is overtaken (`Quantity.reachedBy_toDouble`).
-/

namespace GaussJordan

namespace Double

/-! ## Nearest numbers -/

def IsNearest (x : Double) (q : Rat) : Prop :=
  ∃ d, x.toRat? = some d ∧ ∀ (y : Double) (s : Rat), y.toRat? = some s →
    |d - q| ≤ |s - q| ∧ (s ≠ d → |s - q| = |d - q| → x.toBits % 2 = 0)

def Overtaken (x : Double) (r v : Rat) : Prop :=
  ∃ d, x.toRat? = some d ∧ ∃ (y : Double) (s : Rat), y.toRat? = some s ∧
    |s - r| = |d - r| ∧ |s - v| < |d - v|

def InRange (q : Rat) : Prop :=
  q = 0 ∨ (1 / 2 ^ 1022 ≤ |q| ∧ ∃ (y : Double) (d : Rat), y.toRat? = some d ∧ |q| ≤ d)

theorem unitsPerOne_pos_rat : (0 : Rat) < unitsPerOne := Nat.cast_pos.mpr unitsPerOne_pos

theorem unitsPerOne_eq_two_pow_rat : ∃ k : Nat, (unitsPerOne : Rat) = 2 ^ k := by
  obtain ⟨k, -, hunits⟩ := unitsPerOne_eq_two_pow
  exact ⟨k, by rw [hunits, Nat.pow_eq, Nat.cast_pow, Nat.cast_ofNat]⟩

/-- Distances in units. -/
theorem abs_units_sub (i : Int) (q : Rat) :
    |(i : Rat) / unitsPerOne - q| = |(i : Rat) - q * unitsPerOne| / unitsPerOne := by
  have hpos := unitsPerOne_pos_rat
  generalize (unitsPerOne : Rat) = one at *
  rw [show (i : Rat) / one - q = (i - q * one) / one by field_simp, abs_div, abs_of_pos hpos]

theorem toBits_mod_two {x : Double} {i : Int} (h : x.units? = some i) :
    x.toBits % 2 = 0 ↔ LastBitZero 53 i.natAbs := by
  cases x with
  | finite s u hu =>
    obtain rfl : signedUnits s u = i := Option.some.inj h
    rw [natAbs_signedUnits, LastBitZero]
    simp only [toBits]
    have hsign : (if s = true then Nat.pow 2 63 else 0) % 2 = 0 := by
      cases s <;> decide
    have hshift : gridShift 53 u * Nat.pow 2 52 % 2 = 0 := by
      rw [Nat.mul_mod, show Nat.pow 2 52 % 2 = 0 by decide, Nat.mul_zero, Nat.zero_mod]
    generalize (if s = true then Nat.pow 2 63 else 0) = a at *
    generalize gridShift 53 u * Nat.pow 2 52 = b at *
    omega
  | infinite s => cases h
  | nan => cases h

section

variable {x y : Double} {i : Int} {u : Nat} {q r v : Rat}

theorem div_units_le_iff {a b : Rat} : a / unitsPerOne ≤ b / unitsPerOne ↔ a ≤ b :=
  div_le_div_iff_of_pos_right unitsPerOne_pos_rat

theorem div_units_inj {a b : Rat} : a / unitsPerOne = b / unitsPerOne ↔ a = b :=
  div_left_inj' unitsPerOne_pos_rat.ne'

/-- A number with `i` units is nearest to `q` exactly if it is so in units. -/
theorem isNearest_iff (hx : x.units? = some i) :
    x.IsNearest q ↔ ∀ (y : Double) (j : Int), y.units? = some j →
      |(i : Rat) - q * unitsPerOne| ≤ |(j : Rat) - q * unitsPerOne| ∧
      (j ≠ i → |(j : Rat) - q * unitsPerOne| = |(i : Rat) - q * unitsPerOne| →
        LastBitZero 53 i.natAbs) := by
  have hvalue : x.toRat? = some ((i : Rat) / unitsPerOne) := toRat?_of_units? hx
  constructor
  · rintro ⟨d, hd, h⟩ y j hy
    obtain rfl : (i : Rat) / unitsPerOne = d := Option.some.inj (hvalue.symm.trans hd)
    have hy' := h y _ (toRat?_of_units? hy)
    rwa [abs_units_sub, abs_units_sub, div_units_le_iff, div_units_inj, ne_eq, div_units_inj,
      Int.cast_inj, toBits_mod_two hx] at hy'
  · intro h
    refine ⟨_, hvalue, fun y s hs => ?_⟩
    obtain ⟨j, hy, rfl⟩ := toRat?_eq_some_iff.mp hs
    rw [abs_units_sub, abs_units_sub, div_units_le_iff, div_units_inj, ne_eq, div_units_inj,
      Int.cast_inj, toBits_mod_two hx]
    exact h y j hy

theorem overtaken_iff (hx : x.units? = some i) :
    x.Overtaken r v ↔ ∃ (y : Double) (j : Int), y.units? = some j ∧
      |(j : Rat) - r * unitsPerOne| = |(i : Rat) - r * unitsPerOne| ∧
      |(j : Rat) - v * unitsPerOne| < |(i : Rat) - v * unitsPerOne| := by
  have hvalue : x.toRat? = some ((i : Rat) / unitsPerOne) := toRat?_of_units? hx
  constructor
  · rintro ⟨d, hd, y, s, hs, heq, hlt⟩
    obtain rfl : (i : Rat) / unitsPerOne = d := Option.some.inj (hvalue.symm.trans hd)
    obtain ⟨j, hy, rfl⟩ := toRat?_eq_some_iff.mp hs
    rw [abs_units_sub, abs_units_sub, div_units_inj] at heq
    rw [abs_units_sub, abs_units_sub, ← not_le, div_units_le_iff, not_le] at hlt
    exact ⟨y, j, hy, heq, hlt⟩
  · rintro ⟨y, j, hy, heq, hlt⟩
    refine ⟨_, hvalue, y, _, toRat?_of_units? hy, ?_, ?_⟩
    · rw [abs_units_sub, abs_units_sub, div_units_inj]
      exact heq
    · rw [abs_units_sub, abs_units_sub, ← not_le, div_units_le_iff, not_le]
      exact hlt

/-! ## Signs -/

theorem abs_neg_sub_neg (a b : Rat) : |-a - -b| = |a - b| := by
  rw [neg_sub_neg, abs_sub_comm]

/-- Being nearest is symmetric in the sign. -/
theorem IsNearest.neg (h : x.IsNearest q) (hx : x.units? = some i) (hy : y.units? = some (-i)) :
    y.IsNearest (-q) := by
  rw [isNearest_iff hx] at h
  rw [isNearest_iff hy]
  intro z j hz
  have hneg : z.neg.units? = some (-j) := units?_neg hz
  have hj := h z.neg (-j) hneg
  rw [neg_mul, Int.cast_neg, ← neg_neg (j : Rat), abs_neg_sub_neg, abs_neg_sub_neg, Int.natAbs_neg,
    ← Int.cast_neg j]
  refine ⟨hj.1, fun hne => hj.2 fun heq => hne ?_⟩
  rw [← heq, Int.neg_neg]

theorem Overtaken.neg (h : x.Overtaken r v) (hx : x.units? = some i) (hy : y.units? = some (-i)) :
    y.Overtaken (-r) (-v) := by
  rw [overtaken_iff hx] at h
  rw [overtaken_iff hy]
  obtain ⟨z, j, hz, heq, hlt⟩ := h
  refine ⟨z.neg, -j, units?_neg hz, ?_, ?_⟩
  · rw [neg_mul, Int.cast_neg, Int.cast_neg, abs_neg_sub_neg, abs_neg_sub_neg]
    exact heq
  · rw [neg_mul, Int.cast_neg, Int.cast_neg, abs_neg_sub_neg, abs_neg_sub_neg]
    exact hlt

/-! ## Values that are not negative -/

/-- Beside a value that is not negative, zero is nearer than a negative number. -/
theorem abs_zero_sub_lt (hq : 0 ≤ q) (hi : i < 0) : |(0 : Rat) - q| < |(i : Rat) - q| := by
  have hcast : (i : Rat) < 0 := Int.cast_lt_zero.mpr hi
  rw [abs_of_nonpos (by linarith), abs_of_nonpos (by linarith)]
  linarith

/-- Every number of units that is representable is that of a double. -/
theorem exists_units?_eq (h : Representable u) : ∃ y : Double, y.units? = some (u : Int) :=
  ⟨.finite false u h, rfl⟩

theorem isNearest_iff_nearestUnits (hq : 0 ≤ q) (hx : x.units? = some (u : Int)) :
    x.IsNearest q ↔ NearestUnits u (q * unitsPerOne) := by
  have hv : 0 ≤ q * unitsPerOne := mul_nonneg hq unitsPerOne_pos_rat.le
  have hu : Representable u := representable_of_units? hx
  rw [isNearest_iff hx, Int.natAbs_natCast, Int.cast_natCast]
  generalize q * (unitsPerOne : Rat) = v at *
  constructor
  · intro h
    have hnat : ∀ w, Representable w → |(u : Rat) - v| ≤ |(w : Rat) - v| ∧
        (w ≠ u → |(w : Rat) - v| = |(u : Rat) - v| → LastBitZero 53 u) := by
      intro w hw
      obtain ⟨y, hy⟩ := exists_units?_eq hw
      have hj := h y w hy
      rwa [Int.cast_natCast, ne_eq, Int.natCast_inj] at hj
    exact ⟨hu, fun w hw => (hnat w hw).1, fun w hw => (hnat w hw).2⟩
  · intro h y j hy
    rcases lt_or_ge j 0 with hneg | hpos
    · have hfar := (h.nearest 0 representable_zero).trans_lt (by
        rw [Nat.cast_zero]
        exact abs_zero_sub_lt hv hneg)
      exact ⟨hfar.le, fun _ heq => absurd heq hfar.ne'⟩
    · have hw := representable_of_units? hy
      obtain ⟨w, rfl⟩ := Int.eq_ofNat_of_zero_le hpos
      rw [Int.cast_natCast, ne_eq, Int.natCast_inj]
      exact ⟨h.nearest w hw, h.even w hw⟩

theorem overtaken_iff_units (hr : 0 ≤ r) (hx : x.units? = some (u : Int))
    (h : NearestUnits u (r * unitsPerOne)) :
    x.Overtaken r v ↔ ∃ w, Representable w ∧
      |(w : Rat) - r * unitsPerOne| = |(u : Rat) - r * unitsPerOne| ∧
      |(w : Rat) - v * unitsPerOne| < |(u : Rat) - v * unitsPerOne| := by
  have hr' : 0 ≤ r * unitsPerOne := mul_nonneg hr unitsPerOne_pos_rat.le
  rw [overtaken_iff hx, Int.cast_natCast]
  generalize r * (unitsPerOne : Rat) = r at *
  constructor
  · rintro ⟨y, j, hy, heq, hlt⟩
    rcases lt_or_ge j 0 with hneg | hpos
    · have hfar := (h.nearest 0 representable_zero).trans_lt (by
        rw [Nat.cast_zero]
        exact abs_zero_sub_lt hr' hneg)
      exact absurd heq hfar.ne'
    · have hw := representable_of_units? hy
      obtain ⟨w, rfl⟩ := Int.eq_ofNat_of_zero_le hpos
      rw [Int.cast_natCast] at heq hlt
      exact ⟨w, hw, heq, hlt⟩
  · rintro ⟨w, hw, heq, hlt⟩
    obtain ⟨y, hy⟩ := exists_units?_eq hw
    rw [← Int.cast_natCast (R := Rat) w] at heq hlt
    exact ⟨y, w, hy, heq, hlt⟩

end

end Double

/-! ## The range -/

section

open Double

variable {p : Nat} {q v r : Rat}

theorem Double.exists_natUnits {y : Double} {d : Rat} (hd : y.toRat? = some d) (h : 0 ≤ d) :
    ∃ w : Nat, Representable w ∧ d = (w : Rat) / unitsPerOne := by
  obtain ⟨j, hy, rfl⟩ := toRat?_eq_some_iff.mp hd
  have hpos : 0 ≤ j := by
    rw [le_div_iff₀ unitsPerOne_pos_rat, zero_mul] at h
    exact_mod_cast h
  have hw := representable_of_units? hy
  obtain ⟨w, rfl⟩ := Int.eq_ofNat_of_zero_le hpos
  exact ⟨w, hw, by rw [Int.cast_natCast]⟩

/-- A bound of the range in units. -/
theorem Double.InRange.exists_units (h : InRange q) (hq : 0 ≤ q) :
    ∃ w, Representable w ∧ q * unitsPerOne ≤ w := by
  rcases h with rfl | ⟨-, y, d, hd, hle⟩
  · exact ⟨0, representable_zero, by rw [zero_mul, Nat.cast_zero]⟩
  · obtain ⟨w, hw, rfl⟩ := exists_natUnits hd ((abs_nonneg q).trans hle)
    rw [abs_of_nonneg hq, le_div_iff₀ unitsPerOne_pos_rat] at hle
    exact ⟨w, hw, hle⟩

theorem mul_unitsPerOne_eq (hq : 0 ≤ q) :
    q * unitsPerOne = ((q.num.natAbs * unitsPerOne : Nat) : Rat) / q.den := by
  have hd : (q.den : Rat) ≠ 0 := Nat.cast_ne_zero.mpr q.den_nz
  rw [Nat.cast_mul, natAbs_num_eq hq, mul_right_comm, mul_div_cancel_right₀ _ hd]

/-- In the range there is a nearest number: the rounded one. -/
theorem exists_nearestUnits (hrange : InRange q) (hq : 0 ≤ q) :
    NearestUnits (roundToBits 53 (q.num.natAbs * unitsPerOne) q.den) (q * unitsPerOne) := by
  obtain ⟨w, hw, hle⟩ := hrange.exists_units hq
  rw [mul_unitsPerOne_eq hq] at hle ⊢
  refine nearestUnits_roundToBits q.den_pos (Nat.lt_of_le_of_lt ?_ hw.1)
  refine roundToBits_le (by decide) q.den_pos hw.2 ?_
  rw [div_le_iff₀ (Nat.cast_pos.mpr q.den_pos)] at hle
  exact_mod_cast hle

theorem unitsPerOne_split : unitsPerOne = Nat.pow 2 52 * Nat.pow 2 1022 := by
  have hsum : 1074 = 52 + 1022 := rfl
  unfold unitsPerOne
  rw [hsum]
  generalize 1022 = k
  exact Nat.pow_add 2 52 k

/-- The units of a normal number fill 53 bits. -/
theorem two_pow_le_units (hq : 0 ≤ q) (h : 1 / 2 ^ 1022 ≤ q) :
    Nat.pow 2 52 ≤ q.num.natAbs * unitsPerOne / q.den := by
  rw [Nat.le_div_iff_mul_le q.den_pos, unitsPerOne_split]
  generalize 1022 = k at *
  rw [div_le_iff₀ (two_pow_pos k)] at h
  have hden := mul_le_mul_of_nonneg_right h (@Nat.cast_nonneg Rat _ _ _ q.den)
  rw [one_mul, mul_right_comm, ← natAbs_num_eq hq] at hden
  have hnat : q.den ≤ q.num.natAbs * Nat.pow 2 k := by
    rw [← @Nat.cast_le Rat, Nat.pow_eq]
    push_cast
    exact hden
  have hmul := Nat.mul_le_mul_left (Nat.pow 2 52) hnat
  rwa [Nat.mul_left_comm] at hmul

/-- In the range, 53 significant bits are the grid of the doubles. -/
theorem roundSignificant_eq_units (hrange : InRange q) (hq : 0 ≤ q) :
    roundSignificant 53 q =
      (roundToBits 53 (q.num.natAbs * unitsPerOne) q.den : Rat) / unitsPerOne := by
  rcases hrange with rfl | ⟨hlow, -⟩
  · rw [roundSignificant_zero, Rat.num_zero, Int.natAbs_zero, Nat.zero_mul, roundToBits_zero,
      Nat.cast_zero, zero_div]
  rw [abs_of_nonneg hq] at hlow
  have hq' : 0 < q := lt_of_lt_of_le (by positivity) hlow
  have hnormal := two_pow_le_units hq hlow
  obtain ⟨k, -, hone⟩ := unitsPerOne_eq_two_pow
  rw [hone] at hnormal ⊢
  have hscaled := roundToBits_mul_two_pow k (by decide) q.den_pos
    (two_pow_pred_le_scaledNum (p := 53) hq')
  have hunits := roundToBits_mul_two_pow (p := 53) (roundingScale 53 q) (by decide) q.den_pos
    hnormal
  rw [scaledNum, Nat.mul_right_comm] at hscaled
  have hcross := hscaled.symm.trans hunits
  have hpos : ((Nat.pow 2 k : Nat) : Rat) ≠ 0 := Nat.cast_ne_zero.mpr (Nat.two_pow_pos k).ne'
  rw [roundSignificant_eq hq, scaledNum, div_eq_div_iff (two_pow_pos _).ne' hpos]
  exact_mod_cast hcross

theorem units?_ofRat_roundSignificant (hrange : InRange q) (hq : 0 ≤ q) :
    (ofRat (roundSignificant 53 q)).units? =
      some ((roundToBits 53 (q.num.natAbs * unitsPerOne) q.den : Nat) : Int) := by
  rw [roundSignificant_eq_units hrange hq]
  exact units?_ofRat (exists_nearestUnits hrange hq).representable

/-! ## Values rounded before -/

theorem SameSide.nonneg (h : SameSide p v r) (hv : 0 ≤ v) : 0 ≤ r := by
  have hzero := (h 0 0 (Nat.dvd_zero _)).1
  rw [Nat.cast_zero, zero_div] at hzero
  exact hzero hv

theorem SameSide.eq_zero (h : SameSide p v r) (hv : v = 0) : r = 0 := by
  have hzero := (h 0 0 (Nat.dvd_zero _)).2
  rw [Nat.cast_zero, zero_div] at hzero
  exact le_antisymm (hzero hv.le) (h.nonneg hv.ge)

/-- A value does not leave the range when it is rounded to 53 bits or more. -/
theorem SameSide.inRange (h : SameSide 53 v r) (hv : 0 ≤ v) (hrange : InRange v) : InRange r := by
  rcases hrange with hzero | ⟨hlow, y, d, hd, hhigh⟩
  · exact .inl (h.eq_zero hzero)
  · obtain ⟨w, hw, rfl⟩ := exists_natUnits hd ((abs_nonneg v).trans hhigh)
    obtain ⟨k, hpow⟩ := unitsPerOne_eq_two_pow_rat
    rw [abs_of_nonneg hv] at hlow hhigh
    refine .inr ⟨?_, y, _, hd, ?_⟩
    · have hone := (h 1 1022 (fitsBits_two_pow 0 (by decide))).1
      rw [Nat.cast_one] at hone
      rw [abs_of_nonneg (h.nonneg hv)]
      exact hone hlow
    · rw [hpow] at hhigh ⊢
      rw [abs_of_nonneg (h.nonneg hv)]
      exact (h w k hw.2).2 hhigh

/-- Numbers of 54 bits in units. -/
theorem SameSide.units (h : SameSide 54 v r) (m : Nat) (hm : FitsBits 54 m) :
    ((m : Rat) ≤ 2 * (v * unitsPerOne) → (m : Rat) ≤ 2 * (r * unitsPerOne)) ∧
      (2 * (v * unitsPerOne) ≤ (m : Rat) → 2 * (r * unitsPerOne) ≤ (m : Rat)) := by
  obtain ⟨k, hpow⟩ := unitsPerOne_eq_two_pow_rat
  have hscale : ∀ q : Rat, 2 * (q * unitsPerOne) = q * 2 ^ (k + 1) := by
    intro q
    rw [hpow, pow_succ]
    ring
  have hside := h m (k + 1) hm
  rwa [div_le_iff₀ (two_pow_pos _), div_le_iff₀ (two_pow_pos _), le_div_iff₀ (two_pow_pos _),
    le_div_iff₀ (two_pow_pos _), ← hscale, ← hscale] at hside

end

/-- A double that a value `v` became by way of `r`: the nearest one to `r`, and the nearest one to
`v` unless it is overtaken. -/
structure Double.ReachedBy (x : Double) (r v : Rat) : Prop where
  nearest : x.IsNearest r
  nearest_iff : x.IsNearest v ↔ ¬x.Overtaken r v

theorem Double.ReachedBy.neg {x y : Double} {i : Int} {r v : Rat} (h : x.ReachedBy r v)
    (hx : x.units? = some i) (hy : y.units? = some (-i)) : y.ReachedBy (-r) (-v) := by
  have hx' : x.units? = some (- -i) := by rw [hx, Int.neg_neg]
  have hnearest : y.IsNearest (-v) ↔ x.IsNearest v := by
    refine ⟨fun hv => ?_, fun hv => hv.neg hx hy⟩
    have hv' := hv.neg hy hx'
    rwa [neg_neg] at hv'
  have hovertaken : y.Overtaken (-r) (-v) ↔ x.Overtaken r v := by
    refine ⟨fun hv => ?_, fun hv => hv.neg hx hy⟩
    have hv' := hv.neg hy hx'
    rwa [neg_neg, neg_neg] at hv'
  refine ⟨h.nearest.neg hx hy, ?_⟩
  rw [hnearest, hovertaken]
  exact h.nearest_iff

namespace Quantity

open Double

variable {x : Quantity} {v : Rat}

theorem exists_nearestUnits_kept (h0 : 0 ≤ x.kept) (hrange : InRange x.kept) :
    ∃ u : Nat, x.toDouble.units? = some (u : Int) ∧ NearestUnits u (x.kept * unitsPerOne) := by
  refine ⟨_, ?_, exists_nearestUnits hrange h0⟩
  rw [units?_toDouble, units?_ofRat_roundSignificant hrange h0]

/-- A value that was rounded to 53 bits already is not rounded a second time. -/
theorem nearestUnits_of_kept_eq {u : Nat} (hv : 0 ≤ v) (hrange : InRange v)
    (hkept : x.kept = roundSignificant 53 v) (hx : x.toDouble.units? = some (u : Int)) :
    NearestUnits u (v * unitsPerOne) := by
  have hunits := units?_ofRat_roundSignificant hrange hv
  rw [← roundSignificant_roundSignificant (by decide) hv, ← hkept, ← units?_toDouble, hx] at hunits
  rw [Int.natCast_inj.mp (Option.some.inj hunits)]
  exact exists_nearestUnits hrange hv

/-- What is kept of a value in the range becomes its nearest double, whether at least 54 bits are
kept or the 53 that remain in the end. -/
theorem reachedBy_toDouble (hv : 0 ≤ v) (hrange : InRange v)
    (hkept : SameSide 54 v x.kept ∨ x.kept = roundSignificant 53 v) :
    ∃ u : Nat, x.toDouble.units? = some (u : Int) ∧ x.toDouble.ReachedBy x.kept v ∧
      (x.kept = roundSignificant 53 v → x.toDouble.IsNearest v) := by
  have hside : SameSide 53 v x.kept := by
    rcases hkept with h | h
    · exact h.mono (by decide)
    · rw [h]
      exact sameSide_roundSignificant (by decide) hv
  have h0 := hside.nonneg hv
  obtain ⟨u, hx, hu⟩ := exists_nearestUnits_kept h0 (hside.inRange hv hrange)
  have hexact := fun h => nearestUnits_of_kept_eq hv hrange h hx
  rw [isNearest_iff_nearestUnits hv hx]
  refine ⟨u, hx, ⟨(isNearest_iff_nearestUnits h0 hx).mpr hu, ?_⟩, hexact⟩
  rw [isNearest_iff_nearestUnits hv hx, overtaken_iff_units h0 hx hu]
  rcases hkept with h | h
  · exact nearestUnits_iff (fun m hm => h.units m hm) hu ⟨_, exists_nearestUnits hrange hv⟩
  · refine iff_of_true (hexact h) ?_
    rintro ⟨w, hw, -, hlt⟩
    exact absurd ((hexact h).nearest w hw) (not_le.mpr hlt)

/-- A fraction of 53 bits that remains of a value is the value of its double. -/
theorem toRat?_toDouble {k t : Nat} (h : roundSignificant 53 x.kept = k / 2 ^ t)
    (hk : FitsBits 53 k) (ht : t ≤ 178) (hle : (k : Rat) / 2 ^ t ≤ 2 ^ 53) :
    x.toDouble.toRat? = some ((k : Rat) / 2 ^ t) := by
  obtain ⟨j, hj, heq⟩ := exists_units hk ht hle
  rw [toRat?_eq_some_iff, units?_toDouble, h, heq, units?_ofRat hj]
  exact ⟨j, rfl, by rw [Int.cast_natCast]⟩

end Quantity

/-- A double is not nearest where another fraction of 53 bits is nearer. -/
theorem Double.not_isNearest {x : Double} {d v : Rat} {l t : Nat} (hx : x.toRat? = some d)
    (hl : FitsBits 53 l) (ht : t ≤ 178) (hle : (l : Rat) / 2 ^ t ≤ 2 ^ 53)
    (h : |(l : Rat) / 2 ^ t - v| < |d - v|) : ¬x.IsNearest v := by
  rintro ⟨d', hd', hnearest⟩
  obtain rfl : d = d' := Option.some.inj (hx.symm.trans hd')
  obtain ⟨j, hj, heq⟩ := exists_units hl ht hle
  obtain ⟨y, hy⟩ := exists_units?_eq hj
  have hvalue : y.toRat? = some ((l : Rat) / 2 ^ t) := by
    rw [heq, toRat?_eq_some_iff]
    exact ⟨j, hy, by rw [Int.cast_natCast]⟩
  exact absurd (hnearest y _ hvalue).1 (not_le.mpr h)

/-- Normal numbers up to a small whole one are in the range. -/
theorem Double.inRange_of_le {q : Rat} {k l : Nat} (hk : k ≤ 1022) (hlow : 1 / 2 ^ k ≤ |q|)
    (hl : l ≤ Nat.pow 2 53) (hhigh : |q| ≤ l) : Double.InRange q := by
  obtain ⟨y, hy⟩ := exists_units?_eq (representable_ones hl)
  refine .inr ⟨?_, y, l, ?_, hhigh⟩
  · refine (one_div_le_one_div_of_le (two_pow_pos k) ?_).trans hlow
    exact pow_le_pow_right₀ one_le_two hk
  · rw [toRat?_eq_some_iff]
    refine ⟨_, hy, ?_⟩
    rw [Int.cast_natCast, Nat.cast_mul, mul_div_cancel_right₀ _ unitsPerOne_pos_rat.ne']

end GaussJordan
