import GaussJordan.Proofs.ExactArithmetic
import GaussJordan.Proofs.GridRounding
import GaussJordan.Proofs.Overflow

/-!
# GaussJordan.Proofs.DoubleUnits

Binary64 numbers by their exact value, a whole number of units.

* `Double.units?` is that value, if the number is finite. Numbers of one value compare equal
  (`eq_iff`); only the two zeros share theirs.
* An operation is exact if some number has the value that it forms (`units?_add`, `units?_mul`,
  `units?_div`). So zeros and ones behave as in a ring.
* `Complex.HasUnits a i j`: the values of the two parts. With tolerance zero the tests for zero and
  one ask for no more than equality (`isZero_iff_hasUnits`, `isOne_iff_hasUnits`).
* Only one itself has an inverse that compares equal to one (`hasUnits_one_of_inverse`).
-/

namespace GaussJordan

namespace Double

/-! ## The value of a number -/

theorem natAbs_signedUnits (s : Bool) (u : Nat) : (signedUnits s u).natAbs = u := by
  cases s
  · rfl
  · exact Int.natAbs_neg u

theorem signedUnits_natAbs (i : Int) : signedUnits (decide (i < 0)) i.natAbs = i := by
  rw [signedUnits]
  split
  · rename_i h
    have hneg : i < 0 := of_decide_eq_true h
    omega
  · rename_i h
    have hpos : ¬i < 0 := fun hneg => h (decide_eq_true hneg)
    omega

theorem signedUnits_mul (s t : Bool) (a b : Nat) :
    signedUnits (s ^^ t) (a * b) = signedUnits s a * signedUnits t b := by
  cases s <;> cases t <;> simp [signedUnits]

theorem signedUnits_mul_natCast (s : Bool) (a b : Nat) :
    signedUnits s (a * b) = signedUnits s a * b := by
  cases s <;> simp [signedUnits]

/-- The exact value of a finite number in units. -/
def units? : Double → Option Int
  | .finite s u _ => some (signedUnits s u)
  | _ => none

variable {x y tol : Double} {i j k : Int}

theorem units?_zero : zero.units? = some 0 := rfl

theorem units?_one : one.units? = some unitsPerOne := rfl

theorem units?_signedZero (s : Bool) : (signedZero s).units? = some 0 := by
  cases s <;> rfl

theorem isFinite_iff : x.isFinite = true ↔ ∃ i, x.units? = some i := by
  cases x <;> simp [isFinite, units?]

theorem representable_of_units? (h : x.units? = some i) : Representable i.natAbs := by
  cases x with
  | finite s u hu =>
    cases h
    rwa [natAbs_signedUnits]
  | infinite s => cases h
  | nan => cases h

/-- Numbers compare equal exactly if they have one value. -/
theorem eq_iff (hy : y.units? = some j) : x.eq y = true ↔ x.units? = some j := by
  cases y with
  | finite t b hb =>
    cases hy
    cases x <;> simp [eq, units?]
  | infinite t => cases hy
  | nan => cases hy

theorem units?_ofUnits {s : Bool} {num den u : Nat} (h : roundToBits 53 num den = u)
    (hu : u < unitsLimit) : (ofUnits s num den).units? = some (signedUnits s u) := by
  subst h
  simp only [ofUnits, dif_pos hu]
  rfl

/-- A value that some number has is not rounded. -/
theorem units?_ofUnits_of_mul {s : Bool} {den u : Nat} (hd : 0 < den) (hu : Representable u) :
    (ofUnits s (u * den) den).units? = some (signedUnits s u) :=
  units?_ofUnits (roundToBits_of_mul hd hu.2) hu.1

theorem unitsPerOne_eq_two_pow : ∃ k, 53 ≤ k ∧ unitsPerOne = Nat.pow 2 k := by
  have hle : 53 ≤ 1074 := by decide
  unfold unitsPerOne
  generalize 1074 = k at hle ⊢
  exact ⟨k, hle, rfl⟩

theorem units?_neg (hx : x.units? = some i) : x.neg.units? = some (-i) := by
  cases x with
  | finite s u hu =>
    cases hx
    cases s <;> simp [neg, units?, signedUnits]
  | infinite s => cases hx
  | nan => cases hx

theorem units?_add (hx : x.units? = some i) (hy : y.units? = some j)
    (h : Representable (i + j).natAbs) : (x.add y).units? = some (i + j) := by
  cases x with
  | finite s a ha =>
    cases y with
    | finite t b hb =>
      cases hx
      cases hy
      simp only [add]
      split
      · rename_i hsum
        rw [units?_signedZero, hsum]
      · have hexact := units?_ofUnits_of_mul
          (s := decide (signedUnits s a + signedUnits t b < 0)) Nat.one_pos h
        rwa [Nat.mul_one, signedUnits_natAbs] at hexact
    | infinite t => cases hy
    | nan => cases hy
  | infinite s => cases hx
  | nan => cases hx

theorem units?_add_zero (hx : x.units? = some i) (hy : y.units? = some 0) :
    (x.add y).units? = some i := by
  have h := units?_add hx hy
  rw [Int.add_zero] at h
  exact h (representable_of_units? hx)

theorem units?_zero_add (hx : x.units? = some 0) (hy : y.units? = some j) :
    (x.add y).units? = some j := by
  have h := units?_add hx hy
  rw [Int.zero_add] at h
  exact h (representable_of_units? hy)

theorem units?_sub_zero (hx : x.units? = some i) (hy : y.units? = some 0) :
    (x.sub y).units? = some i :=
  units?_add_zero hx (units?_neg hy)

theorem units?_zero_sub (hx : x.units? = some 0) (hy : y.units? = some j) :
    (x.sub y).units? = some (-j) :=
  units?_zero_add hx (units?_neg hy)

theorem units?_mul (hx : x.units? = some i) (hy : y.units? = some j)
    (hk : Representable k.natAbs) (h : i * j = k * unitsPerOne) :
    (x.mul y).units? = some k := by
  have hone : (unitsPerOne : Int) ≠ 0 := Int.natCast_ne_zero.mpr (Nat.ne_of_gt unitsPerOne_pos)
  cases x with
  | finite s a ha =>
    cases y with
    | finite t b hb =>
      cases hx
      cases hy
      have hsize : a * b = k.natAbs * unitsPerOne := by
        have habs := congrArg Int.natAbs h
        simpa only [Int.natAbs_mul, natAbs_signedUnits, Int.natAbs_natCast] using habs
      have hsign : signedUnits (s ^^ t) k.natAbs = k := by
        refine Int.eq_of_mul_eq_mul_right hone ?_
        rw [← h, ← signedUnits_mul, hsize]
        exact (signedUnits_mul_natCast _ _ _).symm
      rw [mul, hsize, units?_ofUnits_of_mul unitsPerOne_pos hk, hsign]
    | infinite t => cases hy
    | nan => cases hy
  | infinite s => cases hx
  | nan => cases hx

theorem units?_mul_zero (hx : x.units? = some i) (hy : y.units? = some 0) :
    (x.mul y).units? = some 0 :=
  units?_mul hx hy representable_zero (by rw [Int.mul_zero, Int.zero_mul])

theorem units?_zero_mul (hx : x.units? = some 0) (hy : y.units? = some j) :
    (x.mul y).units? = some 0 :=
  units?_mul hx hy representable_zero (by rw [Int.zero_mul, Int.zero_mul])

theorem units?_mul_one (hx : x.units? = some i) (hy : y.units? = some unitsPerOne) :
    (x.mul y).units? = some i :=
  units?_mul hx hy (representable_of_units? hx) rfl

theorem units?_one_mul (hx : x.units? = some unitsPerOne) (hy : y.units? = some j) :
    (x.mul y).units? = some j :=
  units?_mul hx hy (representable_of_units? hy) (Int.mul_comm _ _)

theorem units?_div (hx : x.units? = some i) (hy : y.units? = some j) (hj : j ≠ 0)
    (hk : Representable k.natAbs) (h : i * unitsPerOne = k * j) : (x.div y).units? = some k := by
  cases x with
  | finite s a ha =>
    cases y with
    | finite t b hb =>
      cases hx
      cases hy
      have hb : b ≠ 0 := by
        rintro rfl
        cases t <;> exact hj rfl
      have hsize : a * unitsPerOne = k.natAbs * b := by
        have habs := congrArg Int.natAbs h
        simpa only [Int.natAbs_mul, natAbs_signedUnits, Int.natAbs_natCast] using habs
      have hsign : signedUnits (s ^^ t) k.natAbs = k := by
        refine Int.eq_of_mul_eq_mul_right hj ?_
        rw [← h, ← signedUnits_mul, Bool.xor_assoc, Bool.xor_self, Bool.xor_false, ← hsize]
        exact signedUnits_mul_natCast _ _ _
      rw [div, if_neg hb, hsize, units?_ofUnits_of_mul (Nat.pos_of_ne_zero hb) hk, hsign]
    | infinite t => cases hy
    | nan => cases hy
  | infinite s => cases hx
  | nan => cases hx

theorem units?_div_one (hx : x.units? = some i) (hy : y.units? = some unitsPerOne) :
    (x.div y).units? = some i := by
  refine units?_div hx hy ?_ (representable_of_units? hx) rfl
  exact Int.natCast_ne_zero.mpr (Nat.ne_of_gt unitsPerOne_pos)

/-- A sum is rounded to zero only if it is zero. -/
theorem units?_add_eq_zero (hx : x.units? = some i) (hy : y.units? = some j)
    (h : (x.add y).units? = some 0) : i + j = 0 := by
  cases x with
  | finite s a ha =>
    cases y with
    | finite t b hb =>
      cases hx
      cases hy
      simp only [add] at h
      split at h
      · assumption
      · rw [← eq_iff units?_zero, ofUnits_eq_zero_iff Nat.one_pos] at h
        omega
    | infinite t => cases hy
    | nan => cases hy
  | infinite s => cases hx
  | nan => cases hx

/-! ## Rounded operations -/

theorem units?_of_isFinite_ofUnits {s : Bool} {num den : Nat}
    (h : (ofUnits s num den).isFinite = true) :
    (ofUnits s num den).units? = some (signedUnits s (roundToBits 53 num den)) := by
  by_cases hlimit : roundToBits 53 num den < unitsLimit
  · exact units?_ofUnits rfl hlimit
  · simp only [ofUnits, dif_neg hlimit] at h
    cases h

theorem units?_mul_self (hx : x.units? = some i) (h : (x.mul x).isFinite = true) :
    (x.mul x).units? = some (roundToBits 53 (i.natAbs * i.natAbs) unitsPerOne : Nat) := by
  cases x with
  | finite s a ha =>
    cases hx
    rw [mul, Bool.xor_self] at h ⊢
    rw [units?_of_isFinite_ofUnits h, natAbs_signedUnits]
    rfl
  | infinite s => cases hx
  | nan => cases hx

theorem units?_add_natCast {a b : Nat} (hx : x.units? = some (a : Int))
    (hy : y.units? = some (b : Int)) (h : (x.add y).isFinite = true) :
    (x.add y).units? = some (roundToBits 53 (a + b) 1 : Nat) := by
  cases x with
  | finite s u hu =>
    cases y with
    | finite t v hv =>
      have ha : signedUnits s u = a := Option.some.inj hx
      have hb : signedUnits t v = b := Option.some.inj hy
      simp only [add, ha, hb] at h ⊢
      split at h
      · rename_i hsum
        rw [if_pos hsum, units?_signedZero, show a + b = 0 by omega, roundToBits_of_fits ⟨0, rfl⟩]
        rfl
      · rename_i hsum
        have hsign : decide ((a : Int) + b < 0) = false := decide_eq_false (by omega)
        rw [if_neg hsum, units?_of_isFinite_ofUnits h, hsign]
        rfl
    | infinite t => cases hy
    | nan => cases hy
  | infinite s => cases hx
  | nan => cases hx

/-- A quotient that is finite and not zero has finite operands. -/
theorem units?_of_div (h : (x.div y).units? = some k) (hk : k ≠ 0) :
    ∃ i j, x.units? = some i ∧ y.units? = some j := by
  cases x with
  | finite s a ha =>
    cases y with
    | finite t b hb => exact ⟨_, _, rfl, rfl⟩
    | infinite t =>
      rw [div, units?_signedZero] at h
      exact absurd (Option.some.inj h).symm hk
    | nan => cases h
  | infinite s => cases y <;> cases h
  | nan => cases h

theorem units?_div_natCast {b : Nat} (hx : x.units? = some i) (hy : y.units? = some (b : Int))
    (hb : 0 < b) (h : (x.div y).units? = some k) :
    k = signedUnits (decide (i < 0)) (roundToBits 53 (i.natAbs * unitsPerOne) b) := by
  cases x with
  | finite s u hu =>
    cases y with
    | finite t v hv =>
      have hv : signedUnits t v = b := Option.some.inj hy
      obtain ⟨rfl, rfl⟩ : t = false ∧ v = b := by
        cases t <;> simp [signedUnits] at hv ⊢ <;> omega
      cases hx
      rw [div, if_neg (Nat.ne_of_gt hb), Bool.xor_false] at h
      have hround := units?_of_isFinite_ofUnits (isFinite_iff.mpr ⟨k, h⟩)
      rw [h] at hround
      rw [Option.some.inj hround, natAbs_signedUnits]
      -- the sign of a zero does not matter
      rcases Nat.eq_zero_or_pos u with rfl | hu
      · have hzero : roundToBits 53 (0 * unitsPerOne) v = 0 := by
          rw [Nat.zero_mul, roundToBits_eq_zero_iff (by decide) hb]
          exact Nat.zero_le v
        rw [hzero]
        cases s <;> rfl
      · cases s <;> simp [signedUnits, hu]
    | infinite t => cases hy
    | nan => cases hy
  | infinite s => cases hx
  | nan => cases hx

/-! ## Tolerance zero -/

theorem within_zero_iff (htol : tol.units? = some 0) :
    le x.abs tol = true ↔ x.units? = some 0 := by
  cases tol with
  | finite t b hb =>
    have hzero : signedUnits t b = 0 := Option.some.inj htol
    cases x with
    | finite s a ha =>
      simp only [le, lt, eq, abs, units?, hzero]
      cases s <;> simp [signedUnits]
    | infinite s => simp [le, lt, eq, abs, units?]
    | nan => simp [le, lt, eq, abs, units?]
  | infinite t => cases htol
  | nan => cases htol

theorem abs_eq_abs (hx : x.units? = some i) (hy : y.units? = some j) (h : i.natAbs = j.natAbs) :
    x.abs = y.abs := by
  cases x with
  | finite s a ha =>
    cases y with
    | finite t b hb =>
      cases hx
      cases hy
      rw [natAbs_signedUnits, natAbs_signedUnits] at h
      subst h
      rfl
    | infinite t => cases hy
    | nan => cases hy
  | infinite s => cases hx
  | nan => cases hx

theorem within_of_zero (htol : lt .zero tol = true) (hx : x.units? = some 0) :
    le x.abs tol = true := by
  have hzero : x.abs = zero := abs_eq_abs hx units?_zero rfl
  rw [hzero, le, htol, Bool.true_or]

end Double

/-! ## Complex values -/

namespace Complex

open Double (units?_zero units?_one)

variable {a b f q : Complex Double} {tol : Double} {i j k l : Int}

/-- The parts are finite numbers of the given values. -/
structure HasUnits (a : Complex Double) (i j : Int) : Prop where
  re : a.re.units? = some i
  im : a.im.units? = some j

theorem hasUnits_zero : (zero : Complex Double).HasUnits 0 0 := ⟨rfl, rfl⟩

theorem hasUnits_one : (one : Complex Double).HasUnits unitsPerOne 0 := ⟨rfl, rfl⟩

theorem eq_iff (hb : b.HasUnits i j) : a.eq b = true ↔ a.HasUnits i j := by
  rw [eq, Bool.and_eq_true]
  change a.re.eq b.re = true ∧ a.im.eq b.im = true ↔ _
  rw [Double.eq_iff hb.re, Double.eq_iff hb.im]
  exact ⟨fun h => ⟨h.1, h.2⟩, fun h => ⟨h.re, h.im⟩⟩

theorem eq_zero_iff : a.eq .zero = true ↔ a.HasUnits 0 0 := eq_iff hasUnits_zero

theorem eq_one_iff : a.eq .one = true ↔ a.HasUnits unitsPerOne 0 := eq_iff hasUnits_one

theorem isFinite_iff : a.IsFinite ↔ ∃ i j, a.HasUnits i j := by
  constructor
  · intro h
    obtain ⟨i, hi⟩ := Double.isFinite_iff.mp h.re
    obtain ⟨j, hj⟩ := Double.isFinite_iff.mp h.im
    exact ⟨i, j, hi, hj⟩
  · rintro ⟨i, j, h⟩
    exact ⟨Double.isFinite_iff.mpr ⟨i, h.re⟩, Double.isFinite_iff.mpr ⟨j, h.im⟩⟩

theorem HasUnits.isFinite (h : a.HasUnits i j) : a.IsFinite := isFinite_iff.mpr ⟨i, j, h⟩

theorem HasUnits.neg (h : a.HasUnits i j) : (-a).HasUnits (-i) (-j) :=
  ⟨Double.units?_neg h.re, Double.units?_neg h.im⟩

theorem HasUnits.add_zero (ha : a.HasUnits i j) (hb : b.HasUnits 0 0) : (a + b).HasUnits i j :=
  ⟨Double.units?_add_zero ha.re hb.re, Double.units?_add_zero ha.im hb.im⟩

theorem HasUnits.zero_mul (ha : a.HasUnits 0 0) (hb : b.IsFinite) : (a * b).HasUnits 0 0 := by
  obtain ⟨k, l, hb⟩ := isFinite_iff.mp hb
  constructor
  · exact Double.units?_sub_zero (Double.units?_zero_mul ha.re hb.re)
      (Double.units?_zero_mul ha.im hb.im)
  · exact Double.units?_add_zero (Double.units?_zero_mul ha.re hb.im)
      (Double.units?_zero_mul ha.im hb.re)

/-- Zeros are cleared by adding a multiple of zeros. -/
theorem HasUnits.add_zero_mul (ha : a.HasUnits i j) (hb : b.HasUnits 0 0) (hf : f.IsFinite) :
    (a + b * f).HasUnits i j :=
  ha.add_zero (hb.zero_mul hf)

/-! ## Division by one -/

theorem square_of_units {x : Double} (hx : x.units? = some i) (hi : i = 0 ∨ i = unitsPerOne) :
    x.square = .ok (x.mul x) ∧ (x.mul x).units? = some i := by
  have hmul : (x.mul x).units? = some i := by
    rcases hi with rfl | rfl
    · exact Double.units?_mul_zero hx hx
    · exact Double.units?_mul_one hx hx
  refine ⟨?_, hmul⟩
  have hinf : (x.mul x).isInfinite = false := by
    cases h : x.mul x with
    | finite s u hu => rfl
    | infinite s =>
      rw [h] at hmul
      cases hmul
    | nan => rfl
  simp only [Double.square, hinf, Bool.and_false]
  rfl

/-- A quotient by one is the dividend. -/
theorem HasUnits.div_one (ha : a.HasUnits i j) (hb : b.HasUnits unitsPerOne 0) :
    ∃ q, a.div b = .ok q ∧ q.HasUnits i j := by
  obtain ⟨hre, hreUnits⟩ := square_of_units hb.re (.inr rfl)
  obtain ⟨him, himUnits⟩ := square_of_units hb.im (.inl rfl)
  have hsize : ((b.re.mul b.re).add (b.im.mul b.im)).units? = some unitsPerOne :=
    Double.units?_add_zero hreUnits himUnits
  have hnonzero : ((b.re.mul b.re).add (b.im.mul b.im)).eq .zero = false := by
    rw [← Bool.not_eq_true, Double.eq_iff units?_zero, hsize]
    intro h
    exact Nat.ne_of_gt Double.unitsPerOne_pos (Int.ofNat.inj (Option.some.inj h))
  refine ⟨_, div_eq_ok_iff.mpr ⟨_, _, hre, him, hnonzero, rfl⟩, ?_⟩
  constructor
  · refine Double.units?_div_one (Double.units?_add_zero ?_ ?_) hsize
    · exact Double.units?_mul_one ha.re hb.re
    · exact Double.units?_mul_zero ha.im hb.im
  · refine Double.units?_div_one (Double.units?_sub_zero ?_ ?_) hsize
    · exact Double.units?_mul_one ha.im hb.re
    · exact Double.units?_mul_zero ha.re hb.im

theorem HasUnits.of_div_one (ha : a.HasUnits i j) (hb : b.HasUnits unitsPerOne 0)
    (h : a.div b = .ok q) : q.HasUnits i j := by
  obtain ⟨q', hq', hunits⟩ := ha.div_one hb
  cases h.symm.trans hq'
  exact hunits

theorem HasUnits.inverse_one (ha : a.HasUnits unitsPerOne 0) :
    ∃ f, a.inverse = .ok f ∧ f.HasUnits unitsPerOne 0 := by
  have hnonzero : (Scalar.eq a.re Scalar.zero && Scalar.eq a.im Scalar.zero) = false := by
    rw [Bool.and_eq_false_iff]
    left
    change a.re.eq .zero = false
    rw [← Bool.not_eq_true, Double.eq_iff units?_zero, ha.re]
    intro h
    exact Nat.ne_of_gt Double.unitsPerOne_pos (Int.ofNat.inj (Option.some.inj h))
  rw [inverse, if_neg (by rw [hnonzero]; exact Bool.false_ne_true)]
  exact hasUnits_one.div_one ha

/-- The rounded sum of the squares of the parts, which an inverse is formed over. -/
def squaredSize (a : Complex Double) : Double := (a.re.mul a.re).add (a.im.mul a.im)

theorem inverse_eq (h : a.inverse = .ok f) :
    a.squaredSize.eq .zero = false ∧
      f = ⟨((Double.one.mul a.re).add (Double.zero.mul a.im)).div a.squaredSize,
        ((Double.zero.mul a.re).sub (Double.one.mul a.im)).div a.squaredSize⟩ := by
  rw [inverse] at h
  split at h
  · cases h
  obtain ⟨x, y, hx, hy, hsize, rfl⟩ := div_eq_ok_iff.mp h
  obtain rfl := Double.square_ok hx
  obtain rfl := Double.square_ok hy
  exact ⟨hsize, rfl⟩

/-- The parts of an inverse are rounded quotients by one number: the rounded sum of the rounded
squares. -/
theorem units_of_inverse_of_isFinite {k l : Int} (h : a.inverse = .ok f)
    (hfinite : a.squaredSize.isFinite = true) (hf : f.HasUnits k l) :
    ∃ (i j : Int) (q : Nat), a.HasUnits i j ∧ 0 < q ∧
      q = roundToBits 53 (roundToBits 53 (i.natAbs * i.natAbs) unitsPerOne +
        roundToBits 53 (j.natAbs * j.natAbs) unitsPerOne) 1 ∧
      k = Double.signedUnits (decide (i < 0)) (roundToBits 53 (i.natAbs * unitsPerOne) q) ∧
      l = Double.signedUnits (decide (-j < 0)) (roundToBits 53 (j.natAbs * unitsPerOne) q) := by
  obtain ⟨hsize, rfl⟩ := inverse_eq h
  rw [squaredSize] at hfinite hsize hf
  obtain ⟨hre, him⟩ := hf
  -- every number that was met is finite
  obtain ⟨hreSquare, himSquare⟩ := Double.isFinite_of_add hfinite
  obtain ⟨i, hi⟩ := Double.isFinite_iff.mp (Double.isFinite_of_mul hreSquare).1
  obtain ⟨j, hj⟩ := Double.isFinite_iff.mp (Double.isFinite_of_mul himSquare).1
  have hq := Double.units?_add_natCast (Double.units?_mul_self hi hreSquare)
    (Double.units?_mul_self hj himSquare) hfinite
  generalize hqdef : roundToBits 53 (roundToBits 53 (i.natAbs * i.natAbs) unitsPerOne +
    roundToBits 53 (j.natAbs * j.natAbs) unitsPerOne) 1 = q at hq
  have hqpos : 0 < q := by
    refine Nat.pos_of_ne_zero fun hzero => ?_
    rw [← Bool.not_eq_true, Double.eq_iff units?_zero, hq, hzero] at hsize
    exact hsize rfl
  have hreal := Double.units?_div_natCast
    (Double.units?_add_zero (Double.units?_one_mul units?_one hi)
      (Double.units?_zero_mul units?_zero hj)) hq hqpos hre
  have himag := Double.units?_div_natCast
    (Double.units?_zero_sub (Double.units?_zero_mul units?_zero hi)
      (Double.units?_one_mul units?_one hj)) hq hqpos him
  rw [Int.natAbs_neg] at himag
  exact ⟨i, j, q, ⟨hi, hj⟩, hqpos, hqdef.symm, hreal, himag⟩

/-- If the real part of an inverse is not zero, all that it was formed from is finite. -/
theorem units_of_inverse {k l : Int} (h : a.inverse = .ok f) (hf : f.HasUnits k l) (hk : k ≠ 0) :
    ∃ (i j : Int) (q : Nat), a.HasUnits i j ∧ 0 < q ∧
      q = roundToBits 53 (roundToBits 53 (i.natAbs * i.natAbs) unitsPerOne +
        roundToBits 53 (j.natAbs * j.natAbs) unitsPerOne) 1 ∧
      k = Double.signedUnits (decide (i < 0)) (roundToBits 53 (i.natAbs * unitsPerOne) q) ∧
      l = Double.signedUnits (decide (-j < 0)) (roundToBits 53 (j.natAbs * unitsPerOne) q) := by
  obtain ⟨_, rfl⟩ := inverse_eq h
  obtain ⟨_, _, _, hden⟩ := Double.units?_of_div hf.re hk
  exact units_of_inverse_of_isFinite h (Double.isFinite_iff.mpr ⟨_, hden⟩) hf

/-- Only one has an inverse that compares equal to one. -/
theorem hasUnits_one_of_inverse (h : a.inverse = .ok f) (hf : f.HasUnits unitsPerOne 0) :
    a.HasUnits unitsPerOne 0 := by
  have hone : (unitsPerOne : Int) ≠ 0 :=
    Int.natCast_ne_zero.mpr (Nat.ne_of_gt Double.unitsPerOne_pos)
  obtain ⟨i, j, q, ha, hqpos, hq, hreal, himag⟩ := units_of_inverse h hf hone
  have hreal' := congrArg Int.natAbs hreal
  have himag' := congrArg Int.natAbs himag
  rw [Double.natAbs_signedUnits, Int.natAbs_natCast] at hreal'
  rw [Double.natAbs_signedUnits, Int.natAbs_zero] at himag'
  obtain ⟨hi, hj⟩ : i.natAbs = unitsPerOne ∧ j.natAbs = 0 := by
    have himag'' := (roundToBits_eq_zero_iff (by decide) hqpos).mp himag'.symm
    obtain ⟨k, hk, hpow⟩ := Double.unitsPerOne_eq_two_pow
    rw [hpow] at hq hreal' himag'' ⊢
    exact one_of_inverse_parts (by decide) hk (Double.representable_of_units? ha.re).2 hq hqpos
      hreal'.symm himag''
  have hsign : i = unitsPerOne := by
    rcases Int.natAbs_eq i with hpos | hneg
    · rw [hpos, hi]
    · exfalso
      have hi0 : i < 0 := by
        rw [hneg, hi]
        exact Int.neg_neg_of_pos (Int.natCast_pos.mpr Double.unitsPerOne_pos)
      rw [decide_eq_true hi0] at hreal
      rw [Double.signedUnits, if_pos rfl] at hreal
      have hpos := Double.unitsPerOne_pos
      omega
  have hzero : j = 0 := Int.natAbs_eq_zero.mp hj
  subst hsign hzero
  exact ha

theorem isZero_of_hasUnits (htol : Double.lt .zero tol = true) (ha : a.HasUnits 0 0) :
    a.isZero tol = true :=
  Bool.and_eq_true_iff.mpr
    ⟨Double.within_of_zero htol ha.re, Double.within_of_zero htol ha.im⟩

/-- A value is as near to zero as its negation. -/
theorem isZero_of_neg (ha : a.HasUnits i j) (hb : b.HasUnits i j) (h : (-b).isZero tol = true) :
    a.isZero tol = true := by
  have hre : a.re.abs = (-b).re.abs := Double.abs_eq_abs ha.re hb.neg.re (Int.natAbs_neg i).symm
  have him : a.im.abs = (-b).im.abs := Double.abs_eq_abs ha.im hb.neg.im (Int.natAbs_neg j).symm
  rw [← h, isZero, isZero]
  change (Double.le a.re.abs tol && Double.le a.im.abs tol) = _
  rw [hre, him]
  rfl

theorem isZero_iff_hasUnits (htol : tol.units? = some 0) :
    a.isZero tol = true ↔ a.HasUnits 0 0 := by
  rw [isZero, Bool.and_eq_true]
  change Double.le a.re.abs tol = true ∧ Double.le a.im.abs tol = true ↔ _
  rw [Double.within_zero_iff htol, Double.within_zero_iff htol]
  exact ⟨fun h => ⟨h.1, h.2⟩, fun h => ⟨h.re, h.im⟩⟩

theorem isOne_iff_hasUnits (htol : tol.units? = some 0) :
    a.isOne tol = true ↔ a.HasUnits unitsPerOne 0 := by
  rw [isOne, Bool.and_eq_true]
  change Double.le (a.re.sub .one).abs tol = true ∧ Double.le a.im.abs tol = true ↔ _
  rw [Double.within_zero_iff htol, Double.within_zero_iff htol]
  constructor
  · rintro ⟨hre, him⟩
    obtain ⟨hfinite, _⟩ := Double.isFinite_of_sub (Double.isFinite_iff.mpr ⟨_, hre⟩)
    obtain ⟨i, hi⟩ := Double.isFinite_iff.mp hfinite
    have hsum := Double.units?_add_eq_zero hi (Double.units?_neg units?_one) hre
    obtain rfl : i = unitsPerOne := by omega
    exact ⟨hi, him⟩
  · intro h
    refine ⟨?_, h.im⟩
    have hsum := Double.units?_add h.re (Double.units?_neg units?_one)
    rw [Int.add_right_neg] at hsum
    exact hsum Double.representable_zero

end Complex

end GaussJordan
