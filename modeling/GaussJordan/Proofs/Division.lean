import GaussJordan.Proofs.SignificantBits

/-!
# GaussJordan.Proofs.Division

When a division of complex values fails. It fails with the sum of the squares of the divisor's
parts: if a square is beyond the finite numbers, or if both are so small that they are rounded to
zero.

* `Double.isInfinite_mul_self_iff`: a square is beyond the finite numbers for a magnitude from
  `2 ^ 512` on, the root of their limit. `Double.mul_self_eq_zero_iff`: it is rounded to zero if it
  is no more than half a unit.
* `Complex.div_outcome`: which divisors fail in the one way or the other.
* `Complex.div_fails`: the bounds on the divisor, and the same for the inverse.
-/

namespace GaussJordan

variable {p : Nat}

/-- A square stays below an even power of two exactly if the root does. -/
theorem roundToBits_mul_self_lt_iff {m k u : Nat} (hp : 0 < p) (hu : FitsBits p u) :
    roundToBits p (u * u) (Nat.pow 2 k) < Nat.pow 2 (m + (m + k)) ↔ u < Nat.pow 2 (m + k) := by
  have hk : 0 < Nat.pow 2 k := Nat.two_pow_pos k
  have hsplit : Nat.pow 2 (m + k) = Nat.pow 2 m * Nat.pow 2 k := Nat.pow_add 2 m k
  have hlimit : Nat.pow 2 (m + (m + k)) = Nat.pow 2 m * Nat.pow 2 (m + k) := Nat.pow_add 2 m _
  constructor
  · intro h
    by_contra hge
    have hsquare := Nat.mul_self_le_mul_self (Nat.le_of_not_lt hge)
    have hle : Nat.pow 2 (m + (m + k)) ≤ roundToBits p (u * u) (Nat.pow 2 k) := by
      refine le_roundToBits hp hk (fitsBits_two_pow _ hp) (le_trans (le_of_eq ?_) hsquare)
      rw [hlimit, hsplit]
      ring
    omega
  · intro h
    -- the square is below the multiple of the root by the other power
    have hle : roundToBits p (u * u) (Nat.pow 2 k) ≤ u * Nat.pow 2 m := by
      refine roundToBits_le hp hk ((fitsBits_mul_two_pow_iff m hp).mpr hu) ?_
      rw [Nat.mul_assoc, ← hsplit]
      exact Nat.mul_le_mul_left u (Nat.le_of_lt h)
    rw [hlimit, Nat.mul_comm (Nat.pow 2 m)]
    exact Nat.lt_of_le_of_lt hle (Nat.mul_lt_mul_of_pos_right h (Nat.two_pow_pos m))

/-! ## Squares -/

namespace Double

variable {x : Double} {q : Rat}

theorem units_eq_two_pow :
    ∃ k, unitsPerOne = 2 ^ k ∧ unitsLimit = 2 ^ (512 + (512 + k)) ∧
      (2 : Rat) ^ 1075 = 2 ^ (k + 1) := by
  have hlimit : 2098 = 512 + (512 + 1074) := rfl
  have hhalf : 1075 = 1074 + 1 := rfl
  unfold unitsPerOne unitsLimit
  rw [hlimit, hhalf]
  generalize 1074 = k
  exact ⟨k, rfl, rfl, rfl⟩

theorem isInfinite_ofUnits_iff {s : Bool} {num den : Nat} :
    (ofUnits s num den).isInfinite = true ↔ unitsLimit ≤ roundToBits 53 num den := by
  rw [← Nat.not_lt]
  simp only [ofUnits]
  split
  · rename_i h
    exact iff_of_false (fun hinfinite => by cases hinfinite) (not_not_intro h)
  · rename_i h
    exact iff_of_true rfl h

theorem abs_value (s : Bool) (u : Nat) :
    |(signedUnits s u : Rat) / unitsPerOne| = (u : Rat) / unitsPerOne := by
  rw [abs_div, Nat.abs_cast, ← Int.cast_abs, ← Nat.cast_natAbs, natAbs_signedUnits]

/-- The square of a finite number is not finite from the root of the limit on. -/
theorem isInfinite_mul_self_iff (hq : x.toRat? = some q) :
    (x.mul x).isInfinite = true ↔ 2 ^ 512 ≤ |q| := by
  obtain ⟨i, hx, rfl⟩ := toRat?_eq_some_iff.mp hq
  obtain ⟨k, hone, hlimit, -⟩ := units_eq_two_pow
  cases x with
  | finite s u hu =>
    cases hx
    generalize 512 = m at hlimit ⊢
    have hroot : (2 : Rat) ^ m ≤ (u : Rat) / unitsPerOne ↔ 2 ^ (m + k) ≤ u := by
      rw [le_div_iff₀ (Nat.cast_pos.mpr unitsPerOne_pos), hone, ← @Nat.cast_le Rat, pow_add,
        Nat.cast_mul, Nat.cast_pow, Nat.cast_pow, Nat.cast_ofNat]
    rw [mul, isInfinite_ofUnits_iff, abs_value, hroot, ← Nat.not_lt, ← Nat.not_lt, hone, hlimit]
    exact not_congr (roundToBits_mul_self_lt_iff (by decide) hu.2)
  | infinite s => cases hx
  | nan => cases hx

/-- The square of a finite number is rounded to zero up to half a unit. -/
theorem mul_self_eq_zero_iff (hq : x.toRat? = some q) :
    (x.mul x).eq zero = true ↔ q ^ 2 ≤ 1 / 2 ^ 1075 := by
  obtain ⟨i, hx, rfl⟩ := toRat?_eq_some_iff.mp hq
  obtain ⟨k, hone, -, hhalf⟩ := units_eq_two_pow
  cases x with
  | finite s u hu =>
    cases hx
    have hpos : (0 : Rat) < 2 ^ k := by positivity
    rw [mul, ofUnits_eq_zero_iff unitsPerOne_pos, ← sq_abs, abs_value, hhalf, hone, Nat.cast_pow,
      Nat.cast_ofNat, div_pow, div_le_div_iff₀ (by positivity) (by positivity), one_mul]
    calc 2 * (u * u) ≤ 2 ^ k ↔ (2 * (u * u) : Rat) ≤ 2 ^ k := by exact_mod_cast Iff.rfl
      _ ↔ (2 * (u * u) : Rat) * 2 ^ k ≤ 2 ^ k * 2 ^ k := (mul_le_mul_iff_left₀ hpos).symm
      _ ↔ (u : Rat) ^ 2 * 2 ^ (k + 1) ≤ (2 ^ k) ^ 2 := by
        rw [show (u : Rat) ^ 2 * 2 ^ (k + 1) = 2 * (u * u) * 2 ^ k by ring, sq]
  | infinite s => cases hx
  | nan => cases hx

theorem square_of_overflows (h : x.SquareOverflows) : x.square = .error .squareOverflow :=
  if_pos (Bool.and_eq_true_iff.mpr h)

theorem square_of_not_overflows (h : ¬x.SquareOverflows) : x.square = .ok (x.mul x) :=
  if_neg fun hover => h (Bool.and_eq_true_iff.mp hover)

theorem squareOverflows_iff (hq : x.toRat? = some q) : x.SquareOverflows ↔ 2 ^ 512 ≤ |q| := by
  obtain ⟨i, hx, -⟩ := toRat?_eq_some_iff.mp hq
  rw [SquareOverflows, isInfinite_mul_self_iff hq]
  exact and_iff_right (isFinite_iff.mpr ⟨i, hx⟩)

theorem not_squareOverflows_of_eq_zero (h : (x.mul x).eq zero = true) : ¬x.SquareOverflows := by
  rintro ⟨-, hinfinite⟩
  have hfinite := isFinite_of_eq_zero h
  cases hsquare : x.mul x with
  | finite s u hu =>
    rw [hsquare] at hinfinite
    cases hinfinite
  | infinite s =>
    rw [hsquare] at hfinite
    cases hfinite
  | nan =>
    rw [hsquare] at hfinite
    cases hfinite

theorem add_eq_zero {y z : Double} (hy : y.eq zero = true) (hz : z.eq zero = true) :
    (y.add z).eq zero = true := by
  rw [eq_iff units?_zero] at hy hz ⊢
  exact units?_add_zero hy hz

end Double

/-! ## Quotients -/

namespace Complex

variable {a b : Complex Double} {p q : Rat}

/-- The squares of both parts are rounded to zero. -/
def SquaresVanish (a : Complex Double) : Prop :=
  (a.re.mul a.re).eq .zero = true ∧ (a.im.mul a.im).eq .zero = true

theorem not_squareOverflows_of_vanish (h : b.SquaresVanish) : ¬b.SquareOverflows := by
  rintro (hre | him)
  · exact Double.not_squareOverflows_of_eq_zero h.1 hre
  · exact Double.not_squareOverflows_of_eq_zero h.2 him

/-- What a division comes to, by its divisor. -/
inductive Division (a b : Complex Double) : Except Fault (Complex Double) → Prop where
  | overflow : b.SquareOverflows → Division a b (.error .squareOverflow)
  | zero {t : String} : b.SquaresVanish → a.text = .ok t →
      Division a b (.error (.divisionByZero t))
  | quotient (c : Complex Double) : ¬b.SquareOverflows → ¬b.SquaresVanish → Division a b (.ok c)

theorem div_of_squares {x y : Double} (hre : b.re.square = .ok x) (him : b.im.square = .ok y) :
    a.div b =
      if (x.add y).eq .zero then a.text >>= fun t => .error (.divisionByZero t)
      else .ok ⟨((a.re.mul b.re).add (a.im.mul b.im)).div (x.add y),
        ((a.im.mul b.re).sub (a.re.mul b.im)).div (x.add y)⟩ := by
  change (b.re.square >>= fun x => b.im.square >>= fun y => _) = _
  rw [hre, him]
  rfl

theorem div_outcome (ha : a.IsFinite) (b : Complex Double) : Division a b (a.div b) := by
  by_cases hre : b.re.SquareOverflows
  · have h : a.div b = .error .squareOverflow :=
      andThen_err.mpr (.inl (Double.square_of_overflows hre))
    rw [h]
    exact .overflow (.inl hre)
  have hreSquare := Double.square_of_not_overflows hre
  by_cases him : b.im.SquareOverflows
  · have h : a.div b = .error .squareOverflow :=
      andThen_err.mpr (.inr ⟨_, hreSquare, andThen_err.mpr (.inl (Double.square_of_overflows him))⟩)
    rw [h]
    exact .overflow (.inr him)
  have himSquare := Double.square_of_not_overflows him
  rw [div_of_squares hreSquare himSquare]
  split
  · rename_i hzero
    cases htext : a.text with
    | ok t => exact .zero (Double.eq_zero_of_add_squares hzero) htext
    | error e => exact absurd ha (text_fault htext).2
  · rename_i hnonzero
    refine .quotient _ (not_or.mpr ⟨hre, him⟩) fun hvanish => hnonzero ?_
    exact Double.add_eq_zero hvanish.1 hvanish.2

theorem div_eq_squareOverflow_iff (ha : a.IsFinite) :
    a.div b = .error .squareOverflow ↔ b.SquareOverflows := by
  have houtcome := div_outcome ha b
  generalize a.div b = r at houtcome ⊢
  constructor
  · rintro rfl
    cases houtcome with
    | overflow hover => exact hover
  · intro hover
    cases houtcome with
    | overflow => rfl
    | zero hvanish => exact absurd hover (not_squareOverflows_of_vanish hvanish)
    | quotient c hnot => exact absurd hover hnot

theorem div_eq_divisionByZero_iff (ha : a.IsFinite) :
    (∃ t, a.text = .ok t ∧ a.div b = .error (.divisionByZero t)) ↔ b.SquaresVanish := by
  have houtcome := div_outcome ha b
  generalize a.div b = r at houtcome ⊢
  constructor
  · rintro ⟨t, -, rfl⟩
    cases houtcome with
    | zero hvanish => exact hvanish
  · intro hvanish
    cases houtcome with
    | overflow hover => exact absurd hover (not_squareOverflows_of_vanish hvanish)
    | zero _ htext => exact ⟨_, htext, rfl⟩
    | quotient c _ hnot => exact absurd hvanish hnot

theorem exists_div_iff (ha : a.IsFinite) :
    (∃ c, a.div b = .ok c) ↔ ¬b.SquareOverflows ∧ ¬b.SquaresVanish := by
  have houtcome := div_outcome ha b
  generalize a.div b = r at houtcome ⊢
  constructor
  · rintro ⟨c, rfl⟩
    cases houtcome with
    | quotient _ hover hvanish => exact ⟨hover, hvanish⟩
  · rintro ⟨hover, hvanish⟩
    cases houtcome with
    | overflow h => exact absurd h hover
    | zero h => exact absurd h hvanish
    | quotient c => exact ⟨c, rfl⟩

/-! ## Inverses -/

theorem inverse_of_eq_zero (h : b.eq .zero = true) : b.inverse = .error .zeroInverse := if_pos h

theorem inverse_of_ne_zero (h : ¬b.eq .zero = true) : b.inverse = one.div b := if_neg h

theorem inverse_eq_zeroInverse_iff : b.inverse = .error .zeroInverse ↔ b.eq .zero = true := by
  refine ⟨fun h => ?_, inverse_of_eq_zero⟩
  by_contra hne
  have houtcome := div_outcome hasUnits_one.isFinite b
  rw [← inverse_of_ne_zero hne, h] at houtcome
  cases houtcome

theorem squaresVanish_of_eq_zero (h : b.eq .zero = true) : b.SquaresVanish := by
  obtain ⟨hre, him⟩ := Bool.and_eq_true_iff.mp h
  exact ⟨Double.square_eq_zero hre, Double.square_eq_zero him⟩

/-- The inverse of a value exists exactly if there are quotients by it. -/
theorem exists_inverse_iff (b : Complex Double) :
    (∃ c, b.inverse = .ok c) ↔ ¬b.SquareOverflows ∧ ¬b.SquaresVanish := by
  by_cases hzero : b.eq .zero = true
  · rw [inverse_of_eq_zero hzero]
    refine iff_of_false ?_ fun h => h.2 (squaresVanish_of_eq_zero hzero)
    rintro ⟨c, hc⟩
    cases hc
  · rw [inverse_of_ne_zero hzero]
    exact exists_div_iff hasUnits_one.isFinite

/-! ## Bounds -/

theorem eq_zero_iff_values (hp : b.re.toRat? = some p) (hq : b.im.toRat? = some q) :
    b.eq .zero = true ↔ p = 0 ∧ q = 0 := by
  obtain ⟨i, hi, rfl⟩ := Double.toRat?_eq_some_iff.mp hp
  obtain ⟨j, hj, rfl⟩ := Double.toRat?_eq_some_iff.mp hq
  have hone : (unitsPerOne : Rat) ≠ 0 := Nat.cast_ne_zero.mpr (Nat.ne_of_gt Double.unitsPerOne_pos)
  rw [eq_zero_iff, div_eq_zero_iff, div_eq_zero_iff, or_iff_left hone, or_iff_left hone,
    Int.cast_eq_zero, Int.cast_eq_zero]
  constructor
  · rintro ⟨hre, him⟩
    exact ⟨Option.some.inj (hi.symm.trans hre), Option.some.inj (hj.symm.trans him)⟩
  · rintro ⟨rfl, rfl⟩
    exact ⟨hi, hj⟩

theorem squareOverflows_iff (hp : b.re.toRat? = some p) (hq : b.im.toRat? = some q) :
    b.SquareOverflows ↔ 2 ^ 512 ≤ |p| ∨ 2 ^ 512 ≤ |q| :=
  or_congr (Double.squareOverflows_iff hp) (Double.squareOverflows_iff hq)

theorem squaresVanish_iff (hp : b.re.toRat? = some p) (hq : b.im.toRat? = some q) :
    b.SquaresVanish ↔ p ^ 2 ≤ 1 / 2 ^ 1075 ∧ q ^ 2 ≤ 1 / 2 ^ 1075 :=
  and_congr (Double.mul_self_eq_zero_iff hp) (Double.mul_self_eq_zero_iff hq)

/-- When a division of finite values fails: if a part of the divisor has a magnitude of `2 ^ 512` or
more, and if the squares of both parts are at most `2 ^ -1075`, as those of zero are. The inverse
fails for the same divisors. It has a fault of its own for zero, and is one divided by the value for
all others. -/
theorem div_fails (ha : a.IsFinite) (hp : b.re.toRat? = some p) (hq : b.im.toRat? = some q) :
    (a.div b = .error .squareOverflow ↔ 2 ^ 512 ≤ |p| ∨ 2 ^ 512 ≤ |q|) ∧
    ((∃ t, a.text = .ok t ∧ a.div b = .error (.divisionByZero t)) ↔
      p ^ 2 ≤ 1 / 2 ^ 1075 ∧ q ^ 2 ≤ 1 / 2 ^ 1075) ∧
    ((∃ c, a.div b = .ok c) ↔ ¬(2 ^ 512 ≤ |p| ∨ 2 ^ 512 ≤ |q|) ∧
      ¬(p ^ 2 ≤ 1 / 2 ^ 1075 ∧ q ^ 2 ≤ 1 / 2 ^ 1075)) ∧
    ((∃ c, b.inverse = .ok c) ↔ ∃ c, a.div b = .ok c) ∧
    (b.inverse = .error .zeroInverse ↔ p = 0 ∧ q = 0) ∧
    (¬(p = 0 ∧ q = 0) → b.inverse = one.div b) := by
  rw [← squareOverflows_iff hp hq, ← squaresVanish_iff hp hq, ← eq_zero_iff_values hp hq]
  refine ⟨div_eq_squareOverflow_iff ha, div_eq_divisionByZero_iff ha, exists_div_iff ha, ?_,
    inverse_eq_zeroInverse_iff, inverse_of_ne_zero⟩
  rw [exists_inverse_iff, exists_div_iff ha]

theorem div_fails_zero :
    (one : Complex Double).IsFinite ∧ Double.zero.toRat? = some 0 ∧
      (∃ t, (one : Complex Double).text = .ok t ∧
        (one : Complex Double).div zero = .error (.divisionByZero t)) ∧
      (zero : Complex Double).inverse = .error .zeroInverse := by
  have hone : (one : Complex Double).IsFinite := hasUnits_one.isFinite
  have hzero : Double.zero.toRat? = some 0 := by
    rw [Double.toRat?_of_units? Double.units?_zero, Int.cast_zero, zero_div]
  have hbound : (0 : Rat) ^ 2 ≤ 1 / 2 ^ 1075 := by
    rw [zero_pow two_ne_zero]
    positivity
  obtain ⟨-, hdiv, -, -, hinverse, -⟩ := div_fails (b := zero) hone hzero hzero
  exact ⟨hone, hzero, hdiv.mpr ⟨hbound, hbound⟩, hinverse.mpr ⟨rfl, rfl⟩⟩

/-- The double nearest to `10 ^ -200`. -/
def tiny : Complex Double := .ofReal (.ofRatio false 1 (Nat.pow 10 200))

/-- The double nearest to `10 ^ 200`. -/
def huge : Complex Double := .ofReal (.ofRatio false (Nat.pow 10 200) 1)

/-- Neither of these is zero, but one cannot be divided by them. -/
theorem div_nonzero_fails :
    tiny.IsFinite ∧ tiny.eq .zero = false ∧
      (∃ t, (one : Complex Double).div tiny = .error (.divisionByZero t)) ∧
      huge.IsFinite ∧ huge.eq .zero = false ∧
      (one : Complex Double).div huge = .error .squareOverflow := by
  have hone : (one : Complex Double).IsFinite := hasUnits_one.isFinite
  have hvanish : tiny.SquaresVanish := by
    constructor
    all_goals decide +kernel
  have hover : huge.SquareOverflows := by
    left
    constructor
    all_goals decide +kernel
  obtain ⟨t, -, htiny⟩ := (div_eq_divisionByZero_iff hone).mpr hvanish
  have hhuge := (div_eq_squareOverflow_iff hone).mpr hover
  exact ⟨by decide +kernel, by decide +kernel, ⟨t, htiny⟩, by decide +kernel, by decide +kernel,
    hhuge⟩

end Complex

end GaussJordan
