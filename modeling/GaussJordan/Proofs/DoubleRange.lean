import GaussJordan.Proofs.Texts

/-!
# GaussJordan.Proofs.DoubleRange

Where the operations on binary64 numbers leave the finite range, and where they end in zero.

* A sum, difference or product is finite only if both operands are (`isFinite_of_add`, …). A number
  has a text exactly if it is finite (`text_ok`, `text_err`).
* A quotient is rounded to zero exactly if it is at most half a unit (`ofUnits_eq_zero_iff`).
* So a number whose square is zero is within every tolerance whose square is not
  (`le_of_square_eq_zero`).
-/

namespace GaussJordan

/-! ## Rounding to zero -/

theorem roundHalfEven_eq_zero_iff {num den : Nat} (hd : 0 < den) :
    roundHalfEven num den = 0 ↔ 2 * num ≤ den := by
  constructor
  · intro h
    have hnear := (roundHalfEven_near num den hd).1
    rw [h, Nat.mul_zero, Nat.mul_zero, Nat.zero_add] at hnear
    exact hnear
  · intro h
    have hlt : num < den := by omega
    simp only [roundHalfEven, Nat.div_eq_of_lt hlt, Nat.mod_eq_of_lt hlt]
    split
    · rfl
    · split
      · omega
      · rfl

theorem roundToBits_eq_zero_iff {p num den : Nat} (hp : 0 < p) (hd : 0 < den) :
    roundToBits p num den = 0 ↔ 2 * num ≤ den := by
  have hstep : 0 < Nat.pow 2 (gridShift p (num / den)) := Nat.two_pow_pos _
  have hround : roundToBits p num den = 0 ↔
      2 * num ≤ den * Nat.pow 2 (gridShift p (num / den)) := by
    rw [← roundHalfEven_eq_zero_iff (Nat.mul_pos hd hstep)]
    simp only [roundToBits, Nat.mul_eq_zero]
    omega
  rw [hround]
  by_cases hq : num / den = 0
  · -- the grid has step one below one
    have hshift : gridShift p (num / den) = 0 := by
      rw [hq]
      simp only [gridShift, Nat.log2_zero]
      omega
    rw [hshift]
    simp
  · -- from one on, the step is at most the value itself
    have hle : Nat.pow 2 (gridShift p (num / den)) ≤ num / den := by
      refine Nat.le_trans (Nat.pow_le_pow_right (by decide) ?_) (Nat.log2_self_le hq)
      simp only [gridShift]
      omega
    have hmul : den * (num / den) ≤ num := Nat.mul_div_le num den
    have hscaled := Nat.mul_le_mul_left den hle
    have hpos : den ≤ num := by
      refine Nat.le_trans ?_ hmul
      exact Nat.le_mul_of_pos_right den (Nat.pos_of_ne_zero hq)
    constructor
    · omega
    · omega

namespace Double

variable {x y tol : Double}

/-! ## The finite range -/

theorem isFinite_neg (x : Double) : x.neg.isFinite = x.isFinite := by
  cases x <;> rfl

theorem isFinite_of_add (h : (x.add y).isFinite = true) :
    x.isFinite = true ∧ y.isFinite = true := by
  cases x with
  | finite s a ha =>
    cases y with
    | finite t b hb => exact ⟨rfl, rfl⟩
    | infinite t => cases h
    | nan => cases h
  | infinite s =>
    cases y with
    | finite t b hb => cases h
    | infinite t =>
      rw [add] at h
      split at h
      · cases h
      · cases h
    | nan => cases h
  | nan => cases h

theorem isFinite_of_sub (h : (x.sub y).isFinite = true) :
    x.isFinite = true ∧ y.isFinite = true := by
  rw [← isFinite_neg y]
  exact isFinite_of_add h

theorem isFinite_of_mul (h : (x.mul y).isFinite = true) :
    x.isFinite = true ∧ y.isFinite = true := by
  cases x with
  | finite s a ha =>
    cases y with
    | finite t b hb => exact ⟨rfl, rfl⟩
    | infinite t =>
      rw [mul] at h
      split at h
      · cases h
      · cases h
    | nan => cases h
  | infinite s =>
    cases y with
    | finite t b hb =>
      rw [mul] at h
      split at h
      · cases h
      · cases h
    | infinite t => cases h
    | nan => cases h
  | nan => cases h

theorem text_ok {places : Int} {t : List Char} (h : x.text places = .ok t) : x.isFinite = true := by
  cases x with
  | finite s u hu => rfl
  | infinite s => cases h
  | nan => cases h

theorem text_err {places : Int} (hplaces : 0 ≤ places ∧ places ≤ maxPlaces) {e : Fault}
    (h : x.text places = .error e) : (e = .infiniteText ∨ e = .nanText) ∧ x.isFinite = false := by
  cases x with
  | finite s u hu =>
    rw [text] at h
    exact absurd h (partText_ne_error hplaces)
  | infinite s =>
    cases h
    exact ⟨.inl rfl, rfl⟩
  | nan =>
    cases h
    exact ⟨.inr rfl, rfl⟩

/-! ## Squares -/

/-- A finite number whose square is not. -/
def SquareOverflows (x : Double) : Prop := x.isFinite = true ∧ (x.mul x).isInfinite = true

theorem square_ok (h : x.square = .ok y) : y = x.mul x := by
  simp only [square] at h
  split at h
  · cases h
  · cases h
    rfl

theorem square_err {e : Fault} (h : x.square = .error e) :
    e = .squareOverflow ∧ x.SquareOverflows := by
  simp only [square] at h
  split at h
  · rename_i hover
    cases h
    exact ⟨rfl, Bool.and_eq_true_iff.mp hover⟩
  · cases h

theorem ofUnits_eq_zero_iff {s : Bool} {num den : Nat} (hd : 0 < den) :
    (ofUnits s num den).eq zero = true ↔ 2 * num ≤ den := by
  rw [← roundToBits_eq_zero_iff (p := 53) (by decide) hd]
  simp only [ofUnits]
  split
  · cases s <;> simp [eq, zero, signedZero, signedUnits]
  · rename_i hlimit
    have := Nat.lt_trans unitsPerOne_pos unitsPerOne_lt_unitsLimit
    simp only [eq, zero, signedZero, Bool.false_eq_true, false_iff]
    omega

theorem lt_ofUnits_iff {num den : Nat} (hd : 0 < den) :
    lt zero (ofUnits false num den) = true ↔ den < 2 * num := by
  rw [← Nat.not_le, ← roundToBits_eq_zero_iff (p := 53) (by decide) hd]
  simp only [ofUnits]
  split
  · simp [lt, zero, signedZero, signedUnits, Nat.pos_iff_ne_zero]
  · rename_i hlimit
    have := Nat.lt_trans unitsPerOne_pos unitsPerOne_lt_unitsLimit
    simp only [lt, zero, signedZero, Bool.not_false, true_iff]
    omega

/-- A number whose square is rounded to zero is within every tolerance whose square is not. -/
theorem le_of_square_eq_zero (h : (x.mul x).eq zero = true) (htol : lt zero tol = true)
    (hsquare : lt zero (tol.mul tol) = true) : le x.abs tol = true := by
  cases x with
  | finite s a ha =>
    rw [mul, ofUnits_eq_zero_iff unitsPerOne_pos] at h
    cases tol with
    | finite t b hb =>
      obtain rfl : t = false := by
        cases t
        · rfl
        · simp only [lt, zero, signedZero, signedUnits, decide_eq_true_eq, Bool.false_eq_true,
            if_true, if_false] at htol
          omega
      rw [mul, Bool.xor_self, lt_ofUnits_iff unitsPerOne_pos] at hsquare
      have hlt : a < b := Nat.mul_self_lt_mul_self_iff.mp (by omega)
      simp [le, lt, abs, signedUnits, hlt]
    | infinite t =>
      cases t
      · rfl
      · cases htol
    | nan => cases htol
  | infinite s => simp [mul, eq, zero, signedZero] at h
  | nan => cases h

/-- A square is not negative. -/
theorem mul_self_cases (x : Double) :
    (∃ u hu, x.mul x = .finite false u hu) ∨ (x.mul x).isFinite = false := by
  cases x with
  | finite s a ha =>
    simp only [mul, Bool.xor_self, ofUnits]
    split
    · rename_i hu
      exact .inl ⟨_, ⟨hu, roundToBits_fits _ _ (by decide)⟩, rfl⟩
    · exact .inr rfl
  | infinite s => exact .inr rfl
  | nan => exact .inr rfl

theorem isFinite_of_eq_zero (h : x.eq zero = true) : x.isFinite = true := by
  cases x with
  | finite s a ha => rfl
  | infinite s => cases h
  | nan => cases h

theorem square_eq_zero (h : x.eq zero = true) : (x.mul x).eq zero = true := by
  cases x with
  | finite s a ha =>
    have ha : a = 0 := by
      cases s <;> simpa [eq, zero, signedZero, signedUnits] using h
    rw [mul, ofUnits_eq_zero_iff unitsPerOne_pos, ha]
    exact Nat.zero_le _
  | infinite s => cases h
  | nan => cases h

theorem eq_zero_of_add_squares (h : ((x.mul x).add (y.mul y)).eq zero = true) :
    (x.mul x).eq zero = true ∧ (y.mul y).eq zero = true := by
  obtain ⟨hx, hy⟩ := isFinite_of_add (isFinite_of_eq_zero h)
  obtain ⟨a, ha, hxa⟩ := (mul_self_cases x).resolve_right (by simp [hx])
  obtain ⟨b, hb, hyb⟩ := (mul_self_cases y).resolve_right (by simp [hy])
  rw [hxa, hyb] at h ⊢
  have hsum : a + b = 0 := by
    simp only [add, signedUnits, Bool.false_eq_true, if_false] at h
    split at h
    · omega
    · rw [ofUnits_eq_zero_iff (by decide)] at h
      omega
  obtain ⟨rfl, rfl⟩ : a = 0 ∧ b = 0 := by omega
  exact ⟨rfl, rfl⟩

end Double

end GaussJordan
