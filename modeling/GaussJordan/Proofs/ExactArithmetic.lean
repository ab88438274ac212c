import GaussJordan.Complex
import Mathlib.Algebra.Field.Basic
import Mathlib.Algebra.Order.Ring.Rat
import Mathlib.Tactic.FieldSimp
import Mathlib.Tactic.Ring

/-!
# GaussJordan.Proofs.ExactArithmetic

Complex values with rational parts. Their operations never round, so they form a field, and the
quotients and inverses of the reduction are those of the field: `div_ok`, `inverse_ok`.

With tolerance zero the tests for zero and one are equality (`isZero_zero_iff`, `isOne_zero_iff`).
-/

namespace GaussJordan

/-! ## Rational parts -/

theorem scalar_zero : (Scalar.zero : Rat) = 0 := rfl
theorem scalar_one : (Scalar.one : Rat) = 1 := rfl
theorem scalar_add (x y : Rat) : Scalar.add x y = x + y := rfl
theorem scalar_sub (x y : Rat) : Scalar.sub x y = x - y := rfl
theorem scalar_mul (x y : Rat) : Scalar.mul x y = x * y := rfl
theorem scalar_div (x y : Rat) : Scalar.div x y = x / y := rfl
theorem scalar_eq (x y : Rat) : Scalar.eq x y = (x == y) := rfl
theorem scalar_square (x : Rat) : Scalar.square x = .ok (x * x) := rfl
theorem scalar_within (tol x : Rat) : Scalar.within tol x = decide (x.abs ≤ tol) := rfl

namespace Complex

/-- A quotient is formed over the sum of two squares that is not zero. -/
theorem div_eq_ok_iff {α : Type} [Scalar α] {a b q : Complex α} :
    a.div b = .ok q ↔ ∃ x y, Scalar.square b.re = .ok x ∧ Scalar.square b.im = .ok y ∧
      Scalar.eq (Scalar.add x y) Scalar.zero = false ∧
      q = ⟨Scalar.div (Scalar.add (Scalar.mul a.re b.re) (Scalar.mul a.im b.im)) (Scalar.add x y),
        Scalar.div (Scalar.sub (Scalar.mul a.im b.re) (Scalar.mul a.re b.im))
          (Scalar.add x y)⟩ := by
  simp only [div, bind, Except.bind, pure, Except.pure]
  cases Scalar.square b.re with
  | error e => simp
  | ok x =>
    cases Scalar.square b.im with
    | error e => simp
    | ok y =>
      cases hz : Scalar.eq (Scalar.add x y) Scalar.zero with
      | false => simpa [hz] using eq_comm
      | true =>
        cases a.text with
        | ok t => simp [throw, throwThe, MonadExceptOf.throw, hz]
        | error e => simp [hz]

/-! ## The field -/

instance : Zero (Complex Rat) := ⟨.zero⟩

instance : One (Complex Rat) := ⟨.one⟩

/-- The sum of the squares of the parts. -/
def normSq (a : Complex Rat) : Rat := a.re * a.re + a.im * a.im

instance : Inv (Complex Rat) := ⟨fun a => ⟨a.re / a.normSq, -a.im / a.normSq⟩⟩

theorem zero_eq : (Complex.zero : Complex Rat) = 0 := rfl

theorem one_eq : (Complex.one : Complex Rat) = 1 := rfl

@[simp] theorem re_zero : (0 : Complex Rat).re = 0 := rfl
@[simp] theorem im_zero : (0 : Complex Rat).im = 0 := rfl
@[simp] theorem re_one : (1 : Complex Rat).re = 1 := rfl
@[simp] theorem im_one : (1 : Complex Rat).im = 0 := rfl
@[simp] theorem re_add (a b : Complex Rat) : (a + b).re = a.re + b.re := rfl
@[simp] theorem im_add (a b : Complex Rat) : (a + b).im = a.im + b.im := rfl
@[simp] theorem re_sub (a b : Complex Rat) : (a - b).re = a.re - b.re := rfl
@[simp] theorem im_sub (a b : Complex Rat) : (a - b).im = a.im - b.im := rfl
@[simp] theorem re_neg (a : Complex Rat) : (-a).re = -a.re := rfl
@[simp] theorem im_neg (a : Complex Rat) : (-a).im = -a.im := rfl
@[simp] theorem re_mul (a b : Complex Rat) : (a * b).re = a.re * b.re - a.im * b.im := rfl
@[simp] theorem im_mul (a b : Complex Rat) : (a * b).im = a.re * b.im + a.im * b.re := rfl
@[simp] theorem re_inv (a : Complex Rat) : a⁻¹.re = a.re / a.normSq := rfl
@[simp] theorem im_inv (a : Complex Rat) : a⁻¹.im = -a.im / a.normSq := rfl

theorem normSq_eq_zero {a : Complex Rat} : a.normSq = 0 ↔ a = 0 := by
  constructor
  · intro h
    rw [normSq, mul_self_add_mul_self_eq_zero] at h
    exact Complex.ext h.1 h.2
  · rintro rfl
    simp [normSq]

instance : CommRing (Complex Rat) where
  add_assoc a b c := by ext <;> simp [add_assoc]
  zero_add a := by ext <;> simp
  add_zero a := by ext <;> simp
  add_comm a b := by ext <;> simp [add_comm]
  neg_add_cancel a := by ext <;> simp
  sub_eq_add_neg a b := by ext <;> simp [sub_eq_add_neg]
  mul_assoc a b c := by ext <;> simp <;> ring
  mul_comm a b := by ext <;> simp <;> ring
  one_mul a := by ext <;> simp
  mul_one a := by ext <;> simp
  left_distrib a b c := by ext <;> simp <;> ring
  right_distrib a b c := by ext <;> simp <;> ring
  zero_mul a := by ext <;> simp
  mul_zero a := by ext <;> simp
  nsmul := nsmulRec
  zsmul := zsmulRec

theorem mul_inv_cancel_of_ne {a : Complex Rat} (ha : a ≠ 0) : a * a⁻¹ = 1 := by
  have hn : a.normSq ≠ 0 := fun h => ha (normSq_eq_zero.mp h)
  ext
  · rw [re_mul, re_inv, im_inv, re_one]
    field_simp
    rw [normSq]
    ring
  · rw [im_mul, re_inv, im_inv, im_one]
    ring

instance : Field (Complex Rat) where
  exists_pair_ne := ⟨0, 1, fun h => by simpa using congrArg Complex.re h⟩
  mul_inv_cancel _ := mul_inv_cancel_of_ne
  inv_zero := by ext <;> simp
  nnqsmul := _
  qsmul := _

/-! ## Division -/

theorem div_re (a b : Complex Rat) : (a / b).re = (a.re * b.re + a.im * b.im) / b.normSq := by
  rw [div_eq_mul_inv, re_mul, re_inv, im_inv]
  ring

theorem div_im (a b : Complex Rat) : (a / b).im = (a.im * b.re - a.re * b.im) / b.normSq := by
  rw [div_eq_mul_inv, im_mul, re_inv, im_inv]
  ring

/-- The quotient is there exactly if the divisor is not zero. -/
theorem div_ok {a b q : Complex Rat} : a.div b = .ok q ↔ b ≠ 0 ∧ q = a / b := by
  have hq : a / b = ⟨(a.re * b.re + a.im * b.im) / (b.re * b.re + b.im * b.im),
      (a.im * b.re - a.re * b.im) / (b.re * b.re + b.im * b.im)⟩ :=
    Complex.ext (div_re a b) (div_im a b)
  have hb : b.re * b.re + b.im * b.im = 0 ↔ b = 0 := normSq_eq_zero
  rw [div_eq_ok_iff, hq]
  simp only [scalar_square, scalar_add, scalar_sub, scalar_mul, scalar_div, scalar_eq, scalar_zero,
    Except.ok.injEq, beq_eq_false_iff_ne, ne_eq]
  constructor
  · rintro ⟨_, _, rfl, rfl, hne, rfl⟩
    exact ⟨fun h => hne (hb.mpr h), rfl⟩
  · rintro ⟨hne, rfl⟩
    exact ⟨_, _, rfl, rfl, fun h => hne (hb.mp h), rfl⟩

theorem inverse_ok {a f : Complex Rat} : a.inverse = .ok f ↔ a ≠ 0 ∧ f = a⁻¹ := by
  rw [inverse]
  split
  · rename_i h
    have ha : a = 0 := by
      simp only [scalar_eq, scalar_zero, Bool.and_eq_true, beq_iff_eq] at h
      exact Complex.ext h.1 h.2
    simp [ha]
  · rw [div_ok, one_eq, one_div]

/-! ## Tolerances -/

theorem abs_le_zero_iff {x : Rat} : x.abs ≤ 0 ↔ x = 0 := by
  constructor
  · intro h
    rcases Rat.le_total (a := 0) (b := x) with hx | hx
    · rw [Rat.abs_of_nonneg hx] at h
      exact le_antisymm h hx
    · rw [Rat.abs_of_nonpos hx] at h
      exact le_antisymm hx (neg_nonpos.mp h)
  · rintro rfl
    exact le_of_eq Rat.abs_zero

theorem isZero_iff {tol : Rat} {a : Complex Rat} :
    a.isZero tol = true ↔ a.re.abs ≤ tol ∧ a.im.abs ≤ tol := by
  simp only [isZero, scalar_within, Bool.and_eq_true, decide_eq_true_eq]

theorem isZero_zero_iff {a : Complex Rat} : a.isZero 0 = true ↔ a = 0 := by
  rw [isZero_iff, abs_le_zero_iff, abs_le_zero_iff]
  exact ⟨fun h => Complex.ext h.1 h.2, fun h => by simp [h]⟩

theorem isOne_iff {tol : Rat} {a : Complex Rat} :
    a.isOne tol = true ↔ (a - 1).isZero tol = true := by
  rw [isZero_iff, re_sub, im_sub, re_one, im_one, sub_zero]
  simp only [isOne, scalar_within, scalar_sub, scalar_one, Bool.and_eq_true, decide_eq_true_eq]

theorem isOne_zero_iff {a : Complex Rat} : a.isOne 0 = true ↔ a = 1 := by
  rw [isOne_iff, isZero_zero_iff, sub_eq_zero]

theorem isZero_one_iff {tol : Rat} : (1 : Complex Rat).isZero tol = true ↔ 1 ≤ tol := by
  rw [isZero_iff, re_one, im_one, Rat.abs_of_nonneg (by decide), Rat.abs_zero]
  exact ⟨fun h => h.1, fun h => ⟨h, le_trans zero_le_one h⟩⟩

/-- Zero counts as zero under every tolerance that is not negative. -/
theorem isZero_zero {tol : Rat} (htol : 0 ≤ tol) : (0 : Complex Rat).isZero tol = true := by
  rw [isZero_iff]
  simpa using htol

theorem isZero_neg {tol : Rat} {a : Complex Rat} :
    (-a).isZero tol = true ↔ a.isZero tol = true := by
  rw [isZero_iff, isZero_iff, re_neg, im_neg, Rat.abs_neg, Rat.abs_neg]

/-- What counts as zero still does so when a negative tolerance is raised to zero. -/
theorem isZero_max {tol : Rat} {a : Complex Rat} (h : a.isZero tol = true) :
    a.isZero (max tol 0) = true := by
  rw [isZero_iff] at h ⊢
  exact ⟨h.1.trans (le_max_left _ _), h.2.trans (le_max_left _ _)⟩

theorem isOne_max {tol : Rat} {a : Complex Rat} (h : a.isOne tol = true) :
    a.isOne (max tol 0) = true :=
  isOne_iff.mpr (isZero_max (isOne_iff.mp h))

end Complex

end GaussJordan
