import Mathlib.LinearAlgebra.Matrix.Block
import Mathlib.LinearAlgebra.Matrix.Rank
import Mathlib.LinearAlgebra.Matrix.Transvection

/-!
# GaussJordan.Proofs.Echelon

The matrices that forward elimination leaves behind if nothing is rounded or skipped: `k` pivots,
all of them one and on the diagonal, zeros below them, and nothing but zeros in the other rows.

Such a matrix is `k` rows of the identity times a matrix of determinant one (`Echelon.eq_mul`). Its
rank is therefore `k` (`Echelon.rank_eq`), and it reaches exactly the vectors that end in zeros from
entry `k` on (`Echelon.solvable_iff`).
-/

namespace GaussJordan

open Matrix

variable {K : Type} [Field K] {n : Nat} {k : Nat} {M : Matrix (Fin n) (Fin n) K}

/-- The first `k` columns have a one on the diagonal and zeros below. -/
structure Triangular (k : Nat) (M : Matrix (Fin n) (Fin n) K) : Prop where
  pivot : ∀ i : Fin n, i.val < k → M i i = 1
  below : ∀ i j : Fin n, j.val < k → j < i → M i j = 0

/-- Apart from `k` pivots with ones on the diagonal and zeros below, the other rows are zero. -/
structure Echelon (k : Nat) (M : Matrix (Fin n) (Fin n) K) : Prop extends Triangular k M where
  le : k ≤ n
  rest : ∀ i j : Fin n, k ≤ i.val → k ≤ j.val → M i j = 0

namespace Triangular

theorem isUpperTriangular (h : Triangular n M) : M.IsUpperTriangular :=
  fun i j hij => h.below i j j.isLt hij

theorem det_eq_one (h : Triangular n M) : M.det = 1 := by
  rw [det_of_isUpperTriangular h.isUpperTriangular]
  exact Finset.prod_eq_one fun i _ => h.pivot i i.isLt

/-- If the column after the triangular ones is zero from the diagonal down, the matrix is
singular. -/
theorem det_eq_zero {p : Fin n} (h : Triangular p M) (hzero : ∀ i, p ≤ i → M i p = 0) :
    M.det = 0 := by
  rw [M.twoBlockTriangular_det (fun i => i < p) fun i hi j hj =>
    h.below i j hj (lt_of_lt_of_le hj (not_lt.mp hi))]
  have hblock : (M.toSquareBlockProp fun i => ¬i < p).det = 0 :=
    det_eq_zero_of_column_eq_zero ⟨p, lt_irrefl p⟩ fun i => hzero i (not_lt.mp i.2)
  rw [hblock, mul_zero]

theorem one (k : Nat) : Triangular k (1 : Matrix (Fin n) (Fin n) K) :=
  ⟨fun i _ => one_apply_eq i, fun _ _ _ h => one_apply_ne (ne_of_gt h)⟩

/-- Adding a multiple of a row to a higher one. -/
theorem transvection {i j : Fin n} (hji : j < i) (factor : K) :
    Triangular n (Matrix.transvection j i factor) := by
  have hsingle : ∀ k l : Fin n, l ≤ k → single j i factor k l = 0 := by
    intro k l hlk
    refine single_apply_of_ne _ _ _ _ _ fun h => ?_
    rw [h.1, h.2] at hji
    exact absurd hji (not_lt.mpr hlk)
  constructor
  · intro k _
    rw [Matrix.transvection, Matrix.add_apply, one_apply_eq, hsingle k k (le_refl k), add_zero]
  · intro k l _ hlk
    rw [Matrix.transvection, Matrix.add_apply, one_apply_ne (ne_of_gt hlk),
      hsingle k l (le_of_lt hlk), add_zero]

theorem mul_apply_self {N : Matrix (Fin n) (Fin n) K} (hM : M.IsUpperTriangular)
    (hN : N.IsUpperTriangular) (i : Fin n) : (M * N) i i = M i i * N i i := by
  rw [mul_apply]
  refine Finset.sum_eq_single i (fun l _ hl => ?_) fun hi => absurd (Finset.mem_univ i) hi
  rcases lt_or_gt_of_ne hl with hlt | hgt
  · rw [hM hlt, zero_mul]
  · rw [hN hgt, mul_zero]

theorem mul {N : Matrix (Fin n) (Fin n) K} (hM : Triangular n M) (hN : Triangular n N) :
    Triangular n (M * N) := by
  refine ⟨fun i hi => ?_, fun i j _ hij => ?_⟩
  · rw [mul_apply_self hM.isUpperTriangular hN.isUpperTriangular, hM.pivot i hi, hN.pivot i hi,
      mul_one]
  · exact hM.isUpperTriangular.mul hN.isUpperTriangular hij

/-- The inverse of a unit upper triangular matrix is one too. -/
theorem of_mul_eq_one {N : Matrix (Fin n) (Fin n) K} (h : Triangular n M) (hmul : M * N = 1) :
    Triangular n N := by
  have hinv : N = M⁻¹ := (inv_eq_right_inv hmul).symm
  have hupper : N.IsUpperTriangular := by
    have : Invertible M := invertibleOfRightInverse M N hmul
    rw [hinv]
    exact blockTriangular_inv_of_blockTriangular h.isUpperTriangular
  refine ⟨fun i _ => ?_, fun i j _ hij => hupper hij⟩
  have hdiag := mul_apply_self h.isUpperTriangular hupper i
  rw [hmul, one_apply_eq, h.pivot i i.isLt, one_mul] at hdiag
  exact hdiag.symm

end Triangular

namespace Echelon

theorem row_eq_zero (h : Echelon k M) {i : Fin n} (hi : k ≤ i.val) (j : Fin n) : M i j = 0 := by
  by_cases hj : j.val < k
  · exact h.below i j hj (Fin.lt_def.mpr (by omega))
  · exact h.rest i j hi (by omega)

/-- The first `k` rows of the identity. -/
def pivotRows (n k : Nat) : Matrix (Fin n) (Fin n) K := diagonal fun i => if i.val < k then 1 else 0

/-- The matrix with the rows from `k` on replaced by those of the identity. -/
def filled (k : Nat) (M : Matrix (Fin n) (Fin n) K) : Matrix (Fin n) (Fin n) K :=
  of fun i => if i.val < k then M i else (1 : Matrix (Fin n) (Fin n) K) i

theorem filled_of_lt {i : Fin n} (hi : i.val < k) (j : Fin n) : filled k M i j = M i j := by
  simp [filled, hi]

theorem filled_of_le {i : Fin n} (hi : k ≤ i.val) (j : Fin n) :
    filled k M i j = (1 : Matrix (Fin n) (Fin n) K) i j := by
  simp [filled, not_lt.mpr hi]

theorem det_filled (h : Echelon k M) : (filled k M).det = 1 := by
  apply Triangular.det_eq_one
  refine ⟨fun i _ => ?_, fun i j _ hji => ?_⟩
  · by_cases hi : i.val < k
    · rw [filled_of_lt hi, h.pivot i hi]
    · rw [filled_of_le (not_lt.mp hi), one_apply_eq]
  · by_cases hi : i.val < k
    · rw [filled_of_lt hi, h.below i j (lt_trans (Fin.lt_def.mp hji) hi) hji]
    · rw [filled_of_le (not_lt.mp hi), one_apply_ne (ne_of_gt hji)]

theorem eq_mul (h : Echelon k M) : M = pivotRows n k * filled k M := by
  ext i j : 1
  rw [pivotRows, diagonal_mul]
  by_cases hi : i.val < k
  · rw [if_pos hi, one_mul, filled_of_lt hi]
  · rw [if_neg hi, zero_mul, h.row_eq_zero (not_lt.mp hi)]

theorem rank_pivotRows (hk : k ≤ n) : (pivotRows n k : Matrix (Fin n) (Fin n) K).rank = k := by
  classical
  rw [pivotRows, rank_diagonal]
  simp only [ne_eq, ite_eq_right_iff, one_ne_zero, imp_false, not_not, Fintype.card_subtype]
  rw [Fin.card_filter_val_lt, min_eq_right hk]

theorem rank_eq (h : Echelon k M) : M.rank = k := by
  have hunit : IsUnit (filled k M).det := by
    rw [h.det_filled]
    exact isUnit_one
  rw [h.eq_mul, rank_mul_eq_left_of_isUnit_det _ _ hunit, rank_pivotRows h.le]

/-- A right-hand side is reached exactly if it is zero from entry `k` on. -/
theorem solvable_iff (h : Echelon k M) {c : Fin n → K} :
    (∃ y, M *ᵥ y = c) ↔ ∀ i : Fin n, k ≤ i.val → c i = 0 := by
  constructor
  · rintro ⟨y, rfl⟩ i hi
    rw [mulVec, dotProduct]
    exact Finset.sum_eq_zero fun j _ => by rw [h.row_eq_zero hi, zero_mul]
  · intro hc
    have hunit : IsUnit (filled k M).det := by
      rw [h.det_filled]
      exact isUnit_one
    refine ⟨(filled k M)⁻¹ *ᵥ c, ?_⟩
    calc M *ᵥ ((filled k M)⁻¹ *ᵥ c)
        = (pivotRows n k * filled k M) *ᵥ ((filled k M)⁻¹ *ᵥ c) := by rw [← h.eq_mul]
      _ = pivotRows n k *ᵥ c := by
        rw [mulVec_mulVec, Matrix.mul_assoc, mul_nonsing_inv _ hunit, Matrix.mul_one]
      _ = c := by
        ext1 i
        rw [pivotRows, mulVec_diagonal]
        by_cases hi : i.val < k
        · rw [if_pos hi, one_mul]
        · rw [if_neg hi, zero_mul, hc i (not_lt.mp hi)]

/-- With a pivot in every column the matrix is invertible, otherwise it is singular. -/
theorem det_ne_zero_iff (h : Echelon k M) : M.det ≠ 0 ↔ k = n := by
  constructor
  · intro hdet
    by_contra hne
    have hlt : k < n := lt_of_le_of_ne h.le hne
    exact hdet (det_eq_zero_of_row_eq_zero ⟨k, hlt⟩ (h.row_eq_zero (le_refl k)))
  · rintro rfl
    rw [h.toTriangular.det_eq_one]
    exact one_ne_zero

end Echelon

end GaussJordan
