import GaussJordan.Proofs.ExactArithmetic
import GaussJordan.Proofs.Outcome
import Mathlib.LinearAlgebra.Matrix.Swap
import Mathlib.LinearAlgebra.Matrix.Transvection

/-!
# GaussJordan.Proofs.ElementaryMatrix

Over the rationals a system is a matrix and a vector, and an operation on it is a multiplication
from the left by an elementary matrix, followed by a permutation of the columns.

On the constant terms this always holds (`constants_apply`). On the coefficients it holds for a
*faithful* operation, one whose overwritten term has the new value already (`matrix_apply`). All
operations of forward elimination are faithful and have an invertible matrix, so the system in row
echelon form, with its columns put back in the order of the input, is the given system multiplied by
an invertible matrix (`reachEchelon_matrix`).
-/

namespace GaussJordan

open Matrix

variable {n : Nat}

/-- Multiplying both sides by an invertible matrix keeps the solutions. -/
theorem mulVec_eq_iff {P A : Matrix (Fin n) (Fin n) (Complex Rat)} (hP : IsUnit P.det)
    {x b : Fin n → Complex Rat} : (P * A) *ᵥ x = P *ᵥ b ↔ A *ᵥ x = b := by
  rw [← mulVec_mulVec]
  exact (mulVec_injective_iff_isUnit.mpr ((isUnit_iff_isUnit_det P).mpr hP)).eq_iff

namespace System

/-- The coefficients. -/
def matrix (m : System Rat n) : Matrix (Fin n) (Fin n) (Complex Rat) := of m.coefficient

theorem matrix_eq (m : System Rat n) (i j : Fin n) : m.matrix i j = m.coefficient i j := rfl

theorem constants_get (m : System Rat n) (i : Fin n) : m.constants.get i = (m.row i).constant := by
  change (m.rows.map Row.constant)[i] = _
  simp [row]

theorem matrix_swapColumns (m : System Rat n) (i j : Fin n) :
    (m.swapColumns i j).matrix = m.matrix.submatrix id (Equiv.swap i j) := by
  ext k l : 1
  rw [matrix_eq, coefficient_swapColumns, submatrix_apply, matrix_eq, id_eq, Equiv.swap_apply_def]
  rfl

end System

/-- With tolerance zero, clearing a term adds the source row in every column, if the sum is zero in
the column to be cleared. -/
theorem Row.get_cleared {factor : Complex Rat} {column : Fin n} {source r : Row Rat n}
    (h : r.get column.castSucc + source.get column.castSucc * factor = 0) (l : Fin n) :
    (r.cleared 0 factor column source).get l.castSucc =
      r.get l.castSucc + source.get l.castSucc * factor := by
  rw [Row.cleared]
  split
  · rename_i hz
    obtain rfl := Complex.isZero_zero_iff.mp hz
    rw [mul_zero, add_zero]
  · change ((r.add (source.scale factor)).setTerm column.castSucc .zero)[l.castSucc] = _
    rw [Row.getElem_setTerm]
    split
    · rename_i hl
      obtain rfl := Fin.castSucc_inj.mp hl
      exact h.symm
    · rw [Row.getElem_add, Row.getElem_scale]
      rfl

namespace Operation

/-- The elementary matrix by which the operation multiplies the rows. -/
def matrix : Operation Rat n → Matrix (Fin n) (Fin n) (Complex Rat)
  | .swapRows i j => swap _ i j
  | .swapColumns _ _ => 1
  | .scale factor i => diagonal (Function.update 1 i factor)
  | .addScaled factor i j => transvection j i factor

/-- The permutation that the operation makes of the columns. -/
def columns {α : Type} : Operation α n → Equiv.Perm (Fin n)
  | .swapColumns i j => Equiv.swap i j
  | _ => 1

/-- The term that the operation overwrites has its new value already, and a row is not added to
itself. -/
def Faithful (m : System Rat n) : Operation Rat n → Prop
  | .scale factor i => m.coefficient i i * factor = 1
  | .addScaled factor i j => i ≠ j ∧ m.coefficient j i + m.coefficient i i * factor = 0
  | _ => True

theorem constants_apply (op : Operation Rat n) (m : System Rat n) :
    (op.apply m).constants.get = op.matrix *ᵥ m.constants.get := by
  ext1 k
  rw [System.constants_get]
  cases op with
  | swapRows i j =>
    rw [matrix, swap_mulVec, Function.comp_apply, System.constants_get, apply,
      System.row_swapRows, Equiv.swap_apply_def]
    split
    · rfl
    · split <;> rfl
  | swapColumns i j =>
    rw [matrix, one_mulVec, System.constants_get, apply, System.row_swapColumns,
      Row.constant_swapTerms]
  | scale factor i =>
    rw [matrix, mulVec_diagonal, System.constants_get, constant_apply_scale]
    by_cases hk : i = k
    · subst hk
      rw [if_pos rfl, Function.update_self, mul_comm]
    · rw [if_neg hk, Function.update_of_ne (Ne.symm hk), Pi.one_apply, one_mul]
  | addScaled factor i j =>
    rw [matrix, transvection, add_mulVec, one_mulVec, Pi.add_apply, single_mulVec,
      System.constants_get, constant_apply_addScaled]
    by_cases hk : j = k
    · subst hk
      rw [if_pos rfl, Function.update_self, System.constants_get, mul_comm]
    · rw [if_neg hk, Function.update_of_ne (Ne.symm hk), Pi.zero_apply, add_zero]

theorem matrix_apply {op : Operation Rat n} {m : System Rat n} (h : op.Faithful m) :
    (op.apply m).matrix = op.matrix * m.matrix.submatrix id op.columns := by
  cases op with
  | swapRows i j =>
    ext k l : 1
    rw [System.matrix_eq, apply, System.coefficient_swapRows, exchanged, matrix]
    split
    · rename_i hk
      rw [hk, swap_mul_apply_left]
      rfl
    · split
      · rename_i hk
        rw [hk, swap_mul_apply_right]
        rfl
      · rename_i hi hj
        rw [swap_mul_of_ne hi hj]
        rfl
  | swapColumns i j => rw [matrix, Matrix.one_mul, apply, System.matrix_swapColumns, columns]
  | scale factor i =>
    ext k l : 1
    rw [System.matrix_eq, coefficient_apply_scale, matrix, diagonal_mul, submatrix_apply,
      System.matrix_eq]
    by_cases hk : i = k
    · subst hk
      rw [if_pos rfl, Function.update_self, mul_comm factor]
      split
      · rename_i hl
        subst hl
        exact h.symm
      · rfl
    · rw [if_neg hk, Function.update_of_ne (Ne.symm hk), Pi.one_apply, one_mul]
      rfl
  | addScaled factor i j =>
    ext k l : 1
    rw [System.matrix_eq, coefficient_apply_addScaled, matrix]
    by_cases hk : j = k
    · subst hk
      rw [if_pos rfl, transvection_mul_apply_same, submatrix_apply, submatrix_apply,
        System.matrix_eq, System.matrix_eq, mul_comm factor]
      split
      · rename_i hl
        subst hl
        exact h.2.symm
      · rfl
    · rw [if_neg hk, transvection_mul_apply_of_ne _ _ _ _ (Ne.symm hk)]
      rfl

/-- Without an exchange of columns the coefficients are multiplied by the matrix and no more. -/
theorem matrix_apply_of_exchanges {op : Operation Rat n} {m : System Rat n} (h : op.Faithful m)
    (hx : op.exchanges = []) : (op.apply m).matrix = op.matrix * m.matrix := by
  rw [matrix_apply h]
  cases op with
  | swapColumns i j => cases hx
  | _ => rfl

theorem isUnit_det_matrix {op : Operation Rat n} {m : System Rat n} (h : op.Faithful m) :
    IsUnit op.matrix.det := by
  cases op with
  | swapRows i j =>
    refine isUnit_det_of_left_inverse (B := swap _ i j) ?_
    exact swap_mul_self i j
  | swapColumns i j =>
    rw [matrix, det_one]
    exact isUnit_one
  | scale factor i =>
    have hf : factor ≠ 0 := right_ne_zero_of_mul_eq_one h
    rw [matrix, det_diagonal, Finset.prod_update_of_mem (Finset.mem_univ i)]
    simpa using hf
  | addScaled factor i j =>
    rw [matrix, det_transvection_of_ne _ _ (Ne.symm h.1)]
    exact isUnit_one

/-! ## Lists of operations -/

/-- The product of the elementary matrices, the last operation's on the left. -/
def product : List (Operation Rat n) → Matrix (Fin n) (Fin n) (Complex Rat)
  | [] => 1
  | op :: ops => product ops * op.matrix

theorem product_append (ops ops' : List (Operation Rat n)) :
    product (ops ++ ops') = product ops' * product ops := by
  induction ops with
  | nil => exact (Matrix.mul_one _).symm
  | cons op ops ih => rw [List.cons_append, product, product, ih, Matrix.mul_assoc]

/-- The permutation that the operations make of the columns. -/
def permutation {α : Type} : List (Operation α n) → Equiv.Perm (Fin n)
  | [] => 1
  | op :: ops => op.columns * permutation ops

end Operation

/-- The permutation of the columns that takes back the exchanges of a history. -/
def undoing : List (Recorded n) → Equiv.Perm (Fin n)
  | [] => 1
  | .own i j :: history => Equiv.swap i j * undoing history
  | .other _ :: history => undoing history

theorem System.matrix_restored (history : List (Recorded n)) (m : System Rat n) :
    (m.restored history).matrix = m.matrix.submatrix id (undoing history) := by
  induction history generalizing m with
  | nil => rfl
  | cons entry history ih =>
    rw [restored_cons, ih]
    cases entry with
    | own i j => rw [Recorded.undo, matrix_swapColumns, submatrix_submatrix]; rfl
    | other text => rfl

/-- The recorded history takes the permutation of the operations back. -/
theorem permutation_mul_undoing {α : Type} (ops : List (Operation α n))
    (history : List (Recorded n)) :
    Operation.permutation ops * undoing (Operation.recordAll ops history) = undoing history := by
  induction ops generalizing history with
  | nil => exact one_mul _
  | cons op ops ih =>
    have h : op.columns * undoing (op.exchanges ++ history) = undoing history := by
      cases op with
      | swapColumns i j => exact Equiv.swap_mul_self_mul i j _
      | _ => exact one_mul _
    rw [Operation.permutation, mul_assoc]
    change op.columns * (_ * undoing (Operation.recordAll ops (op.exchanges ++ history))) = _
    rw [ih, h]

namespace Reduction

theorem matrix_inputOrder (s : Reduction Rat n) :
    s.inputOrder.matrix = s.system.matrix.submatrix id (undoing s.history) :=
  s.system.matrix_restored s.history

variable {G : System Rat n → Operation Rat n → Prop} {s t e : Reduction Rat n}
variable {ops : List (Operation Rat n)}

namespace Trace

theorem constants (h : Trace G s ops t) :
    t.system.constants.get = Operation.product ops *ᵥ s.system.constants.get := by
  induction h with
  | nil ha => rw [ha.system, Operation.product, one_mulVec]
  | cons _ hp _ ih =>
    rw [ih, hp.system, Operation.constants_apply, Operation.product, mulVec_mulVec]

theorem matrix (hG : ∀ m op, G m op → op.Faithful m) (h : Trace G s ops t) :
    t.system.matrix =
      Operation.product ops * s.system.matrix.submatrix id (Operation.permutation ops) := by
  induction h with
  | nil ha => rw [ha.system, Operation.product, Matrix.one_mul]; rfl
  | @cons s _ _ op ops hg hp _ ih =>
    have hsub : (op.matrix * s.system.matrix.submatrix id op.columns).submatrix id
          (Operation.permutation ops) =
        op.matrix * s.system.matrix.submatrix id (op.columns * Operation.permutation ops) := by
      ext i j : 1
      rfl
    rw [ih, hp.system, Operation.matrix_apply (hG _ _ hg), hsub, Operation.product,
      Operation.permutation, Matrix.mul_assoc]

theorem isUnit_det (hG : ∀ m op, G m op → op.Faithful m) (h : Trace G s ops t) :
    IsUnit (Operation.product ops).det := by
  induction h with
  | nil =>
    rw [Operation.product, det_one]
    exact isUnit_one
  | cons hg _ _ ih =>
    rw [Operation.product, det_mul]
    exact ih.mul (Operation.isUnit_det_matrix (hG _ _ hg))

theorem matrix_of_exchanges (hG : ∀ m op, G m op → op.Faithful m ∧ op.exchanges = [])
    (h : Trace G s ops t) : t.system.matrix = Operation.product ops * s.system.matrix := by
  induction h with
  | nil ha => rw [ha.system, Operation.product, Matrix.one_mul]
  | cons hg hp _ ih =>
    obtain ⟨hf, hx⟩ := hG _ _ hg
    rw [ih, hp.system, Operation.matrix_apply_of_exchanges hf hx, Operation.product,
      Matrix.mul_assoc]

/-- With the columns back in the order of the input, the coefficients are those of the input times
the product of the operations. -/
theorem matrix_inputOrder (hG : ∀ m op, G m op → op.Faithful m) (h : Trace G s ops t)
    (hs : s.history = []) :
    t.inputOrder.matrix = Operation.product ops * s.system.matrix := by
  have hundo := permutation_mul_undoing ops []
  rw [Reduction.matrix_inputOrder, h.matrix hG, h.history, hs]
  ext i j : 1
  rw [submatrix_apply, mul_apply, mul_apply]
  refine Finset.sum_congr rfl fun k _ => ?_
  have hj : Operation.permutation ops (undoing (Operation.recordAll ops []) j) = j :=
    Equiv.congr_fun hundo j
  rw [submatrix_apply, hj]
  rfl

end Trace

/-! ## Forward elimination -/

theorem ForwardStep.faithful {m : System Rat n} {op : Operation Rat n} (h : ForwardStep m op) :
    op.Faithful m := by
  cases h with
  | swapRows i j => trivial
  | swapColumns i j => trivial
  | scale hf =>
    obtain ⟨hne, rfl⟩ := Complex.inverse_ok.mp hf
    exact mul_inv_cancel₀ hne
  | addScaled hij hq =>
    obtain ⟨hne, rfl⟩ := Complex.div_ok.mp hq
    refine ⟨Fin.ne_of_lt hij, ?_⟩
    rw [mul_neg, mul_div_cancel₀ _ hne, add_neg_cancel]

/-- The system in row echelon form is the given one multiplied by an invertible matrix, once its
columns are put back in the order of the input. -/
theorem reachEchelon_matrix {m : System Rat n} {r : Option Nat}
    (h : reachEchelon { system := m } = .ok r e) :
    IsUnit (Operation.product e.recorded).det ∧
      e.inputOrder.matrix = Operation.product e.recorded * m.matrix ∧
      e.system.constants.get = Operation.product e.recorded *ᵥ m.constants.get := by
  obtain ⟨ops, ht⟩ := reachEchelon_trace h
  have hops : e.recorded = ops := ht.recorded
  rw [hops]
  have hG : ∀ m (op : Operation Rat n), ForwardStep m op → op.Faithful m :=
    fun _ _ => ForwardStep.faithful
  have hmatrix := ht.matrix_inputOrder hG rfl
  have hconstants := ht.constants
  exact ⟨ht.isUnit_det hG, hmatrix, hconstants⟩

end Reduction

end GaussJordan
