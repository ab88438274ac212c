import GaussJordan.Proofs.BackReduction

/-!
# GaussJordan.Proofs.RowFactors

The factors of the reduction above the pivots, over the rationals.

The turn of a column subtracts its row from the rows above (`Subtracted`). A row is complete when
its turn comes, so all turns together subtract row `l` from row `i` a number of times that depends
on the two rows only. These factors make up a strictly upper triangular matrix `F`, and the
operations are undone by the identity and `F` (`backReduce_factors`).

The factors are those of the rows as they stand, so they tell what a turn leaves: above the diagonal
a term is its factor, what came from the terms below the diagonal, and something that counts as zero
(`Reduced`).
-/

namespace GaussJordan

open Matrix

variable {n : Nat}

namespace Reduction

/-! ## Matrices -/

/-- The part of a matrix below the diagonal. -/
def below (M : Matrix (Fin n) (Fin n) (Complex Rat)) : Matrix (Fin n) (Fin n) (Complex Rat) :=
  of fun i j => if j < i then M i j else 0

/-- The matrix with the numbers `f` in one column and zeros elsewhere. -/
def inColumn (column : Fin n) (f : Fin n → Complex Rat) : Matrix (Fin n) (Fin n) (Complex Rat) :=
  vecMulVec f (Pi.single column 1)

section

variable {column : Fin n} {f : Fin n → Complex Rat}

theorem inColumn_self (i : Fin n) : inColumn column f i column = f i := by
  rw [inColumn, vecMulVec_apply, Pi.single_eq_same, mul_one]

theorem inColumn_of_ne {j : Fin n} (hj : j ≠ column) (i : Fin n) : inColumn column f i j = 0 := by
  rw [inColumn, vecMulVec_apply, Pi.single_eq_of_ne hj, mul_zero]

theorem inColumn_mul_apply (M : Matrix (Fin n) (Fin n) (Complex Rat)) (i j : Fin n) :
    (inColumn column f * M) i j = f i * M column j := by
  rw [inColumn, vecMulVec_mul, vecMulVec_apply, single_one_vecMul]
  rfl

theorem mul_inColumn (M : Matrix (Fin n) (Fin n) (Complex Rat)) :
    M * inColumn column f = inColumn column (M *ᵥ f) :=
  mul_vecMulVec M f _

/-- Subtracting the row `a` times from row `j` first takes care of one more number in the column. -/
theorem transvection_mul_inColumn {j : Fin n} (hj : j ≠ column) (hfj : f j = 0)
    (hfc : f column = 0) (a : Complex Rat) :
    transvection j column (-a) * (1 + inColumn column (Function.update f j a)) =
      1 + inColumn column f := by
  have hupdate : 1 + inColumn column (Function.update f j a) =
      transvection j column a + inColumn column f := by
    rw [transvection, add_assoc]
    congr 1
    ext k l : 1
    rw [Matrix.add_apply]
    by_cases hl : l = column
    · rw [hl, inColumn_self, inColumn_self]
      by_cases hk : k = j
      · rw [hk, Function.update_self, single_apply_same, hfj, add_zero]
      · rw [Function.update_of_ne hk, single_apply_of_row_ne (Ne.symm hk), zero_add]
    · rw [inColumn_of_ne hl, inColumn_of_ne hl, single_apply_of_col_ne _ _ (Ne.symm hl), add_zero]
  have hkept : transvection j column (-a) *ᵥ f = f := by
    have hzero : Function.update (0 : Fin n → Complex Rat) j 0 = 0 := Function.update_eq_self j 0
    rw [transvection, add_mulVec, one_mulVec, single_mulVec, hfc, mul_zero, hzero, add_zero]
  rw [hupdate, mul_add, transvection_mul_transvection_same _ _ hj, neg_add_cancel,
    transvection_zero, mul_inColumn, hkept]

end

/-! ## The turn of a column -/

variable {s t : Reduction Rat n} {c : Unit}

/-- From each row `i` of a list, row `column` was subtracted `f i` times, which takes away what
stood in the column but for what counts as zero. -/
structure Subtracted (column : Fin n) (rows : List (Fin n)) (f : Fin n → Complex Rat)
    (ops : List (Operation Rat n)) (s t : Reduction Rat n) : Prop where
  tolerance : t.system.tolerance = s.system.tolerance
  recorded : t.recorded = s.recorded ++ ops
  outside : ∀ i, i ∉ rows → f i = 0 ∧ t.system.row i = s.system.row i
  inverse : Operation.product ops * (1 + inColumn column f) = 1
  matrix : ∀ i j, j ≠ column →
    t.system.matrix i j = s.system.matrix i j - f i * s.system.matrix column j
  left : ∀ i ∈ rows,
    (s.system.matrix i column - f i).isZero (max s.system.tolerance 0) = true

namespace Subtracted

variable {column : Fin n} {rows : List (Fin n)} {f : Fin n → Complex Rat} {u : Reduction Rat n}
variable {ops : List (Operation Rat n)}

theorem nil (column : Fin n) (s : Reduction Rat n) : Subtracted column [] 0 [] s s := by
  refine ⟨rfl, (List.append_nil _).symm, fun _ _ => ⟨rfl, rfl⟩, ?_, fun i j _ => ?_, nofun⟩
  · rw [Operation.product, Matrix.one_mul, inColumn, zero_vecMulVec, add_zero]
  · rw [Pi.zero_apply, zero_mul, sub_zero]

/-- A row whose term counts as zero is left alone. -/
theorem skip (h : Subtracted column rows f ops s t) {j : Fin n} (hj : j ∉ rows)
    (hzero : (s.system.coefficient j column).isZero s.system.tolerance = true) :
    Subtracted column (j :: rows) f ops s t := by
  refine ⟨h.tolerance, h.recorded, fun i hi => h.outside i (List.not_mem_of_not_mem_cons hi),
    h.inverse, h.matrix, fun i hi => ?_⟩
  rcases List.mem_cons.mp hi with rfl | hi
  · rw [(h.outside i hj).1, sub_zero]
    exact Complex.isZero_max hzero
  · exact h.left i hi

/-- The rows from the diagonal down take no part in the turn of a column. -/
theorem of_le (h : Subtracted column (rowsAbove column) f ops s t) {i : Fin n} (hi : column ≤ i) :
    f i = 0 ∧ ∀ j, t.system.matrix i j = s.system.matrix i j := by
  obtain ⟨hzero, hrow⟩ := h.outside i fun hmem =>
    absurd (mem_rowsAbove.mp hmem) (not_lt.mpr hi)
  refine ⟨hzero, fun j => ?_⟩
  rw [System.matrix_eq, System.coefficient, System.term, hrow]
  rfl

/-- The source row is subtracted from row `j` as often as the term there says. -/
theorem cons (h : Subtracted column rows f ops u t) {j : Fin n} (hj : j ∉ rows) (hjc : j ≠ column)
    (hcolumn : column ∉ rows)
    (hp : Performed (.addScaled (-(s.system.coefficient j column)) column j) s u) :
    Subtracted column (j :: rows) (Function.update f j (s.system.coefficient j column))
      (.addScaled (-(s.system.coefficient j column)) column j :: ops) s t := by
  have hfj := (h.outside j hj).1
  have htol : u.system.tolerance = s.system.tolerance := by
    rw [hp.system, Operation.tolerance_apply]
  have hentry : ∀ i l, u.system.matrix i l = if j = i then
      (if column = l then 0 else s.system.matrix j l +
        s.system.matrix column l * -(s.system.coefficient j column)) else s.system.matrix i l := by
    intro i l
    rw [System.matrix_eq, hp.system, Operation.coefficient_apply_addScaled]
    rfl
  refine ⟨h.tolerance.trans htol, ?_, fun i hi => ?_, ?_, fun i l hl => ?_, fun i hi => ?_⟩
  · rw [h.recorded, hp.recorded, List.append_assoc]
    rfl
  · rw [List.mem_cons, not_or] at hi
    rw [Function.update_of_ne hi.1, (h.outside i hi.2).2, hp.system,
      Operation.row_apply_addScaled, if_neg (Ne.symm hi.1)]
    exact ⟨(h.outside i hi.2).1, rfl⟩
  · rw [Operation.product, Operation.matrix, Matrix.mul_assoc,
      transvection_mul_inColumn hjc hfj (h.outside column hcolumn).1, h.inverse]
  · rw [h.matrix i l hl, hentry, hentry, if_neg hjc]
    by_cases hi : i = j
    · rw [hi, if_pos rfl, if_neg (Ne.symm hl), hfj, Function.update_self]
      ring
    · rw [if_neg (Ne.symm hi), Function.update_of_ne hi]
  · by_cases hij : i = j
    · rw [hij, Function.update_self, System.matrix_eq, sub_self]
      exact Complex.isZero_zero (le_max_right _ _)
    · have hleft := h.left i ((List.mem_cons.mp hi).resolve_left hij)
      rw [hentry, if_neg (Ne.symm hij), htol] at hleft
      rwa [Function.update_of_ne hij]

end Subtracted

theorem forM_subtracted {column : Fin n} {rows : List (Fin n)} (hnodup : rows.Nodup)
    (hcolumn : column ∉ rows) (h : rows.forM (reduceRow column) s = .ok c t) :
    ∃ f ops, Subtracted column rows f ops s t := by
  induction rows generalizing s with
  | nil =>
    obtain rfl := forM_nil_ok.mp h
    exact ⟨0, [], .nil column s⟩
  | cons j rest ih =>
    obtain ⟨u, hj, hrest⟩ := forM_cons_ok.mp h
    obtain ⟨hjr, hnodup⟩ := List.nodup_cons.mp hnodup
    rw [List.mem_cons, not_or] at hcolumn
    obtain ⟨f, ops, hf⟩ := ih hnodup hcolumn.2 hrest
    rcases reduceRow_ok hj with ⟨hzero, rfl⟩ | ⟨_, hp⟩
    · exact ⟨f, ops, hf.skip hjr (Complex.isZero_neg.mp hzero)⟩
    · exact ⟨_, _, hf.cons hjr (Ne.symm hcolumn.1) hcolumn.2 hp⟩

theorem ColumnReduced.subtracted {column : Fin n} (h : ColumnReduced column s t) :
    ∃ f ops, Subtracted column (rowsAbove column) f ops s t :=
  forM_subtracted (rowsAbove_nodup column) (by simp [mem_rowsAbove]) h

/-! ## All columns -/

/-- In the columns from `k` on the rows of `m` were reduced to those of `r`, where row `l` was
subtracted `F i l` times from row `i`. In such a column a term above the diagonal is what was
subtracted from it, what came from the terms below the diagonal, and something that counts as
zero. -/
structure Reduced (k : Nat) (m r : System Rat n) (ops : List (Operation Rat n))
    (F : Matrix (Fin n) (Fin n) (Complex Rat)) : Prop where
  upper : ∀ i j, j ≤ i → F i j = 0
  columns : ∀ i j : Fin n, j.val < k → F i j = 0
  inverse : Operation.product ops * (1 + F) = 1
  kept : ∀ i j : Fin n, j.val < k ∨ j ≤ i → m.matrix i j = r.matrix i j + (F * r.matrix) i j
  above : ∀ i j : Fin n, k ≤ j.val → i < j →
    ((m.matrix - F - F * below r.matrix) i j).isZero (max m.tolerance 0) = true

namespace Reduced

variable {k : Nat} {column : Fin n} {m r : System Rat n} {ops more : List (Operation Rat n)}
variable {F : Matrix (Fin n) (Fin n) (Complex Rat)} {f : Fin n → Complex Rat}

theorem start (m : System Rat n) : Reduced n m m [] 0 := by
  refine ⟨fun _ _ _ => rfl, fun _ _ _ => rfl, ?_, fun i j _ => ?_, fun i j hj => ?_⟩
  · rw [Operation.product, Matrix.one_mul, add_zero]
  · rw [Matrix.zero_mul, Matrix.zero_apply, add_zero]
  · exact absurd j.isLt (not_lt.mpr hj)

/-- Only the rows from `k` on are met by the factors. -/
theorem mul_apply_congr (h : Reduced k m r ops F) {M N : Matrix (Fin n) (Fin n) (Complex Rat)}
    {j : Fin n} (hrows : ∀ l : Fin n, k ≤ l.val → M l j = N l j) (i : Fin n) :
    (F * M) i j = (F * N) i j := by
  rw [mul_apply, mul_apply]
  refine Finset.sum_congr rfl fun l _ => ?_
  rcases Nat.lt_or_ge l.val k with hl | hl
  · rw [h.columns i l hl, zero_mul, zero_mul]
  · rw [hrows l hl]

section

variable (h : Reduced (column + 1) m s.system ops F)
variable (hf : Subtracted column (rowsAbove column) f more s t)

include h hf

theorem mul_matrix_eq (i j : Fin n) :
    (F * t.system.matrix) i j = (F * s.system.matrix) i j :=
  h.mul_apply_congr (fun _ hl => (hf.of_le (Nat.le_of_succ_le hl)).2 j) i

theorem mul_below_eq (i j : Fin n) :
    (F * below t.system.matrix) i j = (F * below s.system.matrix) i j := by
  refine h.mul_apply_congr (fun l hl => ?_) i
  rw [below, below, of_apply, of_apply, (hf.of_le (Nat.le_of_succ_le hl)).2 j]

/-- The factors so far do not meet the rows of the turn, so the two sets of factors add up. -/
theorem step_inverse : Operation.product (ops ++ more) * (1 + (F + inColumn column f)) = 1 := by
  have hmul : F *ᵥ f = 0 := by
    ext1 i
    change ∑ l, F i l * f l = 0
    refine Finset.sum_eq_zero fun l _ => ?_
    rcases Nat.lt_or_ge l.val (column + 1) with hl | hl
    · rw [h.columns i l hl, zero_mul]
    · rw [(hf.of_le (Nat.le_of_succ_le hl)).1, mul_zero]
  have hzero : F * inColumn column f = 0 := by
    rw [mul_inColumn, hmul, inColumn, zero_vecMulVec]
  have hproduct : 1 + (F + inColumn column f) = (1 + F) * (1 + inColumn column f) := by
    rw [add_mul, one_mul, mul_add, mul_one, hzero]
    abel
  rw [Operation.product_append, hproduct, Matrix.mul_assoc,
    ← Matrix.mul_assoc (Operation.product ops), h.inverse, Matrix.one_mul, hf.inverse]

theorem step_kept {i j : Fin n} (hij : j.val < column.val ∨ j ≤ i) :
    m.matrix i j = t.system.matrix i j + ((F + inColumn column f) * t.system.matrix) i j := by
  rw [h.kept i j (hij.imp Nat.lt_succ_of_lt id), add_mul, Matrix.add_apply, inColumn_mul_apply,
    mul_matrix_eq h hf, (hf.of_le (le_refl _)).2]
  rcases lt_or_ge i column with hi | hi
  · have hjc : j ≠ column := by
      rcases hij with hj | hji
      · exact Fin.ne_of_lt hj
      · exact ne_of_lt (lt_of_le_of_lt hji hi)
    rw [hf.matrix i j hjc]
    ring
  · obtain ⟨hzero, hsame⟩ := hf.of_le hi
    rw [hsame, hzero, zero_mul, add_zero]

theorem step_above (htol : s.system.tolerance = m.tolerance) {i j : Fin n}
    (hj : column.val ≤ j.val) (hij : i < j) :
    ((m.matrix - (F + inColumn column f) -
      (F + inColumn column f) * below t.system.matrix) i j).isZero (max m.tolerance 0) = true := by
  have hentry : (m.matrix - (F + inColumn column f) -
      (F + inColumn column f) * below t.system.matrix) i j =
      (m.matrix - F - F * below s.system.matrix) i j - inColumn column f i j := by
    have hzero : below t.system.matrix column j = 0 := if_neg (not_lt.mpr hj)
    rw [add_mul]
    simp only [Matrix.sub_apply, Matrix.add_apply, inColumn_mul_apply, hzero, mul_zero,
      mul_below_eq h hf]
    ring
  rw [hentry]
  rcases eq_or_ne j column with rfl | hjc
  · -- nothing was subtracted in this column before, so `kept` says what stands there
    have hbelow : (F * below s.system.matrix) i j = (F * s.system.matrix) i j :=
      h.mul_apply_congr (fun l hl => if_pos (Fin.lt_def.mpr hl)) i
    have hleft := hf.left i (mem_rowsAbove.mpr hij)
    rw [htol] at hleft
    rw [inColumn_self, Matrix.sub_apply, Matrix.sub_apply, hbelow,
      h.kept i j (.inl (Nat.lt_succ_self _)), h.columns i j (Nat.lt_succ_self _), sub_zero,
      add_sub_cancel_right]
    exact hleft
  · rw [inColumn_of_ne hjc, sub_zero]
    exact h.above i j (lt_of_le_of_ne hj (Fin.val_ne_of_ne (Ne.symm hjc))) hij

/-- A turn adds its column to the factors. -/
theorem step (htol : s.system.tolerance = m.tolerance) :
    Reduced column m t.system (ops ++ more) (F + inColumn column f) := by
  refine ⟨fun i j hji => ?_, fun i j hj => ?_, h.step_inverse hf, fun _ _ => h.step_kept hf,
    fun _ _ => h.step_above hf htol⟩
  · rw [Matrix.add_apply, h.upper i j hji, zero_add]
    by_cases hjc : j = column
    · rw [hjc, inColumn_self, (hf.of_le (hjc ▸ hji)).1]
    · exact inColumn_of_ne hjc i
  · rw [Matrix.add_apply, h.columns i j (Nat.lt_succ_of_lt hj), zero_add]
    exact inColumn_of_ne (Fin.ne_of_lt hj) i

end

end Reduced

/-- The operations add up to the inverse of the identity and the factors. -/
theorem backReduce_factors (h : backReduce s = .ok c t) :
    ∃ ops F, t.recorded = s.recorded ++ ops ∧ Reduced 0 s.system t.system ops F := by
  have hend := backReduce_invariant
    (I := fun k u => ∃ ops F, u.recorded = s.recorded ++ ops ∧
      u.system.tolerance = s.system.tolerance ∧ Reduced k s.system u.system ops F) ?_ ?_
    ⟨[], 0, (List.append_nil _).symm, rfl, .start s.system⟩ h
  · obtain ⟨ops, F, hrec, _, hreduced⟩ := hend
    exact ⟨ops, F, hrec, hreduced⟩
  · rintro column u v ⟨ops, F, hrec, htol, hreduced⟩ hcol
    obtain ⟨f, more, hf⟩ := hcol.subtracted
    refine ⟨ops ++ more, F + inColumn column f, ?_, hf.tolerance.trans htol,
      hreduced.step hf htol⟩
    rw [hf.recorded, hrec, List.append_assoc]
  · rintro u v ha ⟨ops, F, hrec, hreduced⟩
    refine ⟨ops, F, ?_, by rwa [ha.system]⟩
    rw [← hrec, recorded, ha.operations, recorded]

/-- Where nothing stands below the diagonal, nothing comes from there. -/
theorem Reduced.above_of_below {m r : System Rat n} {ops : List (Operation Rat n)}
    {F : Matrix (Fin n) (Fin n) (Complex Rat)} (h : Reduced 0 m r ops F)
    (hm : ∀ i j : Fin n, j < i → m.coefficient i j = 0) {i j : Fin n} (hij : i < j) :
    ((m.matrix - F) i j).isZero (max m.tolerance 0) = true := by
  have hr : ∀ k l : Fin n, l < k → r.matrix k l = 0 := by
    -- a row takes over from the rows below it only, so the induction is from the last row up
    intro k
    induction k using WellFoundedGT.induction with
    | ind k ih =>
      intro l hl
      have hkept := h.kept k l (.inr (le_of_lt hl))
      have hsum : (F * r.matrix) k l = 0 := by
        rw [mul_apply]
        refine Finset.sum_eq_zero fun p _ => ?_
        rcases lt_or_ge k p with hp | hp
        · rw [ih p hp l (lt_trans hl hp), mul_zero]
        · rw [h.upper k p hp, zero_mul]
      rw [hsum, add_zero, System.matrix_eq, hm k l hl] at hkept
      exact hkept.symm
  have hbelow : below r.matrix = 0 := by
    ext k l : 1
    rw [below, of_apply]
    split
    · rename_i hl
      exact hr k l hl
    · rfl
  have habove := h.above i j (Nat.zero_le _) hij
  rwa [hbelow, Matrix.mul_zero, sub_zero] at habove

/-- The factors of a run that ends with a solution. -/
theorem solve_factors {m : System Rat n} {verify : Bool} {verifyTolerance : Rat}
    {report : Report Rat n} (h : m.solve verify verifyTolerance = (.ok report, t))
    (hsolved : report.classification = .solved) :
    ∃ k e ops F, reachEchelon { system := m } = .ok (some k) e ∧
      t.recorded = e.recorded ++ ops ∧ Reduced 0 e.inputOrder t.system ops F := by
  obtain ⟨k, e, u, v, hreach, _, hu, hops, _, hback, ha, _⟩ :=
    solve_ok_of_solved (System.solve_ok.mp h) hsolved
  obtain ⟨ops, F, hrec, hreduced⟩ := backReduce_factors hback
  refine ⟨k, e, ops, F, hreach, ?_, ?_⟩
  · rw [recorded, ha.operations]
    rw [recorded, recorded, hops] at hrec
    exact hrec
  · rw [ha.system, ← hu]
    exact hreduced

end Reduction

end GaussJordan
