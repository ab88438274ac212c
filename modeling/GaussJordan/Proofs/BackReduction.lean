import GaussJordan.Proofs.Echelon
import GaussJordan.Proofs.ElementaryMatrix
import GaussJordan.Proofs.Rank

/-!
# GaussJordan.Proofs.BackReduction

What the reduction above the pivots does.

Over any scalar type it is a pass over the columns from the last to the first
(`backReduce_invariant`), and its operations are those `BackStep` allows. They subtract a multiple
of a lower row from a higher one, so over the rationals their product is unit upper triangular,
whatever the system (`backReduce_product`).

The multiple is the term to be cleared itself and not its quotient by the pivot. That is right for a
unit upper triangular system only. With tolerance zero such a system is reduced to the identity
(`backReduce_identity`).
-/

namespace GaussJordan

variable {α : Type} {n : Nat}

namespace Reduction

section

variable [Scalar α]

theorem reduceRow_ok {column row : Fin n} {s t : Reduction α n} {c : Unit}
    (h : reduceRow column row s = .ok c t) :
    Cleared (-(s.system.coefficient row column)) column row s t := by
  simp only [reduceRow, bind_ok, get_ok] at h
  obtain ⟨_, _, ⟨rfl, rfl⟩, h⟩ := h
  split at h
  · rename_i hz
    exact .inl ⟨hz, (pure_ok.mp h).2.symm⟩
  · rename_i hz
    exact .inr ⟨by simpa using hz, perform_ok h⟩

theorem mem_rowsAbove {column i : Fin n} : i ∈ rowsAbove column ↔ i < column := by
  simp [rowsAbove]

theorem rowsAbove_nodup (column : Fin n) : (rowsAbove column).Nodup := by
  rw [rowsAbove, List.nodup_reverse]
  exact (List.nodup_finRange n).filter _

/-- The turn of a column: it is cleared in the rows above its diagonal term. -/
def ColumnReduced (column : Fin n) (s t : Reduction α n) : Prop :=
  (rowsAbove column).forM (reduceRow column) s = .ok () t

/-- The rows from the diagonal down stay; each row above has its term in the column cleared, unless
it counts as zero. -/
theorem ColumnReduced.rows {column : Fin n} {s t : Reduction α n} (h : ColumnReduced column s t) :
    t.system.tolerance = s.system.tolerance ∧
    (∀ i : Fin n, column ≤ i → t.system.row i = s.system.row i) ∧
    ∀ i : Fin n, i < column → t.system.row i =
      (s.system.row i).cleared s.system.tolerance (-(s.system.coefficient i column)) column
        (s.system.row column) := by
  have hf : ∀ (i : Fin n) (u v : Reduction α n), reduceRow column i u = .ok () v →
      ∃ factor, factor = -(u.system.row i)[column.castSucc] ∧ Cleared factor column i u v :=
    fun i u v hi => ⟨_, rfl, reduceRow_ok hi⟩
  obtain ⟨htol, hout, hin⟩ := forM_cleared (F := fun _ r factor => factor = -r[column.castSucc])
    hf _ (rowsAbove_nodup column) (by simp [mem_rowsAbove]) s t h
  refine ⟨htol, ?_, ?_⟩
  · intro i hi
    apply hout
    simpa [mem_rowsAbove] using hi
  · intro i hi
    obtain ⟨_, rfl, hrow⟩ := hin i (mem_rowsAbove.mpr hi)
    exact hrow

/-- What every column's turn carries on, from the last column to the first, holds at the end. -/
theorem forM_columns_invariant {I : Nat → Reduction α n → Prop}
    (hI : ∀ (column : Fin n) (s t : Reduction α n), I (column + 1) s → ColumnReduced column s t →
      I column t) :
    ∀ (k : Nat) (s t : Reduction α n), k ≤ n → I k s →
      ((List.finRange n).take k).reverse.forM
        (fun column => (rowsAbove column).forM (reduceRow column)) s = .ok () t → I 0 t := by
  intro k
  induction k with
  | zero =>
    intro s t _ hs h
    obtain rfl := forM_nil_ok.mp h
    exact hs
  | succ k ih =>
    intro s t hk hs h
    rw [List.take_succ_eq_append_getElem (by simpa using hk), List.reverse_append,
      List.reverse_singleton, List.singleton_append, List.getElem_finRange] at h
    obtain ⟨u, hcol, hrest⟩ := forM_cons_ok.mp h
    exact ih u t (by omega) (hI _ s u hs hcol) hrest

theorem backReduce_invariant {I : Nat → Reduction α n → Prop}
    (hI : ∀ (column : Fin n) (s t : Reduction α n), I (column + 1) s → ColumnReduced column s t →
      I column t)
    (hagree : ∀ s t, Agree s t → I n s → I n t) {s t : Reduction α n} {c : Unit} (hs : I n s)
    (h : backReduce s = .ok c t) : I 0 t := by
  simp only [backReduce, bind_ok] at h
  obtain ⟨_, u, henter, h⟩ := h
  refine forM_columns_invariant hI n u t (Nat.le_refl n) (hagree s u (enter_ok henter) hs) ?_
  rwa [List.take_of_length_le (by simp)]

/-- The operations the reduction above the pivots may perform: a row is added to a higher row,
multiplied by minus the term of the higher row in its column. -/
inductive BackStep (m : System α n) : Operation α n → Prop where
  | addScaled {i j : Fin n} : j < i → BackStep m (.addScaled (-(m.coefficient j i)) i j)

theorem BackStep.exchanges {m : System α n} {op : Operation α n} (h : BackStep m op) :
    op.exchanges = [] := by
  cases h
  rfl

theorem backReduce_trace {s t : Reduction α n} {c : Unit} (h : backReduce s = .ok c t) :
    ∃ ops, Trace BackStep s ops t := by
  refine backReduce_invariant (I := fun _ u => ∃ ops, Trace BackStep s ops u) ?_ ?_
    ⟨[], .refl s⟩ h
  · rintro column u v ⟨ops, hu⟩ hcol
    have hrows : ∀ i ∈ rowsAbove column, ∀ u v : Reduction α n, True →
        reduceRow column i u = .ok () v → True ∧ ∃ ops, Trace BackStep u ops v :=
      fun i hi _ _ _ hrow =>
        ⟨trivial, (reduceRow_ok hrow).trace fun _ => .addScaled (mem_rowsAbove.mp hi)⟩
    obtain ⟨_, ops', hv⟩ :=
      forM_trace (I := fun _ => True) (rowsAbove column) hrows u v trivial hcol
    exact ⟨ops ++ ops', hu.trans hv⟩
  · rintro u v ha ⟨ops, hu⟩
    exact ⟨ops, hu.then_agree ha⟩

end

/-! ## Exact arithmetic -/

open Matrix

variable {s t : Reduction Rat n} {c : Unit}

namespace BackStep

variable {m : System Rat n} {op : Operation Rat n}

theorem triangular (h : BackStep m op) : Triangular n op.matrix := by
  cases h with
  | addScaled hji => exact .transvection hji _

theorem faithful (h : BackStep m op) (hm : Triangular n m.matrix) : op.Faithful m := by
  cases h with
  | @addScaled i j hji =>
    refine ⟨Fin.ne_of_gt hji, ?_⟩
    have hpivot : m.coefficient i i = 1 := hm.pivot i i.isLt
    rw [hpivot, one_mul, add_neg_cancel]

theorem triangular_apply (h : BackStep m op) (hm : Triangular n m.matrix) :
    Triangular n (op.apply m).matrix := by
  rw [Operation.matrix_apply_of_exchanges (h.faithful hm) h.exchanges]
  exact h.triangular.mul hm

end BackStep

theorem Trace.triangular_product {ops : List (Operation Rat n)} (h : Trace BackStep s ops t) :
    Triangular n (Operation.product ops) := by
  induction h with
  | nil => exact .one n
  | cons hg _ _ ih => exact ih.mul hg.triangular

/-- The operations add up to a unit upper triangular matrix. The constant terms are multiplied by
it, and so are the coefficients if they are unit upper triangular to begin with. -/
theorem backReduce_product (h : backReduce s = .ok c t) :
    ∃ ops, t.recorded = s.recorded ++ ops ∧ t.columnSwaps = s.columnSwaps ∧
      Triangular n (Operation.product ops) ∧
      t.system.constants.get = Operation.product ops *ᵥ s.system.constants.get ∧
      (Triangular n s.system.matrix →
        t.system.matrix = Operation.product ops * s.system.matrix) := by
  obtain ⟨ops, ht⟩ := backReduce_trace h
  have hhist : t.history = s.history := ht.history_eq fun _ _ => BackStep.exchanges
  refine ⟨ops, ht.recorded, ?_, ht.triangular_product, ht.constants, fun hs => ?_⟩
  · have hcount := ht.columnSwaps
    rw [hhist] at hcount
    omega
  · have ht := ht.with_invariant (fun _ _ hg hm => hg.triangular_apply hm) hs
    exact ht.matrix_of_exchanges fun _ _ hg => ⟨hg.1.faithful hg.2, hg.1.exchanges⟩

/-- With tolerance zero a turn clears its column above the diagonal and changes nothing else, if
the column's own row is that of the identity. -/
theorem ColumnReduced.coefficient {column : Fin n} (h : ColumnReduced column s t)
    (htol : s.system.tolerance = 0) (hpivot : s.system.coefficient column column = 1)
    (hrow : ∀ l, l ≠ column → s.system.coefficient column l = 0) (i l : Fin n) :
    t.system.coefficient i l =
      if i < column ∧ l = column then 0 else s.system.coefficient i l := by
  obtain ⟨_, hsame, habove⟩ := h.rows
  by_cases hi : i < column
  · have hfaithful : s.system.coefficient i column +
        s.system.coefficient column column * -(s.system.coefficient i column) = 0 := by
      rw [hpivot, one_mul, add_neg_cancel]
    have hcoef : t.system.coefficient i l = s.system.coefficient i l +
        s.system.coefficient column l * -(s.system.coefficient i column) := by
      rw [System.coefficient, System.term, habove i hi, htol]
      exact Row.get_cleared hfaithful l
    by_cases hl : l = column
    · subst hl
      rw [hcoef, hfaithful, if_pos ⟨hi, rfl⟩]
    · rw [hcoef, hrow l hl, zero_mul, add_zero, if_neg (fun h => hl h.2)]
  · rw [if_neg (fun h => hi h.1), System.coefficient, System.term, hsame i (not_lt.mp hi)]
    rfl

/-- With tolerance zero a unit upper triangular system is reduced to the identity. -/
theorem backReduce_identity (htol : s.system.tolerance = 0) (hs : Triangular n s.system.matrix)
    (h : backReduce s = .ok c t) : t.system.matrix = 1 := by
  have hI := backReduce_invariant
    (I := fun k u => u.system.tolerance = 0 ∧ Triangular n u.system.matrix ∧
      ∀ i j : Fin n, k ≤ j.val → i < j → u.system.coefficient i j = 0)
    ?_ (fun _ _ ha hu => by rwa [ha.system]) ⟨htol, hs, fun _ j hj _ => absurd j.isLt (by omega)⟩ h
  · obtain ⟨_, ht, hzero⟩ := hI
    ext i j : 1
    rcases lt_trichotomy i j with hij | rfl | hji
    · rw [one_apply_ne (ne_of_lt hij)]
      exact hzero i j (Nat.zero_le _) hij
    · rw [one_apply_eq, ht.pivot i i.isLt]
    · rw [one_apply_ne (ne_of_gt hji), ht.below i j j.isLt hji]
  · rintro column u v ⟨htol, hu, hzero⟩ hcol
    have hrow : ∀ l, l ≠ column → u.system.coefficient column l = 0 := by
      intro l hl
      rcases lt_or_gt_of_ne hl with hlt | hgt
      · exact hu.below column l l.isLt hlt
      · exact hzero column l hgt hgt
    have hv := hcol.coefficient htol (hu.pivot column column.isLt) hrow
    refine ⟨hcol.rows.1.trans htol, ⟨fun i hi => ?_, fun i j hj hji => ?_⟩, fun i j hj hij => ?_⟩
    · rw [System.matrix_eq, hv, if_neg (fun h => absurd h.1 (by rw [h.2]; exact lt_irrefl _))]
      exact hu.pivot i hi
    · rw [System.matrix_eq, hv,
        if_neg (fun h => absurd h.1 (by rw [← h.2]; exact not_lt.mpr (le_of_lt hji)))]
      exact hu.below i j hj hji
    · rw [hv]
      split
      · rfl
      · rename_i hne
        refine hzero i j ?_ hij
        have : j.val ≠ column.val := fun he => hne ⟨(Fin.ext he : j = column) ▸ hij, Fin.ext he⟩
        omega

/-! ## A run that ends with a solution -/

/-- From the row echelon form `e` the operations `ops` above the pivots led to the end `t`, and the
constant terms there were returned. -/
structure SolvedFrom (check : Check Rat n) (e : Reduction Rat n) (ops : List (Operation Rat n))
    (report : Report Rat n) (t : Reduction Rat n) : Prop where
  counts : ∀ i, e.system.counts i = true
  recorded : t.recorded = e.recorded ++ ops
  triangular : Triangular n (Operation.product ops)
  constants : t.system.constants.get = Operation.product ops *ᵥ e.inputOrder.constants.get
  matrix : Triangular n e.inputOrder.matrix →
    t.system.matrix = Operation.product ops * e.inputOrder.matrix
  solution : report.solution = some t.system.constants
  columnSwaps : report.columnSwaps = e.history.length
  validation : report.validation = check.verdict report.solution

theorem SolvedFrom.isUnit_det {check : Check Rat n} {e : Reduction Rat n}
    {ops : List (Operation Rat n)} {report : Report Rat n}
    (h : SolvedFrom check e ops report t) : IsUnit (Operation.product ops).det := by
  rw [h.triangular.det_eq_one]
  exact isUnit_one

theorem solve_solved {m : System Rat n} {verify : Bool} {verifyTolerance : Rat}
    {report : Report Rat n} (h : m.solve verify verifyTolerance = (.ok report, t))
    (hsolved : report.classification = .solved) :
    ∃ k e ops, reachEchelon { system := m } = .ok (some k) e ∧
      SolvedFrom ⟨verify, verifyTolerance, m⟩ e ops report t := by
  obtain ⟨k, e, u, v, hreach, hend, hu, hops, hucols, hback, ha, hx, hvalid, hcols⟩ :=
    solve_ok_of_solved (System.solve_ok.mp h) hsolved
  obtain ⟨ops, hrec, hcount, htri, hconst, hmatrix⟩ := backReduce_product hback
  obtain ⟨_, htrace⟩ := reachEchelon_trace hreach
  have hexchanges : e.columnSwaps = e.history.length := by
    have htotal := htrace.columnSwaps
    simpa using htotal
  rw [hu] at hconst hmatrix
  refine ⟨k, e, ops, hreach, hend.solved_iff.mp hsolved, ?_, htri, ?_, ?_, hx, ?_, hvalid⟩
  · rw [Reduction.recorded, ha.operations]
    rw [Reduction.recorded, Reduction.recorded, hops] at hrec
    exact hrec
  · rw [ha.system, hconst]
  · rw [ha.system]
    exact hmatrix
  · rw [hcols, ha.columnSwaps, hcount, hucols, hexchanges]

end Reduction

end GaussJordan
