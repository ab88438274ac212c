import GaussJordan.Proofs.BackReduction
import GaussJordan.Proofs.DoubleUnits
import GaussJordan.Proofs.Observation
import GaussJordan.Proofs.Settled

/-!
# GaussJordan.Proofs.ReducedForm

Runs over binary64 numbers with tolerance zero that end with a solution.

Rounding does not spoil the reduced form. What was cleared stays cleared, because a multiple of a
zero is a zero as long as the factor is finite; and the factors are finite, because every system on
the way is written. A pivot is left unscaled only if it is one.

* `Staircase k s`: the first `k` columns are reduced from the diagonal down. If columns have changed
  places, one column from `k` on is zero there, and it stays zero until there are no pivots left to
  be placed. So such a run does not end with a solution.
* `System.solve_reduced`: at the end the system compares equal to the identity, and solving it again
  changes nothing.
-/

namespace GaussJordan

variable {n : Nat} {i j : Int}

/-! ## Rows -/

namespace Row

variable {r source : Row Double n} {tol : Double} {factor : Complex Double} {column l : Fin n}

theorem coefficient_cleared (r source : Row Double n) (tol : Double) (factor : Complex Double)
    (column l : Fin n) :
    (r.cleared tol factor column source).get l.castSucc =
      if factor.isZero tol then r.get l.castSucc
      else if column = l then .zero else r.get l.castSucc + source.get l.castSucc * factor := by
  change (r.cleared tol factor column source)[l.castSucc] =
    if factor.isZero tol then r[l.castSucc]
    else if column = l then .zero else r[l.castSucc] + source[l.castSucc] * factor
  rw [cleared]
  split
  · rfl
  · rw [getElem_setTerm, getElem_add, getElem_scale]
    simp only [Fin.castSucc_inj]

/-- In a column where the source row is zero a row keeps its value. -/
theorem cleared_of_ne (hl : column ≠ l) (hfactor : factor.IsFinite)
    (hsource : (source.get l.castSucc).HasUnits 0 0) (hr : (r.get l.castSucc).HasUnits i j) :
    ((r.cleared tol factor column source).get l.castSucc).HasUnits i j := by
  rw [coefficient_cleared]
  split
  · exact hr
  · exact hr.add_zero_mul hsource hfactor

/-- The term to be cleared is zero afterwards: it is left alone only if it was. -/
theorem cleared_self (htol : tol.units? = some 0) (hr : (r.get column.castSucc).HasUnits i j)
    (hfactor : factor.HasUnits (-i) (-j)) :
    ((r.cleared tol factor column source).get column.castSucc).HasUnits 0 0 := by
  rw [coefficient_cleared]
  split
  · rename_i hzero
    have hzero := (Complex.isZero_iff_hasUnits htol).mp hzero
    obtain rfl : i = 0 := by
      have hre := Option.some.inj (hfactor.re.symm.trans hzero.re)
      omega
    obtain rfl : j = 0 := by
      have him := Option.some.inj (hfactor.im.symm.trans hzero.im)
      omega
    exact hr
  · rw [if_pos rfl]
    exact Complex.hasUnits_zero

end Row

/-! ## Systems -/

namespace System

variable {m : System Double n}

/-- Every entry of the first `k` columns compares, from the diagonal down, equal to that of the
identity. -/
structure UnitColumns (k : Nat) (m : System Double n) : Prop where
  diagonal : ∀ i : Fin n, i.val < k → (m.coefficient i i).HasUnits unitsPerOne 0
  below : ∀ i j : Fin n, j.val < k → j < i → (m.coefficient i j).HasUnits 0 0

/-- The coefficients compare equal to those of the identity. -/
structure IsReduced (m : System Double n) : Prop where
  diagonal : ∀ i, (m.coefficient i i).eq .one = true
  rest : ∀ i j, i ≠ j → (m.coefficient i j).eq .zero = true

theorem isFinite_swapRows (hm : m.IsFinite) (i j : Fin n) : (m.swapRows i j).IsFinite := by
  intro k l
  rw [term, row_swapRows]
  split
  · exact hm j l
  · split
    · exact hm i l
    · exact hm k l

theorem isFinite_swapColumns (hm : m.IsFinite) (i j : Fin n) : (m.swapColumns i j).IsFinite := by
  intro k l
  rw [term, row_swapColumns]
  induction l using Fin.lastCases with
  | last =>
    change ((m.row k).swapTerms i j).constant.IsFinite
    rw [Row.constant_swapTerms]
    exact hm k (Fin.last n)
  | cast l =>
    rw [Row.getElem_swapTerms]
    exact hm k _

/-- A reduced system of finite numbers leaves the reduction nothing to do. -/
theorem IsReduced.settled (hm : m.IsReduced) (hfinite : m.IsFinite)
    (htol : m.tolerance.units? = some 0) : m.Settled := by
  have hdiagonal : ∀ i, (m.coefficient i i).HasUnits unitsPerOne 0 := fun i =>
    Complex.eq_one_iff.mp (hm.diagonal i)
  have hrest : ∀ i j, i ≠ j → (m.coefficient i j).HasUnits 0 0 := fun i j hij =>
    Complex.eq_zero_iff.mp (hm.rest i j hij)
  have hone : (unitsPerOne : Int) ≠ 0 :=
    Int.natCast_ne_zero.mpr (Nat.ne_of_gt Double.unitsPerOne_pos)
  refine ⟨?_, ?_, fun i => ?_, fun i => ?_, fun i j hij => ?_, fun i j hij => ?_⟩
  · cases h : m.text with
    | ok picture => exact ⟨picture, rfl⟩
    | error e => exact absurd hfinite (text_fault h).2
  · cases h : m.constants.toList.mapM Complex.text with
    | ok values => exact ⟨values, rfl⟩
    | error e =>
      obtain ⟨i, hi⟩ := constants_err h
      exact absurd (hfinite i (Fin.last n)) (Complex.text_fault hi).2
  · rw [isZeroAt, ← Bool.not_eq_true, Complex.isZero_iff_hasUnits htol]
    intro hzero
    exact hone (Option.some.inj ((hdiagonal i).re.symm.trans hzero.re))
  · obtain ⟨factor, hinverse, hunits⟩ := (hdiagonal i).inverse_one
    exact ⟨factor, hinverse, (Complex.isOne_iff_hasUnits htol).mpr hunits⟩
  · obtain ⟨q, hq, hunits⟩ := (hrest i j (Fin.ne_of_gt hij)).div_one (hdiagonal j)
    exact ⟨q, hq, (Complex.isZero_iff_hasUnits htol).mpr hunits.neg⟩
  · exact (Complex.isZero_iff_hasUnits htol).mpr (hrest i j (Fin.ne_of_lt hij)).neg

end System

namespace Reduction

variable {s t : Reduction Double n} {pivot column : Fin n}

theorem isFinite_narrated (op : Operation Double n) (s t : Reduction Double n)
    (h : Narrated op s t) (_ : s.system.IsFinite) : t.system.IsFinite := by
  obtain ⟨_, _, _, hp⟩ := h.note
  exact System.isFinite_of_text hp

/-! ## Forward elimination -/

/-- The first `k` columns are reduced from the diagonal down. If columns have changed places, one of
the columns from `k` on is zero from row `k` down. -/
structure Staircase (k : Nat) (s : Reduction Double n) : Prop where
  tolerance : s.system.tolerance.units? = some 0
  finite : s.system.IsFinite
  columns : s.system.UnitColumns k
  exchanged : s.history = [] ∨ ∃ c : Fin n, k ≤ c.val ∧
    ∀ i : Fin n, k ≤ i.val → (s.system.coefficient i c).HasUnits 0 0

namespace PivotFound

theorem isFinite (h : PivotFound pivot s t) (hs : s.system.IsFinite) : t.system.IsFinite := by
  cases h with
  | here => exact hs
  | row _ hp =>
    rw [hp.system]
    exact System.isFinite_swapRows hs _ _
  | column _ _ hp =>
    rw [hp.system]
    exact System.isFinite_swapColumns hs _ _
  | columnRow _ _ hp _ hq =>
    rw [hq.system, hp.system]
    exact System.isFinite_swapRows (System.isFinite_swapColumns hs _ _) _ _

/-- If columns change places, the column that leaves is zero from the pivot's row down. -/
theorem zero_column (h : PivotFound pivot s t) (hs : Staircase pivot s) :
    t.history = [] ∨ ∃ c : Fin n, pivot ≤ c ∧
      ∀ i : Fin n, pivot ≤ i → (t.system.coefficient i c).HasUnits 0 0 := by
  have hzero : ∀ i j : Fin n, s.system.isZeroAt i j = true →
      (s.system.coefficient i j).HasUnits 0 0 := fun i j hij =>
    (Complex.isZero_iff_hasUnits hs.tolerance).mp hij
  cases h with
  | here => exact hs.exchanged
  | @row _ row hrow hp =>
    rcases hs.exchanged with hnil | ⟨c, hc, hcol⟩
    · exact .inl (hp.history.trans hnil)
    · refine .inr ⟨c, hc, fun i hi => ?_⟩
      rw [hp.system, Operation.apply, System.coefficient_swapRows]
      have hmoves := System.movesFrom_exchanged (Nat.le_refl _) (System.findRow_eq_some hrow).1
      exact hcol _ (hmoves.above i hi)
  | @column _ column hrow hcol hp =>
    have hnone := System.findRow_eq_none.mp hrow
    refine .inr ⟨column, Nat.le_of_succ_le (System.findColumn_eq_some hcol).1, fun i hi => ?_⟩
    rw [hp.system, Operation.apply, System.coefficient_swapColumns, exchanged_right]
    exact hzero i pivot (hnone i hi)
  | @columnRow u _ column row hrow hcol hp hrow' hq =>
    have hnone := System.findRow_eq_none.mp hrow
    refine .inr ⟨column, Nat.le_of_succ_le (System.findColumn_eq_some hcol).1, fun i hi => ?_⟩
    rw [hq.system, Operation.apply, System.coefficient_swapRows, hp.system, Operation.apply,
      System.coefficient_swapColumns, exchanged_right]
    have hmoves := System.movesFrom_exchanged (Nat.le_refl _) (System.findRow_eq_some hrow').1
    exact hzero _ pivot (hnone _ (hmoves.above i hi))

theorem staircase (h : PivotFound pivot s t) (hs : Staircase pivot s) : Staircase pivot t := by
  have hmoved := h.rearranged
  refine ⟨?_, h.isFinite hs.finite, ⟨fun i hi => ?_, fun i j hj hji => ?_⟩, h.zero_column hs⟩
  · rw [hmoved.tolerance]
    exact hs.tolerance
  · rw [hmoved.coefficient_eq hi hi]
    exact hs.columns.diagonal i hi
  · by_cases hi : i.val < pivot
    · rw [hmoved.coefficient_eq hi hj]
      exact hs.columns.below i j hj hji
    · have hbelow : pivot.val ≤ i.val := Nat.le_of_not_lt hi
      refine hmoved.column hj (P := fun a => a.HasUnits 0 0) (fun l hl => ?_) i hbelow
      exact hs.columns.below l j hj (Nat.lt_of_lt_of_le hj hl)

end PivotFound

/-- With its pivot nonzero, the column that is zero is not the pivot's. -/
theorem Staircase.exchanged_after (hs : Staircase pivot s)
    (hpivot : s.system.isZeroAt pivot pivot = false) :
    s.history = [] ∨ ∃ c : Fin n, pivot.val + 1 ≤ c.val ∧
      ∀ i : Fin n, pivot ≤ i → (s.system.coefficient i c).HasUnits 0 0 := by
  rcases hs.exchanged with hnil | ⟨c, hc, hcol⟩
  · exact .inl hnil
  · refine .inr ⟨c, Nat.lt_of_le_of_ne hc fun he => ?_, hcol⟩
    obtain rfl : pivot = c := Fin.ext he
    have hzero := (Complex.isZero_iff_hasUnits hs.tolerance).mpr (hcol pivot (Nat.le_refl _))
    rw [System.isZeroAt, hzero] at hpivot
    cases hpivot

/-- Scaling leaves a one as the pivot. The zeros of its row stay. -/
theorem normalize_units {c : Unit} (h : normalize pivot s = .ok c t) (hs : s.system.IsFinite)
    (htol : s.system.tolerance.units? = some 0) :
    t.system.tolerance = s.system.tolerance ∧ t.system.IsFinite ∧ t.history = s.history ∧
      (t.system.coefficient pivot pivot).HasUnits unitsPerOne 0 ∧
      (∀ i l, i ≠ pivot → t.system.coefficient i l = s.system.coefficient i l) ∧
      ∀ l, l ≠ pivot → (s.system.coefficient pivot l).HasUnits 0 0 →
        (t.system.coefficient pivot l).HasUnits 0 0 := by
  have hfinite : t.system.IsFinite := normalize_keeps isFinite_narrated pivot s c t h hs
  refine ⟨?_, hfinite, normalize_history h, ?_⟩
  · obtain ⟨_, _, ⟨_, rfl⟩ | ⟨_, hp⟩⟩ := normalize_ok h
    · rfl
    · rw [hp.system, Operation.tolerance_apply]
  obtain ⟨factor, hinverse, ⟨hone, rfl⟩ | ⟨_, hp⟩⟩ := normalize_ok h
  · have hunits := (Complex.isOne_iff_hasUnits htol).mp hone
    exact ⟨Complex.hasUnits_one_of_inverse hinverse hunits, fun _ _ _ => rfl, fun _ _ hl => hl⟩
  · rw [hp.system] at hfinite ⊢
    have hfactor := Operation.isFinite_of_apply rfl hfinite
    refine ⟨?_, fun i l hi => ?_, fun l hl hzero => ?_⟩
    · rw [Operation.coefficient_apply_scale, if_pos rfl, if_pos rfl]
      exact Complex.hasUnits_one
    · rw [Operation.coefficient_apply_scale, if_neg (Ne.symm hi)]
    · rw [Operation.coefficient_apply_scale, if_pos rfl, if_neg (Ne.symm hl)]
      exact hzero.zero_mul hfactor

/-- Below a pivot that is one its column is cleared, and the zeros to its left stay. -/
theorem eliminateBelow_units {c : Unit} (h : eliminateBelow pivot s = .ok c t)
    (hs : s.system.IsFinite) (htol : s.system.tolerance.units? = some 0)
    (hpivot : (s.system.coefficient pivot pivot).HasUnits unitsPerOne 0) :
    t.system.tolerance = s.system.tolerance ∧ t.system.IsFinite ∧ t.history = s.history ∧
      (∀ i l, i ≤ pivot → t.system.coefficient i l = s.system.coefficient i l) ∧
      (∀ i, pivot < i → (t.system.coefficient i pivot).HasUnits 0 0) ∧
      ∀ i l, pivot < i → l ≠ pivot → (s.system.coefficient pivot l).HasUnits 0 0 →
        (s.system.coefficient i l).HasUnits 0 0 → (t.system.coefficient i l).HasUnits 0 0 := by
  have hfinite : t.system.IsFinite := eliminateBelow_keeps isFinite_narrated pivot s c t h hs
  obtain ⟨htol', hsame, hbelow⟩ := eliminateBelow_ok h
  refine ⟨htol', hfinite, eliminateBelow_history h, fun i l hi => ?_, fun i hi => ?_,
    fun i l hi hl hsource hzero => ?_⟩
  · rw [System.coefficient, System.term, hsame i hi]
    rfl
  · obtain ⟨q, hq, hrow⟩ := hbelow i hi
    obtain ⟨a, b, hunits⟩ := Complex.isFinite_iff.mp (hs i pivot.castSucc)
    have hfactor := (Complex.HasUnits.of_div_one hunits hpivot hq).neg
    rw [System.coefficient, System.term, hrow]
    exact Row.cleared_self htol hunits hfactor
  · obtain ⟨q, hq, hrow⟩ := hbelow i hi
    obtain ⟨a, b, hunits⟩ := Complex.isFinite_iff.mp (hs i pivot.castSucc)
    have hfactor := (Complex.HasUnits.of_div_one hunits hpivot hq).neg
    rw [System.coefficient, System.term, hrow]
    exact Row.cleared_of_ne (Ne.symm hl) hfactor.isFinite hsource hzero

/-- A pivot's turn adds a column to the staircase. -/
theorem PivotPlaced.staircase (h : PivotPlaced pivot s t) (hs : Staircase pivot s) :
    Staircase (pivot + 1) t := by
  obtain @⟨u, v, hfound, hnorm, helim⟩ := h
  have hu := hfound.staircase hs
  have hexchanged := hu.exchanged_after hfound.nonzero
  obtain ⟨htolv, hfinv, hhistv, honev, hotherv, hzerov⟩ :=
    normalize_units hnorm hu.finite hu.tolerance
  have htol : v.system.tolerance.units? = some 0 := by
    rw [htolv]
    exact hu.tolerance
  obtain ⟨htolt, hfint, hhistt, hsame, hcleared, hkept⟩ :=
    eliminateBelow_units helim hfinv htol honev
  have hleft : ∀ i j : Fin n, j < pivot → j < i → (v.system.coefficient i j).HasUnits 0 0 := by
    intro i j hj hji
    by_cases hi : i = pivot
    · subst hi
      exact hzerov j (Fin.ne_of_lt hj) (hu.columns.below i j hj hji)
    · rw [hotherv i j hi]
      exact hu.columns.below i j hj hji
  refine ⟨?_, hfint, ⟨fun i hi => ?_, fun i j hj hji => ?_⟩, ?_⟩
  · rw [htolt]
    exact htol
  · rw [hsame i i (Nat.le_of_lt_succ hi)]
    by_cases hip : i = pivot
    · rw [hip]
      exact honev
    · rw [hotherv i i hip]
      exact hu.columns.diagonal i (Nat.lt_of_le_of_ne (Nat.le_of_lt_succ hi) (Fin.val_ne_of_ne hip))
  · rcases Nat.lt_or_ge pivot i with hi | hi
    · by_cases hjp : j = pivot
      · rw [hjp]
        exact hcleared i hi
      · have hj : j < pivot := Nat.lt_of_le_of_ne (Nat.le_of_lt_succ hj) (Fin.val_ne_of_ne hjp)
        exact hkept i j hi hjp (hleft pivot j hj hj) (hleft i j hj hji)
    · rw [hsame i j hi]
      exact hleft i j (Nat.lt_of_lt_of_le hji hi) hji
  · rw [hhistt, hhistv]
    refine hexchanged.imp id ?_
    rintro ⟨c, hc, hcol⟩
    have hne : c ≠ pivot := Fin.ne_of_gt hc
    refine ⟨c, hc, fun i hi => hkept i c hi hne (hzerov c hne (hcol pivot (Nat.le_refl _))) ?_⟩
    rw [hotherv i c (Fin.ne_of_gt hi)]
    exact hcol i (Nat.le_of_succ_le hi)

theorem Staircase.of_agree {k : Nat} (h : Agree s t) (hs : Staircase k s) : Staircase k t := by
  obtain ⟨htol, hfinite, hcolumns, hexchanged⟩ := hs
  rw [← h.system] at htol hfinite hcolumns hexchanged
  rw [← h.history] at hexchanged
  exact ⟨htol, hfinite, hcolumns, hexchanged⟩

/-- Up to row echelon form the staircase is built as far as there are pivots. -/
theorem reachEchelon_staircase {m : System Double n} {k : Nat}
    (htol : m.tolerance.units? = some 0) (hm : m.IsFinite)
    (h : reachEchelon { system := m } = .ok (some k) t) :
    k ≤ n ∧ Staircase k t ∧ t.system.Exhausted k := by
  rcases reachEchelon_ok h with ⟨hr, _⟩ | ⟨_, u, v, hk, hopen, hplace, ha⟩
  · cases hr
  cases hk
  have hu : Staircase 0 u := by
    have hfinite : u.system.IsFinite := by
      cases hopen with
      | agree hb =>
        rw [hb.system]
        exact hm
      | swap hb hp hc =>
        rw [hc.system, hp.system, hb.system]
        exact System.isFinite_swapRows hm _ _
    refine ⟨?_, hfinite, ⟨fun i hi => ?_, fun i j hj => ?_⟩, .inl hopen.history⟩
    · rw [hopen.tolerance]
      exact htol
    · exact absurd hi (Nat.not_lt_zero _)
    · exact absurd hj (Nat.not_lt_zero _)
  have hend := placePivots_invariant (I := Staircase) (fun _ _ _ hs hp => hp.staircase hs)
    n 0 u v k (Nat.zero_add n) hu hplace
  rw [Nat.zero_add] at hend
  refine ⟨hend.1, hend.2.1.of_agree ha, ?_⟩
  rw [ha.system]
  exact hend.2.2

/-- With a pivot in every row all columns are reduced, and none have changed places. -/
theorem Staircase.complete {k : Nat} (hs : Staircase k s) (hk : k ≤ n)
    (hexhausted : s.system.Exhausted k) (hcounts : ∀ i, s.system.counts i = true) :
    s.system.UnitColumns n ∧ s.history = [] := by
  have hkn : k = n := by
    refine Nat.le_antisymm hk (Nat.le_of_not_lt fun hlt => ?_)
    obtain ⟨j, hj⟩ := System.counts_iff.mp (hcounts ⟨k, hlt⟩)
    -- the row after the last pivot's has no nonzero term
    have hzero : s.system.isZeroAt ⟨k, hlt⟩ j = true := by
      rcases Nat.lt_or_ge j.val k with hjk | hjk
      · exact (Complex.isZero_iff_hasUnits hs.tolerance).mpr (hs.columns.below _ j hjk hjk)
      · exact hexhausted _ j (Nat.le_refl k) hjk
    rw [hzero] at hj
    cases hj
  subst hkn
  refine ⟨hs.columns, hs.exchanged.resolve_right ?_⟩
  rintro ⟨c, hc, _⟩
  exact absurd c.isLt (Nat.not_lt_of_le hc)

/-! ## Reduction above the pivots -/

theorem reduceRow_keeps {α : Type} [Scalar α] {I : Reduction α n → Prop}
    (hI : ∀ (op : Operation α n) (s t : Reduction α n), Narrated op s t → I s → I t)
    (column row : Fin n) : Keeps I (reduceRow column row) := by
  refine Keeps.get_bind fun s => ?_
  dsimp only
  split
  · exact .pure ()
  · exact perform_keeps hI _ _

/-- The columns from `k` on are those of the identity, the others from the diagonal down. -/
structure ReducedFrom (k : Nat) (s : Reduction Double n) : Prop where
  tolerance : s.system.tolerance.units? = some 0
  finite : s.system.IsFinite
  columns : s.system.UnitColumns n
  above : ∀ i j : Fin n, k ≤ j.val → i < j → (s.system.coefficient i j).HasUnits 0 0

/-- The row of the next column has zeros beside the one on the diagonal. -/
theorem ReducedFrom.row_of_ne (hs : ReducedFrom (column + 1) s) {l : Fin n} (hl : l ≠ column) :
    (s.system.coefficient column l).HasUnits 0 0 := by
  rcases Nat.lt_or_gt_of_ne (Fin.val_ne_of_ne hl) with hlt | hgt
  · exact hs.columns.below column l l.isLt hlt
  · exact hs.above column l hgt hgt

/-- Reducing a column leaves the numbers in the other columns alone. -/
theorem ColumnReduced.hasUnits_of_ne (h : ColumnReduced column s t)
    (hs : ReducedFrom (column + 1) s) {i l : Fin n} {a b : Int} (hl : l ≠ column)
    (hunits : (s.system.coefficient i l).HasUnits a b) :
    (t.system.coefficient i l).HasUnits a b := by
  obtain ⟨_, hsame, habove⟩ := h.rows
  rcases Nat.lt_or_ge i column with hi | hi
  · obtain ⟨_, _, hfactor⟩ := Complex.isFinite_iff.mp (hs.finite i column.castSucc)
    rw [System.coefficient, System.term, habove i hi]
    exact Row.cleared_of_ne (Ne.symm hl) hfactor.neg.isFinite (hs.row_of_ne hl) hunits
  · rw [System.coefficient, System.term, hsame i hi]
    exact hunits

theorem ColumnReduced.reducedFrom (h : ColumnReduced column s t)
    (hs : ReducedFrom (column + 1) s) : ReducedFrom column t := by
  obtain ⟨htol, hsame, habove⟩ := h.rows
  have hfinite : t.system.IsFinite :=
    Keeps.forM _ (fun row => reduceRow_keeps isFinite_narrated column row) s () t h hs.finite
  have hdown : ∀ i, column ≤ i → t.system.coefficient i column = s.system.coefficient i column := by
    intro i hi
    rw [System.coefficient, System.term, hsame i hi]
    rfl
  refine ⟨by rw [htol]; exact hs.tolerance, hfinite, ⟨fun i hi => ?_, fun i j hj hji => ?_⟩,
    fun i j hj hij => ?_⟩
  · by_cases hic : i = column
    · rw [hic, hdown column (Nat.le_refl _)]
      exact hs.columns.diagonal column column.isLt
    · exact h.hasUnits_of_ne hs hic (hs.columns.diagonal i hi)
  · by_cases hjc : j = column
    · rw [hjc] at hji ⊢
      rw [hdown i (Nat.le_of_lt hji)]
      exact hs.columns.below i column column.isLt hji
    · exact h.hasUnits_of_ne hs hjc (hs.columns.below i j hj hji)
  · by_cases hjc : j = column
    · rw [hjc] at hij ⊢
      obtain ⟨_, _, hunits⟩ := Complex.isFinite_iff.mp (hs.finite i column.castSucc)
      rw [System.coefficient, System.term, habove i hij]
      exact Row.cleared_self hs.tolerance hunits hunits.neg
    · refine h.hasUnits_of_ne hs hjc (hs.above i j ?_ hij)
      exact Nat.lt_of_le_of_ne hj (Ne.symm (Fin.val_ne_of_ne hjc))

theorem ReducedFrom.of_agree {k : Nat} (h : Agree s t) (hs : ReducedFrom k s) :
    ReducedFrom k t := by
  obtain ⟨htol, hfinite, hcolumns, habove⟩ := hs
  rw [← h.system] at htol hfinite hcolumns habove
  exact ⟨htol, hfinite, hcolumns, habove⟩

theorem backReduce_reduced {c : Unit} (h : backReduce s = .ok c t) (hs : ReducedFrom n s) :
    ReducedFrom 0 t :=
  backReduce_invariant (I := ReducedFrom) (fun _ _ _ hs hc => hc.reducedFrom hs)
    (fun _ _ ha hu => hu.of_agree ha) hs h

theorem ReducedFrom.isReduced (hs : ReducedFrom 0 s) : s.system.IsReduced := by
  refine ⟨fun i => Complex.eq_one_iff.mpr (hs.columns.diagonal i i.isLt), fun i j hij => ?_⟩
  rw [Complex.eq_zero_iff]
  rcases Nat.lt_or_gt_of_ne (Fin.val_ne_of_ne hij) with hlt | hgt
  · exact hs.above i j (Nat.zero_le _) hlt
  · exact hs.columns.below i j j.isLt hgt

/-! ## The whole run -/

/-- A run that ends with a solution has exchanged no columns and ends in reduced form. -/
theorem solve_reducedFrom {m : System Double n} {check : Check Double n} {report : Report Double n}
    (htol : m.tolerance.units? = some 0) (h : solve check { system := m } = .ok report t)
    (hsolved : report.classification = .solved) :
    0 < n ∧ report.columnSwaps = 0 ∧ ReducedFrom 0 t ∧
      report.solution = some t.system.constants := by
  have hm := System.isFinite_of_solve h
  obtain ⟨k, e, u, v, hreach, hend, hu, -, hucols, hback, ha, hx, -, hcols⟩ :=
    solve_ok_of_solved h hsolved
  obtain ⟨hk, hstairs, hexhausted⟩ := reachEchelon_staircase htol hm hreach
  obtain ⟨hcolumns, hhistory⟩ := hstairs.complete hk hexhausted (hend.solved_iff.mp hsolved)
  have hpos : 0 < n := by
    refine Nat.pos_of_ne_zero fun hn => ?_
    subst hn
    exact findFirstRow_of_reachEchelon hreach rfl
  have hinput : u.system = e.system := by
    rw [hu, inputOrder, hhistory]
    rfl
  have hreduced : ReducedFrom n u := by
    refine ⟨?_, ?_, ?_, fun i j hj => absurd j.isLt (Nat.not_lt_of_le hj)⟩
    · rw [hinput]
      exact hstairs.tolerance
    · rw [hinput]
      exact hstairs.finite
    · rw [hinput]
      exact hcolumns
  refine ⟨hpos, ?_, (backReduce_reduced hback hreduced).of_agree ha, hx⟩
  -- neither half of the run has exchanged columns
  obtain ⟨ops, htrace⟩ := reachEchelon_trace hreach
  obtain ⟨ops', htrace'⟩ := backReduce_trace hback
  have hforward := htrace.columnSwaps
  have hbackward := htrace'.columnSwaps
  rw [htrace'.history_eq fun _ _ => BackStep.exchanges] at hbackward
  rw [hhistory] at hforward
  rw [hcols, ha.columnSwaps]
  simp only [List.length_nil] at hforward
  omega

end Reduction

/-- A run with tolerance zero that ends with a solution has exchanged no columns. The system it
leaves behind compares equal to the identity, and the solution is its constant terms. Solving that
system again, without a check, gives the same solution without an operation. -/
theorem System.solve_reduced {m : System Double n} {verify : Bool} {verifyTolerance : Double}
    {report : Report Double n} {t : Reduction Double n} (htol : m.tolerance.eq .zero = true)
    (h : m.solve verify verifyTolerance = (.ok report, t))
    (hsolved : report.classification = .solved) :
    report.columnSwaps = 0 ∧ t.system.IsReduced ∧ report.solution = some t.system.constants ∧
      ∀ verifyTolerance', ∃ report' t',
        t.system.solve false verifyTolerance' = (.ok report', t') ∧
        report'.classification = .solved ∧ report'.operations = [] ∧
        report'.solution = report.solution := by
  rw [Double.eq_iff Double.units?_zero] at htol
  obtain ⟨hn, hswaps, hreduced, hx⟩ :=
    Reduction.solve_reducedFrom htol (System.solve_ok.mp h) hsolved
  refine ⟨hswaps, hreduced.isReduced, hx, fun verifyTolerance' => ?_⟩
  have hsettled := hreduced.isReduced.settled hreduced.finite hreduced.tolerance
  obtain ⟨report', t', hrun, hc, hx', hops, _⟩ := solve_settled hn hsettled verifyTolerance'
  exact ⟨report', t', hrun, hc, hops, hx'.trans hx.symm⟩

/-- `3 y = 1` and `3 x + y = 2`: the first pivot is found in the second row, and a third is not a
binary64 number. -/
def thirds : System Double 2 where
  tolerance := .zero
  rows := #v[#v[.zero, .ofReal (.ofInt 3), .one],
    #v[.ofReal (.ofInt 3), .one, .ofReal (.ofInt 2)]]

theorem System.solve_reduced_thirds :
    thirds.tolerance.eq .zero = true ∧
      ∃ report t, thirds.solve true .zero = (.ok report, t) ∧ report.classification = .solved ∧
        t.system.IsReduced ∧ report.columnSwaps = 0 := by
  have htol : thirds.tolerance.eq .zero = true := by decide +kernel
  have hrun : Reduction.endsWith (Reduction.solve ⟨true, .zero, thirds⟩) { system := thirds }
      (fun report _ => report.classification == .solved) = true := by
    decide +kernel
  obtain ⟨report, t, h, hsolved⟩ := Reduction.exists_of_endsWith hrun
  have h := System.solve_ok.mpr h
  have hsolved : report.classification = .solved := by simpa using hsolved
  obtain ⟨hswaps, hreduced, _⟩ := solve_reduced htol h hsolved
  exact ⟨htol, report, t, h, hsolved, hreduced, hswaps⟩

end GaussJordan
