import GaussJordan.Proofs.EndState
import GaussJordan.Proofs.Faults
import GaussJordan.Proofs.ReducedForm
import Mathlib.Order.Bounds.Basic

/-!
# GaussJordan.Proofs.PivotSearch

The search for a pivot is complete, and what it exchanges comes first.

A search finds the least index with the property looked for (`System.findRow_eq_some_iff`,
`System.findColumn_eq_some_iff`). So over any scalar type, what brings a nonzero term to the pivot's
place is at most one exchange of columns, followed by at most one of rows, each with the first
column and row that will do (`Brought`). In a finite system of binary64 numbers the exchanged system
can be shown, so the search does not raise (`bringPivot_least`).
-/

namespace GaussJordan

variable {α : Type} {n : Nat}

theorem find?_finRange_eq_some_iff {p : Fin n → Bool} {i : Fin n} :
    (List.finRange n).find? p = some i ↔ IsLeast {j | p j = true} i := by
  rw [← Fin.find?_eq_find?_finRange, Fin.find?_eq_some_iff]
  refine and_congr_right fun _ => ⟨fun h j hj => ?_, fun h j hj => ?_⟩
  · by_contra hlt
    rw [Set.mem_ofPred_eq, h j (not_le.mp hlt)] at hj
    cases hj
  · by_contra hp
    exact absurd (h (Bool.eq_true_of_not_eq_false hp)) (not_le.mpr hj)

namespace System

variable [Scalar α] {m : System α n}

/-- The rows from `start` on with a nonzero term in the column. -/
def nonzeroRows (m : System α n) (start : Nat) (column : Fin n) : Set (Fin n) :=
  {i | start ≤ i.val ∧ m.isZeroAt i column = false}

/-- The columns from `start` on with a nonzero term in row `top` or below. -/
def nonzeroColumns (m : System α n) (start top : Nat) : Set (Fin n) :=
  {j | start ≤ j.val ∧ (m.nonzeroRows top j).Nonempty}

theorem findRow_eq_some_iff {column row : Fin n} {start : Nat} :
    m.findRow column start = some row ↔ IsLeast (m.nonzeroRows start column) row := by
  rw [findRow, find?_finRange_eq_some_iff]
  simp only [nonzeroRows, Bool.and_eq_true, decide_eq_true_eq, Bool.not_eq_true']

theorem findRow_isSome_iff {column : Fin n} {start : Nat} :
    (m.findRow column start).isSome = true ↔ (m.nonzeroRows start column).Nonempty := by
  rw [findRow, List.find?_isSome]
  simp only [List.mem_finRange, true_and, Bool.and_eq_true, decide_eq_true_eq, Bool.not_eq_true']
  rfl

theorem findColumn_eq_some_iff {column : Fin n} {start top : Nat} :
    m.findColumn start top = some column ↔ IsLeast (m.nonzeroColumns start top) column := by
  rw [findColumn, find?_finRange_eq_some_iff]
  simp only [nonzeroColumns, Bool.and_eq_true, decide_eq_true_eq, findRow_isSome_iff]

theorem nonzeroRows_eq_empty {column : Fin n} {start : Nat} (h : m.findRow column start = none) :
    m.nonzeroRows start column = ∅ := by
  rw [Set.eq_empty_iff_forall_notMem]
  rintro i ⟨hi, hz⟩
  rw [findRow_eq_none.mp h i hi] at hz
  cases hz

/-- An exchange with a later column brings that column's rows to the pivot's column. -/
theorem nonzeroRows_swapColumns (m : System α n) (start : Nat) (i j : Fin n) :
    (m.swapColumns i j).nonzeroRows start i = m.nonzeroRows start j := by
  simp only [nonzeroRows, isZeroAt_swapColumns, exchanged_left]

end System

namespace Reduction

/-- The unknown of `column` has come to the pivot's column and then `row` to the pivot's row, where
nothing is exchanged with itself. The pivot's own column stays if it has a nonzero term from the
pivot's row down; the row is the first one there with a nonzero term. -/
structure Brought [Scalar α] (pivot column row : Fin n) (s t : Reduction α n) : Prop where
  first_column : (column = pivot ∧ (s.system.nonzeroRows pivot pivot).Nonempty) ∨
    (s.system.nonzeroRows pivot pivot = ∅ ∧
      IsLeast (s.system.nonzeroColumns (pivot + 1) pivot) column)
  first_row : IsLeast (s.system.nonzeroRows pivot column) row
  system : t.system = (s.system.swapColumns pivot column).swapRows pivot row
  history : t.history = (if column = pivot then [] else [.own pivot column]) ++ s.history
  recorded : t.recorded = s.recorded ++
    ((if column = pivot then [] else [.swapColumns pivot column]) ++
      (if row = pivot then [] else [.swapRows pivot row]))

variable [Scalar α] {s t : Reduction α n} {pivot column row : Fin n}

theorem Brought.pivot_le_column (h : Brought pivot column row s t) : pivot ≤ column := by
  rcases h.first_column with ⟨rfl, _⟩ | ⟨_, hleast⟩
  · exact le_refl _
  · exact Fin.le_def.mpr (Nat.le_of_succ_le hleast.1.1)

/-- The rows above the pivot's take part in the exchange of columns only. -/
theorem Brought.row_eq (h : Brought pivot column row s t) {i : Fin n} (hi : i < pivot) :
    t.system.row i = (s.system.row i).swapTerms pivot column := by
  have hrow : pivot ≤ row := Fin.le_def.mpr h.first_row.1.1
  rw [h.system, System.row_swapRows, if_neg (ne_of_lt hi),
    if_neg (ne_of_lt (lt_of_lt_of_le hi hrow)), System.row_swapColumns]

/-- A row search from the pivot on does not answer the pivot while its term is zero. -/
theorem ne_pivot_of_findRow (hzero : s.system.isZeroAt pivot pivot = true)
    (hrow : s.system.findRow pivot pivot = some row) : row ≠ pivot := by
  rintro rfl
  rw [(System.findRow_eq_some hrow).2] at hzero
  cases hzero

/-- The first row that will do comes up, once the first column that will do is in place. -/
theorem PivotFound.brought (h : PivotFound pivot s t)
    (hzero : s.system.isZeroAt pivot pivot = true) :
    ∃ column row, Brought pivot column row s t := by
  cases h with
  | here hz =>
    rw [hz] at hzero
    cases hzero
  | @row _ row hrow hp =>
    have hfirst := System.findRow_eq_some_iff.mp hrow
    have hrne := ne_pivot_of_findRow hzero hrow
    refine ⟨pivot, row, .inl ⟨rfl, row, hfirst.1⟩, hfirst, ?_, ?_, ?_⟩
    · rw [hp.system, System.swapColumns_self]
      rfl
    · rw [hp.history, if_pos rfl]
      rfl
    · rw [hp.recorded, if_pos rfl, if_neg hrne]
      rfl
  | @column _ column hrow hcolumn hp hz =>
    have hfirst := System.findColumn_eq_some_iff.mp hcolumn
    have hcne : column ≠ pivot := Fin.ne_of_gt (Fin.lt_def.mpr hfirst.1.1)
    refine ⟨column, pivot, .inr ⟨System.nonzeroRows_eq_empty hrow, hfirst⟩, ⟨⟨le_refl _, ?_⟩, ?_⟩,
      ?_, ?_, ?_⟩
    · rwa [hp.system, Operation.apply, System.isZeroAt_swapColumns, exchanged_left] at hz
    · exact fun i hi => Fin.le_def.mpr hi.1
    · rw [hp.system, System.swapRows_self]
      rfl
    · rw [hp.history, if_neg hcne]
      rfl
    · rw [hp.recorded, if_neg hcne, if_pos rfl]
      rfl
  | @columnRow u _ column row hrow hcolumn hp hrow' hq hz =>
    have hfirst := System.findColumn_eq_some_iff.mp hcolumn
    have hcne : column ≠ pivot := Fin.ne_of_gt (Fin.lt_def.mpr hfirst.1.1)
    have hrne := ne_pivot_of_findRow hz hrow'
    have hleast := System.findRow_eq_some_iff.mp hrow'
    rw [hp.system, Operation.apply, System.nonzeroRows_swapColumns] at hleast
    refine ⟨column, row, .inr ⟨System.nonzeroRows_eq_empty hrow, hfirst⟩, hleast, ?_, ?_, ?_⟩
    · rw [hq.system, hp.system]
      rfl
    · rw [hq.history, hp.history, if_neg hcne]
      rfl
    · rw [hq.recorded, hp.recorded, if_neg hcne, if_neg hrne, List.append_assoc]

/-- However the search ends, a column and a row from the pivot's on have changed places with the
pivot's, or nothing has where they are the pivot's own. -/
theorem system_final_bringPivot (pivot : Fin n) (s : Reduction α n) :
    ∃ column row : Fin n, pivot ≤ column ∧ pivot ≤ row ∧
      (final (bringPivot pivot) s).system =
        (s.system.swapColumns pivot column).swapRows pivot row := by
  rw [bringPivot, final_get_bind]
  dsimp only
  split
  · rename_i row hrow
    refine ⟨pivot, row, le_refl _, (System.findRow_eq_some hrow).1, ?_⟩
    rw [final_bind_pure, swapRows, system_final_perform, System.swapColumns_self]
    rfl
  · split
    · exact ⟨pivot, pivot, le_refl _, le_refl _, by simp only [System.swapColumns_self,
        System.swapRows_self, final_pure]⟩
    · rename_i column hcolumn
      have hle : pivot ≤ column :=
        Fin.le_def.mpr (Nat.le_of_succ_le (System.findColumn_eq_some hcolumn).1)
      refine final_bind (P := fun t => ∃ column row : Fin n, pivot ≤ column ∧ pivot ≤ row ∧
        t.system = (s.system.swapColumns pivot column).swapRows pivot row)
        (fun e t h => ⟨column, pivot, hle, le_refl _, ?_⟩) fun _ t h => ?_
      · rw [← final_error h, system_final_perform, System.swapRows_self]
        rfl
      · have hsystem : t.system = s.system.swapColumns pivot column := (perform_ok h).system
        rw [final_get_bind]
        split
        · split
          · rename_i row hrow
            refine ⟨column, row, hle, (System.findRow_eq_some hrow).1, ?_⟩
            rw [final_bind_pure, swapRows, system_final_perform, hsystem]
            rfl
          · refine ⟨column, pivot, hle, le_refl _, ?_⟩
            rw [final_bind_pure, System.swapRows_self, ← hsystem]
            rfl
        · refine ⟨column, pivot, hle, le_refl _, ?_⟩
          rw [System.swapRows_self, ← hsystem]
          rfl

/-- In a finite system, the search for a pivot at a zero returns. If all that is left is zero, it
has done nothing. Otherwise the pivot's place holds a nonzero term, brought there by the first
column and the first row that will do, and the rows above take part in the exchange of columns
only. -/
theorem bringPivot_least {s : Reduction Double n} {pivot : Fin n} (hfinite : s.system.IsFinite)
    (hzero : s.system.isZeroAt pivot pivot = true) :
    (s.system.Exhausted pivot ∧ bringPivot pivot s = .ok false s) ∨
      (¬s.system.Exhausted pivot ∧ ∃ t column row, bringPivot pivot s = .ok true t ∧
        t.system.isZeroAt pivot pivot = false ∧ Brought pivot column row s t ∧
        ∀ i < pivot, t.system.row i = (s.system.row i).swapTerms pivot column) := by
  cases h : bringPivot pivot s with
  | error e t =>
    -- the picture is that of a finite system, so it was taken
    obtain ⟨column, row, _, _, hsystem⟩ := system_final_bringPivot pivot s
    rw [final_error h] at hsystem
    have hinfinite := (System.text_fault (bringPivot_err h)).2
    rw [hsystem] at hinfinite
    exact absurd (System.isFinite_swapRows (System.isFinite_swapColumns hfinite _ _) _ _) hinfinite
  | ok b t =>
    rcases bringPivot_ok h with ⟨rfl, hfound⟩ | ⟨rfl, rfl, hrow, hcolumn⟩
    · obtain ⟨column, row, hbrought⟩ := hfound.brought hzero
      refine .inr ⟨fun hexhausted => ?_, t, column, row, rfl, hfound.nonzero, hbrought,
        fun i hi => hbrought.row_eq hi⟩
      have hz := hbrought.first_row.1.2
      rw [hexhausted row column hbrought.first_row.1.1 hbrought.pivot_le_column] at hz
      cases hz
    · exact .inl ⟨System.exhausted_of_not_found hrow hcolumn, rfl⟩

/-- `0 = 1` and `2 y = 3`: the first unknown occurs nowhere, the second one only further down. -/
def hiddenUnknown : System Double 2 where
  tolerance := defaultTolerance
  rows :=
    let a (num : Nat) := Complex.ofReal (.ofRatio false num 1)
    #v[#v[.zero, .zero, a 1], #v[.zero, a 2, a 3]]

/-- The columns change places first, then the rows. -/
theorem bringPivot_least_hiddenUnknown :
    hiddenUnknown.IsFinite ∧ hiddenUnknown.isZeroAt 0 0 = true ∧
      ∃ t, bringPivot 0 { system := hiddenUnknown } = .ok true t ∧
        t.system.isZeroAt 0 0 = false ∧ Brought 0 1 1 { system := hiddenUnknown } t := by
  have hfinite : hiddenUnknown.IsFinite := by decide +kernel
  have hzero : hiddenUnknown.isZeroAt 0 0 = true := by decide +kernel
  have hleft : hiddenUnknown.isZeroAt 1 0 = true := by decide +kernel
  have htop : hiddenUnknown.isZeroAt 0 1 = true := by decide +kernel
  have hfound : hiddenUnknown.isZeroAt 1 1 = false := by decide +kernel
  refine ⟨hfinite, hzero, ?_⟩
  obtain ⟨hexhausted, _⟩ | ⟨_, t, column, row, hrun, hplaced, hbrought, _⟩ :=
    bringPivot_least (s := { system := hiddenUnknown }) hfinite hzero
  · rw [hexhausted 1 1 (Nat.zero_le _) (Nat.zero_le _)] at hfound
    cases hfound
  · have hrow := hbrought.first_row.1.2
    have hcases : ∀ i : Fin 2, i = 0 ∨ i = 1 := by decide
    obtain rfl | rfl := hcases column
    · obtain rfl | rfl := hcases row
      · cases hzero.symm.trans hrow
      · cases hleft.symm.trans hrow
    · obtain rfl | rfl := hcases row
      · cases htop.symm.trans hrow
      · exact ⟨t, hrun, hplaced, hbrought⟩

end Reduction

end GaussJordan
