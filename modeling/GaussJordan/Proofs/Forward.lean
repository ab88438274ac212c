import GaussJordan.Proofs.Run

/-!
# GaussJordan.Proofs.Forward

What each part of forward elimination does, over any scalar type.

* `findPivot_ok`: every way in which a nonzero term gets into the pivot's place (`PivotFound`), and
  the only way in which none does: all that is left is zero (`Exhausted`).
* `normalize_ok`, `eliminateRow_ok`: an operation is performed, or skipped because of the tolerance.
* `eliminateBelow_ok`: a pass over the rows below the pivot, row by row.
* `placePivots_invariant`: what one pivot's turn preserves holds when the loop ends.
* `placePivots_trace`: the operations of the loop, each as `ForwardStep` allows it.
-/

namespace GaussJordan

variable {α : Type} {n : Nat}

/-! ## Rearrangements -/

theorem exchanged_left (i j : Fin n) : exchanged i j i = j := if_pos rfl

theorem exchanged_right (i j : Fin n) : exchanged i j j = i := by
  rw [exchanged]
  split
  · assumption
  · exact if_pos rfl

theorem exchanged_of_lt {i p q : Fin n} (hp : i < p) (hpq : p ≤ q) : exchanged p q i = i := by
  rw [exchanged, if_neg (Fin.ne_of_lt hp), if_neg (Fin.ne_of_lt (Fin.lt_of_lt_of_le hp hpq))]

namespace System

/-- A map of indices that moves nothing below `k` and nothing from there to below `k`. -/
structure MovesFrom (k : Nat) (f : Fin n → Fin n) : Prop where
  below : ∀ i : Fin n, i.val < k → f i = i
  above : ∀ i : Fin n, k ≤ i.val → k ≤ (f i).val

theorem movesFrom_id (k : Nat) : MovesFrom k (id : Fin n → Fin n) :=
  ⟨fun _ _ => rfl, fun _ h => h⟩

theorem movesFrom_exchanged {k : Nat} {i j : Fin n} (hi : k ≤ i.val) (hj : k ≤ j.val) :
    MovesFrom k (exchanged i j) := by
  refine ⟨fun l hl => ?_, fun l hl => ?_⟩
  · have hli : l ≠ i := fun h => by rw [h] at hl; omega
    have hlj : l ≠ j := fun h => by rw [h] at hl; omega
    rw [exchanged, if_neg hli, if_neg hlj]
  · rw [exchanged]
    split
    · exact hj
    · split
      · exact hi
      · exact hl

theorem MovesFrom.comp {k : Nat} {f g : Fin n → Fin n} (hf : MovesFrom k f) (hg : MovesFrom k g) :
    MovesFrom k (f ∘ g) := by
  refine ⟨fun i hi => ?_, fun i hi => hf.above _ (hg.above i hi)⟩
  rw [Function.comp_apply, hg.below i hi, hf.below i hi]

/-- The coefficients are those of `m` with rows and columns from `k` on put in another order. -/
structure Rearranged (k : Nat) (m m' : System α n) : Prop where
  tolerance : m'.tolerance = m.tolerance
  moved : ∃ f g : Fin n → Fin n, MovesFrom k f ∧ MovesFrom k g ∧
    ∀ i j, m'.coefficient i j = m.coefficient (f i) (g j)

namespace Rearranged

variable {k : Nat} {m m₁ m₂ : System α n}

theorem refl (k : Nat) (m : System α n) : Rearranged k m m :=
  ⟨rfl, id, id, movesFrom_id k, movesFrom_id k, fun _ _ => rfl⟩

theorem swapRows (m : System α n) {i j : Fin n} (hi : k ≤ i.val) (hj : k ≤ j.val) :
    Rearranged k m (m.swapRows i j) :=
  ⟨rfl, exchanged i j, id, movesFrom_exchanged hi hj, movesFrom_id k, m.coefficient_swapRows i j⟩

theorem swapColumns (m : System α n) {i j : Fin n} (hi : k ≤ i.val) (hj : k ≤ j.val) :
    Rearranged k m (m.swapColumns i j) :=
  ⟨rfl, id, exchanged i j, movesFrom_id k, movesFrom_exchanged hi hj, m.coefficient_swapColumns i j⟩

theorem trans (h₁ : Rearranged k m m₁) (h₂ : Rearranged k m₁ m₂) : Rearranged k m m₂ := by
  obtain ⟨f₁, g₁, hf₁, hg₁, hc₁⟩ := h₁.moved
  obtain ⟨f₂, g₂, hf₂, hg₂, hc₂⟩ := h₂.moved
  refine ⟨h₂.tolerance.trans h₁.tolerance, f₁ ∘ f₂, g₁ ∘ g₂, hf₁.comp hf₂, hg₁.comp hg₂, ?_⟩
  intro i j
  rw [hc₂, hc₁]
  rfl

/-- The block above and to the left of `k` stays as it is. -/
theorem coefficient_eq (h : Rearranged k m m₁) {i j : Fin n} (hi : i.val < k) (hj : j.val < k) :
    m₁.coefficient i j = m.coefficient i j := by
  obtain ⟨f, g, hf, hg, hc⟩ := h.moved
  rw [hc, hf.below i hi, hg.below j hj]

/-- What holds of every term of a column to the left of `k` from row `k` on still does. -/
theorem column (h : Rearranged k m m₁) {P : Complex α → Prop} {j : Fin n} (hj : j.val < k)
    (hP : ∀ i : Fin n, k ≤ i.val → P (m.coefficient i j)) (i : Fin n) (hi : k ≤ i.val) :
    P (m₁.coefficient i j) := by
  obtain ⟨f, g, hf, hg, hc⟩ := h.moved
  rw [hc, hg.below j hj]
  exact hP _ (hf.above i hi)

end Rearranged

variable [Scalar α]

/-! ## Search -/

theorem findRow_eq_some {m : System α n} {column row : Fin n} {start : Nat}
    (h : m.findRow column start = some row) : start ≤ row.val ∧ m.isZeroAt row column = false := by
  have := List.find?_some h
  simpa using this

theorem findRow_eq_none {m : System α n} {column : Fin n} {start : Nat} :
    m.findRow column start = none ↔ ∀ i : Fin n, start ≤ i.val → m.isZeroAt i column = true := by
  simp [findRow, List.find?_eq_none]

theorem findColumn_eq_some {m : System α n} {column : Fin n} {start top : Nat}
    (h : m.findColumn start top = some column) :
    start ≤ column.val ∧ ∃ i : Fin n, top ≤ i.val ∧ m.isZeroAt i column = false := by
  have h := List.find?_some h
  simp only [Bool.and_eq_true, decide_eq_true_eq, Option.isSome_iff_exists] at h
  obtain ⟨hs, row, hrow⟩ := h
  exact ⟨hs, row, findRow_eq_some hrow⟩

theorem findColumn_eq_none {m : System α n} {start top : Nat} :
    m.findColumn start top = none ↔
      ∀ j : Fin n, start ≤ j.val → ∀ i : Fin n, top ≤ i.val → m.isZeroAt i j = true := by
  simp only [findColumn, List.find?_eq_none, List.mem_finRange, forall_const, Bool.and_eq_true,
    decide_eq_true_eq, not_and, Bool.not_eq_true, Option.isSome_eq_false_iff,
    Option.isNone_iff_eq_none, findRow_eq_none]

/-- Every term from row and column `k` on counts as zero. -/
def Exhausted (m : System α n) (k : Nat) : Prop :=
  ∀ i j : Fin n, k ≤ i.val → k ≤ j.val → m.isZeroAt i j = true

/-- Nothing is left if neither the search of the pivot's column nor that of the columns after it
finds a row. -/
theorem exhausted_of_not_found {m : System α n} {pivot : Fin n}
    (hrow : m.findRow pivot pivot = none) (hcolumn : m.findColumn (pivot + 1) pivot = none) :
    m.Exhausted pivot := by
  rw [findRow_eq_none] at hrow
  rw [findColumn_eq_none] at hcolumn
  intro i j hi hj
  by_cases hjp : j = pivot
  · rw [hjp]
    exact hrow i hi
  · have hne : j.val ≠ pivot.val := fun he => hjp (Fin.ext he)
    exact hcolumn j (by omega) i hi

theorem isZeroAt_swapRows (m : System α n) (i j k l : Fin n) :
    (m.swapRows i j).isZeroAt k l = m.isZeroAt (exchanged i j k) l := by
  rw [isZeroAt, coefficient_swapRows]
  rfl

theorem isZeroAt_swapColumns (m : System α n) (i j k l : Fin n) :
    (m.swapColumns i j).isZeroAt k l = m.isZeroAt k (exchanged i j l) := by
  rw [isZeroAt, coefficient_swapColumns]
  rfl

end System

/-- The row plus the source row times the factor, with a zero in the given column. If the factor
counts as zero, the row itself. -/
def Row.cleared [Scalar α] (r : Row α n) (tol : α) (factor : Complex α) (column : Fin n)
    (source : Row α n) : Row α n :=
  if factor.isZero tol then r else (r.add (source.scale factor)).setTerm column.castSucc .zero

namespace Reduction

variable [Scalar α]

/-! ## The search for a pivot -/

theorem swapRows_ok {i j : Fin n} {s t : Reduction α n} {c : Unit} (h : swapRows i j s = .ok c t) :
    Performed (.swapRows i j) s t :=
  perform_ok h

/-- The ways in which a nonzero term gets into the place of the pivot. -/
inductive PivotFound (pivot : Fin n) (s : Reduction α n) : Reduction α n → Prop where
  | here : s.system.isZeroAt pivot pivot = false → PivotFound pivot s s
  | row {t : Reduction α n} {row : Fin n} : s.system.findRow pivot pivot = some row →
      Performed (.swapRows pivot row) s t → PivotFound pivot s t
  | column {t : Reduction α n} {column : Fin n} : s.system.findRow pivot pivot = none →
      s.system.findColumn (pivot + 1) pivot = some column →
      Performed (.swapColumns pivot column) s t → t.system.isZeroAt pivot pivot = false →
      PivotFound pivot s t
  | columnRow {t u : Reduction α n} {column row : Fin n} : s.system.findRow pivot pivot = none →
      s.system.findColumn (pivot + 1) pivot = some column →
      Performed (.swapColumns pivot column) s t → t.system.findRow pivot pivot = some row →
      Performed (.swapRows pivot row) t u → t.system.isZeroAt pivot pivot = true →
      PivotFound pivot s u

theorem bringPivot_ok {pivot : Fin n} {s t : Reduction α n} {b : Bool}
    (h : bringPivot pivot s = .ok b t) :
    (b = true ∧ PivotFound pivot s t) ∨
      (b = false ∧ t = s ∧ s.system.findRow pivot pivot = none ∧
        s.system.findColumn (pivot + 1) pivot = none) := by
  simp only [bringPivot, bind_ok, get_ok] at h
  obtain ⟨_, _, ⟨rfl, rfl⟩, h⟩ := h
  cases hrow : s.system.findRow pivot pivot with
  | some row =>
    rw [hrow] at h
    simp only [bind_ok, pure_ok] at h
    obtain ⟨_, _, hs, rfl, rfl⟩ := h
    exact .inl ⟨rfl, .row hrow (swapRows_ok hs)⟩
  | none =>
    rw [hrow] at h
    cases hcol : s.system.findColumn (pivot + 1) pivot with
    | none =>
      simp only [hcol, pure_ok] at h
      obtain ⟨rfl, rfl⟩ := h
      exact .inr ⟨rfl, rfl, rfl, rfl⟩
    | some column =>
      simp only [hcol, bind_ok, get_ok] at h
      obtain ⟨_, u, hc, _, _, ⟨rfl, rfl⟩, h⟩ := h
      have hc := perform_ok hc
      split at h
      · rename_i hz
        cases hr : u.system.findRow pivot pivot with
        | some row =>
          simp only [hr, bind_ok, pure_ok] at h
          obtain ⟨_, _, hs, rfl, rfl⟩ := h
          exact .inl ⟨rfl, .columnRow hrow hcol hc hr (swapRows_ok hs) hz⟩
        | none =>
          simp only [hr, bind_ok, throw_ok, false_and] at h
          obtain ⟨_, _, h⟩ := h
          exact h.elim
      · rename_i hz
        simp only [pure_ok] at h
        obtain ⟨rfl, rfl⟩ := h
        exact .inl ⟨rfl, .column hrow hcol hc (by simpa using hz)⟩

/-- Either a pivot is found, or all that is left is zero and nothing has happened. -/
theorem findPivot_ok {pivot : Fin n} {s t : Reduction α n} {b : Bool}
    (h : findPivot pivot s = .ok b t) :
    (b = true ∧ PivotFound pivot s t) ∨
      (b = false ∧ t = s ∧ s.system.Exhausted pivot) := by
  simp only [findPivot, bind_ok, get_ok] at h
  obtain ⟨_, _, ⟨rfl, rfl⟩, h⟩ := h
  split at h
  · rcases bringPivot_ok h with ⟨hb, hp⟩ | ⟨hb, ht, hrow, hcol⟩
    · exact .inl ⟨hb, hp⟩
    · exact .inr ⟨hb, ht, System.exhausted_of_not_found hrow hcol⟩
  · rename_i hz
    simp only [pure_ok] at h
    obtain ⟨rfl, rfl⟩ := h
    exact .inl ⟨rfl, .here (by simpa using hz)⟩

namespace PivotFound

variable {pivot : Fin n} {s t : Reduction α n}

theorem isZeroAt_of_findRow {u : Reduction α n} {row : Fin n}
    (hrow : t.system.findRow pivot pivot = some row) (hp : Performed (.swapRows pivot row) t u) :
    u.system.isZeroAt pivot pivot = false := by
  rw [hp.system, Operation.apply, System.isZeroAt_swapRows, exchanged_left]
  exact (System.findRow_eq_some hrow).2

/-- The place of the pivot holds a nonzero term. -/
theorem nonzero (h : PivotFound pivot s t) : t.system.isZeroAt pivot pivot = false := by
  cases h with
  | here hz => exact hz
  | row hrow hp => exact isZeroAt_of_findRow hrow hp
  | column _ _ _ hz => exact hz
  | columnRow _ _ _ hrow hp => exact isZeroAt_of_findRow hrow hp

/-- Only rows and columns from the pivot on change places. -/
theorem rearranged (h : PivotFound pivot s t) :
    System.Rearranged pivot s.system t.system := by
  cases h with
  | here => exact .refl _ _
  | row hrow hp =>
    rw [hp.system]
    exact .swapRows _ (Nat.le_refl _) (System.findRow_eq_some hrow).1
  | column _ hcol hp =>
    rw [hp.system]
    exact .swapColumns _ (Nat.le_refl _) (Nat.le_of_succ_le (System.findColumn_eq_some hcol).1)
  | columnRow _ hcol hp hrow hq =>
    rw [hq.system, hp.system]
    refine .trans (.swapColumns _ (Nat.le_refl _) ?_) (.swapRows _ (Nat.le_refl _) ?_)
    · exact Nat.le_of_succ_le (System.findColumn_eq_some hcol).1
    · exact (System.findRow_eq_some hrow).1

/-- If columns change places, the column of the pivot was zero from the pivot's row down, and the
zero of the pivot's row now stands in the other column. -/
theorem history (h : PivotFound pivot s t) :
    t.history = s.history ∨
      ∃ column : Fin n, pivot < column ∧ t.history = .own pivot column :: s.history ∧
        (∀ i : Fin n, pivot ≤ i → s.system.isZeroAt i pivot = true) ∧
        t.system.isZeroAt pivot column = true := by
  cases h with
  | here => exact .inl rfl
  | row _ hp => exact .inl hp.history
  | @column _ column hrow hcol hp =>
    have hzero := System.findRow_eq_none.mp hrow
    refine .inr ⟨column, (System.findColumn_eq_some hcol).1, hp.history, hzero, ?_⟩
    rw [hp.system, Operation.apply, System.isZeroAt_swapColumns, exchanged_right]
    exact hzero pivot (Nat.le_refl _)
  | @columnRow u _ column row hrow hcol hp hrow' hq =>
    have hzero := System.findRow_eq_none.mp hrow
    refine .inr ⟨column, (System.findColumn_eq_some hcol).1, ?_, hzero, ?_⟩
    · rw [hq.history, hp.history]
      rfl
    · rw [hq.system, Operation.apply, System.isZeroAt_swapRows, exchanged_left, hp.system,
        Operation.apply, System.isZeroAt_swapColumns, exchanged_right]
      exact hzero row (System.findRow_eq_some hrow').1

end PivotFound

/-! ## Scaling the pivot's row -/

theorem normalize_ok {pivot : Fin n} {s t : Reduction α n} {c : Unit}
    (h : normalize pivot s = .ok c t) :
    ∃ factor, (s.system.coefficient pivot pivot).inverse = .ok factor ∧
      ((factor.isOne s.system.tolerance = true ∧ t = s) ∨
        (factor.isOne s.system.tolerance = false ∧ Performed (.scale factor pivot) s t)) := by
  simp only [normalize, bind_ok, get_ok, lift_ok] at h
  obtain ⟨_, _, ⟨rfl, rfl⟩, factor, _, ⟨hf, rfl⟩, h⟩ := h
  refine ⟨factor, hf, ?_⟩
  split at h
  · rename_i hone
    simp only [pure_ok] at h
    exact .inl ⟨hone, h.2.symm⟩
  · rename_i hone
    exact .inr ⟨by simpa using hone, perform_ok h⟩

/-- The pivot is one afterwards or, left unscaled, a nonzero term. -/
theorem normalize_pivot {pivot : Fin n} {s t : Reduction α n} {c : Unit}
    (hs : s.system.isZeroAt pivot pivot = false) (h : normalize pivot s = .ok c t) :
    t.system.coefficient pivot pivot = .one ∨ t.system.isZeroAt pivot pivot = false := by
  obtain ⟨factor, _, ⟨_, rfl⟩ | ⟨_, hp⟩⟩ := normalize_ok h
  · exact .inr hs
  · left
    rw [hp.system, Operation.coefficient_apply_scale, if_pos rfl, if_pos rfl]

theorem normalize_history {pivot : Fin n} {s t : Reduction α n} {c : Unit}
    (h : normalize pivot s = .ok c t) : t.history = s.history := by
  obtain ⟨_, _, ⟨_, rfl⟩ | ⟨_, hp⟩⟩ := normalize_ok h
  · rfl
  · exact hp.history

/-! ## Clearing rows -/

/-- The source row times a factor was added to the target row, unless the factor counts as zero. -/
def Cleared (factor : Complex α) (source target : Fin n) (s t : Reduction α n) : Prop :=
  (factor.isZero s.system.tolerance = true ∧ t = s) ∨
    (factor.isZero s.system.tolerance = false ∧ Performed (.addScaled factor source target) s t)

namespace Cleared

variable {factor : Complex α} {source target : Fin n} {s t : Reduction α n}

theorem tolerance (h : Cleared factor source target s t) :
    t.system.tolerance = s.system.tolerance := by
  rcases h with ⟨_, rfl⟩ | ⟨_, hp⟩
  · rfl
  · rw [hp.system, Operation.tolerance_apply]

theorem row_of_ne (h : Cleared factor source target s t) {i : Fin n} (hi : i ≠ target) :
    t.system.row i = s.system.row i := by
  rcases h with ⟨_, rfl⟩ | ⟨_, hp⟩
  · rfl
  · rw [hp.system, Operation.row_apply_addScaled, if_neg (Ne.symm hi)]

theorem row_target (h : Cleared factor source target s t) :
    t.system.row target =
      (s.system.row target).cleared s.system.tolerance factor source (s.system.row source) := by
  rcases h with ⟨hz, rfl⟩ | ⟨hz, hp⟩
  · rw [Row.cleared, if_pos hz]
  · rw [hp.system, Operation.row_apply_addScaled, if_pos rfl, Row.cleared, hz]
    rfl

theorem trace {G : System α n → Operation α n → Prop} (h : Cleared factor source target s t)
    (hg : factor.isZero s.system.tolerance = false →
      G s.system (.addScaled factor source target)) : ∃ ops, Trace G s ops t := by
  rcases h with ⟨_, rfl⟩ | ⟨hz, hp⟩
  · exact ⟨[], .refl _⟩
  · exact ⟨_, .single (hg hz) hp⟩

end Cleared

/-- A pass that clears each of some rows once, with a factor determined by the row and the source
row: every other row stays, and each of these is changed as if it were the only one. -/
theorem forM_cleared {source : Fin n} {f : Fin n → Run α n Unit}
    {F : Row α n → Row α n → Complex α → Prop}
    (hf : ∀ (i : Fin n) (s t : Reduction α n), f i s = .ok () t →
      ∃ factor, F (s.system.row source) (s.system.row i) factor ∧ Cleared factor source i s t)
    (rows : List (Fin n)) (hnodup : rows.Nodup) (hsource : source ∉ rows) :
    ∀ s t : Reduction α n, rows.forM f s = .ok () t →
      t.system.tolerance = s.system.tolerance ∧
      (∀ i, i ∉ rows → t.system.row i = s.system.row i) ∧
      ∀ i ∈ rows, ∃ factor, F (s.system.row source) (s.system.row i) factor ∧
        t.system.row i =
          (s.system.row i).cleared s.system.tolerance factor source (s.system.row source) := by
  induction rows with
  | nil =>
    intro s t h
    obtain rfl := forM_nil_ok.mp h
    exact ⟨rfl, fun _ _ => rfl, fun i hi => by simp at hi⟩
  | cons j rest ih =>
    intro s t h
    obtain ⟨u, hj, hrest⟩ := forM_cons_ok.mp h
    obtain ⟨hjr, hnodup⟩ := List.nodup_cons.mp hnodup
    simp only [List.mem_cons, not_or] at hsource
    obtain ⟨factor, hF, hc⟩ := hf j s u hj
    obtain ⟨htol, hout, hin⟩ := ih hnodup hsource.2 u t hrest
    have hsrc : u.system.row source = s.system.row source := hc.row_of_ne hsource.1
    refine ⟨htol.trans hc.tolerance, ?_, ?_⟩
    · intro i hi
      simp only [List.mem_cons, not_or] at hi
      rw [hout i hi.2, hc.row_of_ne hi.1]
    · intro i hi
      by_cases hij : i = j
      · subst hij
        exact ⟨factor, hF, by rw [hout i hjr, hc.row_target]⟩
      · have hir : i ∈ rest := (List.mem_cons.mp hi).resolve_left hij
        obtain ⟨g, hG, hrow⟩ := hin i hir
        rw [hsrc, hc.row_of_ne hij] at hG
        refine ⟨g, hG, ?_⟩
        rw [hrow, hsrc, hc.row_of_ne hij, hc.tolerance]

/-- The operations of a pass over a list, if every turn has a trace and keeps an invariant. -/
theorem forM_trace {G : System α n → Operation α n → Prop} {I : System α n → Prop}
    {f : Fin n → Run α n Unit} (rows : List (Fin n))
    (hf : ∀ i ∈ rows, ∀ s t : Reduction α n, I s.system → f i s = .ok () t →
      I t.system ∧ ∃ ops, Trace G s ops t) :
    ∀ s t : Reduction α n, I s.system → rows.forM f s = .ok () t →
      I t.system ∧ ∃ ops, Trace G s ops t := by
  induction rows with
  | nil =>
    intro s t hs h
    obtain rfl := forM_nil_ok.mp h
    exact ⟨hs, [], .refl s⟩
  | cons j rest ih =>
    intro s t hs h
    obtain ⟨u, hj, hrest⟩ := forM_cons_ok.mp h
    obtain ⟨hu, ops, hops⟩ := hf j (by simp) s u hs hj
    obtain ⟨ht, ops', hops'⟩ := ih (fun i hi => hf i (by simp [hi])) u t hu hrest
    exact ⟨ht, ops ++ ops', hops.trans hops'⟩

theorem eliminateRow_ok {pivotTerm : Complex α} {pivot row : Fin n} {s t : Reduction α n}
    {c : Unit} (h : eliminateRow pivotTerm pivot row s = .ok c t) :
    ∃ q, (s.system.coefficient row pivot).div pivotTerm = .ok q ∧
      Cleared (-q) pivot row s t := by
  simp only [eliminateRow, bind_ok, get_ok, lift_ok] at h
  obtain ⟨_, _, ⟨rfl, rfl⟩, q, _, ⟨hq, rfl⟩, h⟩ := h
  refine ⟨q, hq, ?_⟩
  split at h
  · rename_i hz
    simp only [pure_ok] at h
    exact .inl ⟨hz, h.2.symm⟩
  · rename_i hz
    exact .inr ⟨by simpa using hz, perform_ok h⟩

theorem mem_rowsBelow {pivot i : Fin n} : i ∈ rowsBelow pivot ↔ pivot < i := by
  simp [rowsBelow]

theorem rowsBelow_nodup (pivot : Fin n) : (rowsBelow pivot).Nodup :=
  (List.nodup_finRange n).filter _

/-- The rows down to the pivot's stay; each row below has its term in the pivot's column cleared,
unless the quotient of that term by the pivot counts as zero. -/
theorem eliminateBelow_ok {pivot : Fin n} {s t : Reduction α n} {c : Unit}
    (h : eliminateBelow pivot s = .ok c t) :
    t.system.tolerance = s.system.tolerance ∧
    (∀ i : Fin n, i ≤ pivot → t.system.row i = s.system.row i) ∧
    ∀ i : Fin n, pivot < i →
      ∃ q, (s.system.coefficient i pivot).div (s.system.coefficient pivot pivot) = .ok q ∧
        t.system.row i =
          (s.system.row i).cleared s.system.tolerance (-q) pivot (s.system.row pivot) := by
  simp only [eliminateBelow, bind_ok, get_ok] at h
  obtain ⟨_, _, ⟨rfl, rfl⟩, h⟩ := h
  have hpivot : pivot ∉ rowsBelow pivot := by simp [mem_rowsBelow]
  have hf : ∀ (i : Fin n) (u v : Reduction α n),
      eliminateRow (s.system.coefficient pivot pivot) pivot i u = .ok () v →
      ∃ factor, (∃ q, Complex.div (u.system.row i)[pivot.castSucc]
          (s.system.coefficient pivot pivot) = .ok q ∧ factor = -q) ∧
        Cleared factor pivot i u v := by
    intro i u v hi
    obtain ⟨q, hq, hc⟩ := eliminateRow_ok hi
    exact ⟨-q, ⟨q, hq, rfl⟩, hc⟩
  obtain ⟨htol, hout, hin⟩ := forM_cleared
    (F := fun _ r factor => ∃ q, Complex.div r[pivot.castSucc]
      (s.system.coefficient pivot pivot) = .ok q ∧ factor = -q)
    hf _ (rowsBelow_nodup pivot) hpivot s t h
  refine ⟨htol, ?_, ?_⟩
  · intro i hi
    apply hout
    simpa [mem_rowsBelow] using hi
  · intro i hi
    obtain ⟨_, ⟨q, hq, rfl⟩, hrow⟩ := hin i (mem_rowsBelow.mpr hi)
    exact ⟨q, hq, hrow⟩

theorem eliminateBelow_pivot {pivot : Fin n} {s t : Reduction α n} {c : Unit}
    (h : eliminateBelow pivot s = .ok c t) :
    t.system.coefficient pivot pivot = s.system.coefficient pivot pivot := by
  rw [System.coefficient, System.term, (eliminateBelow_ok h).2.1 pivot (Fin.le_refl _)]
  rfl

theorem eliminateBelow_history {pivot : Fin n} {s t : Reduction α n} {c : Unit}
    (h : eliminateBelow pivot s = .ok c t) : t.history = s.history := by
  simp only [eliminateBelow, bind_ok, get_ok] at h
  obtain ⟨_, _, ⟨rfl, rfl⟩, h⟩ := h
  have hf : ∀ i ∈ rowsBelow pivot, ∀ u v : Reduction α n, True →
      eliminateRow (s.system.coefficient pivot pivot) pivot i u = .ok () v →
      True ∧ ∃ ops, Trace (fun _ op => op.exchanges = []) u ops v := by
    intro i _ u v _ hi
    obtain ⟨_, _, hc⟩ := eliminateRow_ok hi
    exact ⟨trivial, hc.trace fun _ => rfl⟩
  obtain ⟨_, ops, ht⟩ := forM_trace (I := fun _ => True) (rowsBelow pivot) hf s t trivial h
  exact ht.history_eq fun _ _ hx => hx

/-- Once the pivot is found, its turn exchanges no columns. -/
theorem history_of_normalize_eliminateBelow {pivot : Fin n} {s u t : Reduction α n} {c d : Unit}
    (hnorm : normalize pivot s = .ok c u) (helim : eliminateBelow pivot u = .ok d t) :
    t.history = s.history :=
  (eliminateBelow_history helim).trans (normalize_history hnorm)

/-! ## The loop over the pivots -/

/-- The turn of a pivot: it is found, its row scaled and its column cleared below. -/
inductive PivotPlaced (pivot : Fin n) (s t : Reduction α n) : Prop where
  | intro {u v : Reduction α n} : PivotFound pivot s u → normalize pivot u = .ok () v →
      eliminateBelow pivot v = .ok () t → PivotPlaced pivot s t

/-- The loop ends at a pivot if nothing but zeros is left, and goes on after its turn otherwise. -/
theorem placePivots_cons_ok {pivot : Fin n} {rest : List (Fin n)} {s t : Reduction α n} {k : Nat}
    (h : placePivots (pivot :: rest) s = .ok k t) :
    (k = 0 ∧ t = s ∧ s.system.Exhausted pivot) ∨
      ∃ u placed, k = placed + 1 ∧ PivotPlaced pivot s u ∧ placePivots rest u = .ok placed t := by
  simp only [placePivots, bind_ok] at h
  obtain ⟨b, s₁, hfind, h⟩ := h
  rcases findPivot_ok hfind with ⟨rfl, hfound⟩ | ⟨rfl, rfl, hzero⟩
  · simp only [if_true, bind_ok, pure_ok] at h
    obtain ⟨_, s₂, hnorm, _, s₃, helim, placed, _, hrest, rfl, rfl⟩ := h
    exact .inr ⟨s₃, placed, rfl, .intro hfound hnorm helim, hrest⟩
  · simp only [Bool.false_eq_true, if_false, pure_ok] at h
    obtain ⟨rfl, rfl⟩ := h
    exact .inl ⟨rfl, rfl, hzero⟩

/-- What every pivot's turn carries on holds when the loop ends, and nothing but zeros is left from
the number of placed pivots on. -/
theorem placePivots_invariant {I : Nat → Reduction α n → Prop}
    (hI : ∀ (pivot : Fin n) (s t : Reduction α n), I pivot s → PivotPlaced pivot s t →
      I (pivot + 1) t) :
    ∀ (left start : Nat) (s t : Reduction α n) (k : Nat), start + left = n → I start s →
      placePivots ((List.finRange n).drop start) s = .ok k t →
      start + k ≤ n ∧ I (start + k) t ∧ t.system.Exhausted (start + k) := by
  intro left
  induction left with
  | zero =>
    intro start s t k hn hs h
    rw [List.drop_eq_nil_of_le (by simp; omega)] at h
    obtain ⟨rfl, rfl⟩ := pure_ok.mp h
    exact ⟨by omega, hs, fun i j hi _ => absurd i.isLt (by omega)⟩
  | succ left ih =>
    intro start s t k hn hs h
    rw [List.drop_eq_getElem_cons (by simp; omega), List.getElem_finRange] at h
    rcases placePivots_cons_ok h with ⟨rfl, rfl, hzero⟩ | ⟨u, placed, rfl, hplaced, hrest⟩
    · exact ⟨by omega, hs, hzero⟩
    · have hu := hI _ s u hs hplaced
      obtain ⟨hle, ht, hzero⟩ := ih (start + 1) u t placed (by omega) hu hrest
      have he : start + (placed + 1) = start + 1 + placed := by omega
      rw [he]
      exact ⟨hle, ht, hzero⟩

namespace PivotPlaced

variable {pivot : Fin n} {s t : Reduction α n}

theorem tolerance (h : PivotPlaced pivot s t) : t.system.tolerance = s.system.tolerance := by
  obtain ⟨hfound, hnorm, helim⟩ := h
  rw [(eliminateBelow_ok helim).1]
  obtain ⟨_, _, ⟨_, rfl⟩ | ⟨_, hp⟩⟩ := normalize_ok hnorm
  · exact hfound.rearranged.tolerance
  · rw [hp.system, Operation.tolerance_apply]
    exact hfound.rearranged.tolerance

/-- The block of the pivots placed before is left alone. -/
theorem coefficient_eq (h : PivotPlaced pivot s t) {i j : Fin n} (hi : i < pivot) (hj : j < pivot) :
    t.system.coefficient i j = s.system.coefficient i j := by
  obtain ⟨hfound, hnorm, helim⟩ := h
  rw [System.coefficient, System.term, (eliminateBelow_ok helim).2.1 i (Fin.le_of_lt hi),
    ← hfound.rearranged.coefficient_eq hi hj]
  obtain ⟨_, _, ⟨_, rfl⟩ | ⟨_, hp⟩⟩ := normalize_ok hnorm
  · rfl
  · rw [hp.system, Operation.row_apply_scale, if_neg (Fin.ne_of_gt hi)]
    rfl

/-- The pivot is one or, left unscaled, a nonzero term. -/
theorem pivot_term (h : PivotPlaced pivot s t) :
    t.system.coefficient pivot pivot = .one ∨ t.system.isZeroAt pivot pivot = false := by
  obtain @⟨u, v, hfound, hnorm, helim⟩ := h
  rw [System.isZeroAt, eliminateBelow_pivot helim, (eliminateBelow_ok helim).1]
  exact normalize_pivot hfound.nonzero hnorm

end PivotPlaced

/-! ## The operations of forward elimination -/

/-- To a row below the pivot's, the pivot's row is added so often that the term in the pivot's
column goes away. -/
inductive ClearStep (pivot : Fin n) (m : System α n) : Operation α n → Prop where
  | addScaled {q : Complex α} {row : Fin n} : pivot < row →
      (m.coefficient row pivot).div (m.coefficient pivot pivot) = .ok q →
      (-q).isZero m.tolerance = false → ClearStep pivot m (.addScaled (-q) pivot row)

/-- The operations on rows in a pivot's turn: the pivot's row is scaled by the inverse of the pivot,
and rows further down are cleared. -/
inductive RowStep (pivot : Fin n) (m : System α n) : Operation α n → Prop where
  | scale {factor : Complex α} : (m.coefficient pivot pivot).inverse = .ok factor →
      RowStep pivot m (.scale factor pivot)
  | clear {op : Operation α n} : ClearStep pivot m op → RowStep pivot m op

/-- The operations of a pivot's turn: before those on rows, a row or column from the pivot's on may
change places with the pivot's. -/
inductive TurnStep (pivot : Fin n) (m : System α n) : Operation α n → Prop where
  | swapRows {row : Fin n} : pivot ≤ row → TurnStep pivot m (.swapRows pivot row)
  | swapColumns {column : Fin n} : pivot < column → TurnStep pivot m (.swapColumns pivot column)
  | row {op : Operation α n} : RowStep pivot m op → TurnStep pivot m op

theorem PivotFound.trace {pivot : Fin n} {s t : Reduction α n} (h : PivotFound pivot s t) :
    ∃ ops, Trace (TurnStep pivot) s ops t := by
  cases h with
  | here => exact ⟨[], .refl s⟩
  | row hrow hp => exact ⟨_, .single (.swapRows (System.findRow_eq_some hrow).1) hp⟩
  | column _ hcol hp => exact ⟨_, .single (.swapColumns (System.findColumn_eq_some hcol).1) hp⟩
  | columnRow _ hcol hp hrow hq =>
    exact ⟨_, .cons (.swapColumns (System.findColumn_eq_some hcol).1) hp
      (.single (.swapRows (System.findRow_eq_some hrow).1) hq)⟩

theorem normalize_trace {pivot : Fin n} {s t : Reduction α n} {c : Unit}
    (h : normalize pivot s = .ok c t) : ∃ ops, Trace (RowStep pivot) s ops t := by
  obtain ⟨factor, hf, ⟨_, rfl⟩ | ⟨_, hp⟩⟩ := normalize_ok h
  · exact ⟨[], .refl _⟩
  · exact ⟨_, .single (.scale hf) hp⟩

/-- Clearing leaves the pivot as it is. -/
theorem ClearStep.coefficient_pivot {pivot : Fin n} {m : System α n} {op : Operation α n}
    (h : ClearStep pivot m op) :
    (op.apply m).coefficient pivot pivot = m.coefficient pivot pivot := by
  cases h with
  | addScaled hlt => rw [Operation.coefficient_apply_addScaled, if_neg (Fin.ne_of_gt hlt)]

theorem eliminateBelow_trace {pivot : Fin n} {s t : Reduction α n} {c : Unit}
    (h : eliminateBelow pivot s = .ok c t) : ∃ ops, Trace (ClearStep pivot) s ops t := by
  simp only [eliminateBelow, bind_ok, get_ok] at h
  obtain ⟨_, _, ⟨rfl, rfl⟩, h⟩ := h
  -- the divisor was read before the loop, so the loop has to keep the pivot's term
  refine (forM_trace (I := fun m => m.coefficient pivot pivot = s.system.coefficient pivot pivot)
    (rowsBelow pivot) ?_ s t rfl h).2
  intro i hi u v hu hrow
  have hlt : pivot < i := mem_rowsBelow.mp hi
  obtain ⟨q, hq, hc⟩ := eliminateRow_ok hrow
  rw [← hu] at hq
  obtain ⟨ops, ht⟩ := hc.trace fun hz => ClearStep.addScaled hlt hq hz
  refine ⟨ht.invariant (fun m op hop hm => hop.coefficient_pivot.trans hm) hu, ops, ht⟩

/-- A pivot's turn is a trace of its own operations. -/
theorem PivotPlaced.turn {pivot : Fin n} {s t : Reduction α n} (h : PivotPlaced pivot s t) :
    ∃ ops, Trace (TurnStep pivot) s ops t := by
  obtain ⟨hfound, hnorm, helim⟩ := h
  obtain ⟨ops₁, h₁⟩ := hfound.trace
  obtain ⟨ops₂, h₂⟩ := normalize_trace hnorm
  obtain ⟨ops₃, h₃⟩ := eliminateBelow_trace helim
  exact ⟨_, (h₁.trans (h₂.mono fun _ _ => .row)).trans (h₃.mono fun _ _ h => .row (.clear h))⟩

/-- The operations forward elimination may perform on a system, whatever the pivot. -/
inductive ForwardStep (m : System α n) : Operation α n → Prop where
  | swapRows (i j : Fin n) : ForwardStep m (.swapRows i j)
  | swapColumns (i j : Fin n) : ForwardStep m (.swapColumns i j)
  | scale {factor : Complex α} {i : Fin n} : (m.coefficient i i).inverse = .ok factor →
      ForwardStep m (.scale factor i)
  | addScaled {q : Complex α} {i j : Fin n} : i < j →
      (m.coefficient j i).div (m.coefficient i i) = .ok q → ForwardStep m (.addScaled (-q) i j)

theorem TurnStep.forwardStep {pivot : Fin n} {m : System α n} {op : Operation α n}
    (h : TurnStep pivot m op) : ForwardStep m op := by
  cases h with
  | swapRows => exact .swapRows _ _
  | swapColumns => exact .swapColumns _ _
  | row hrow =>
    cases hrow with
    | scale hf => exact .scale hf
    | clear hclear =>
      cases hclear with
      | addScaled hlt hq _ => exact .addScaled hlt hq

theorem PivotPlaced.trace {pivot : Fin n} {s t : Reduction α n} (h : PivotPlaced pivot s t) :
    ∃ ops, Trace ForwardStep s ops t := by
  obtain ⟨ops, ht⟩ := h.turn
  exact ⟨ops, ht.mono fun _ _ => TurnStep.forwardStep⟩

theorem placePivots_trace {s t : Reduction α n} {k : Nat}
    (h : placePivots (List.finRange n) s = .ok k t) : ∃ ops, Trace ForwardStep s ops t := by
  refine (placePivots_invariant (I := fun _ u => ∃ ops, Trace ForwardStep s ops u) ?_
    n 0 s t k (Nat.zero_add n) ⟨[], .refl s⟩ h).2.1
  intro pivot u v ⟨ops, hu⟩ hplaced
  obtain ⟨ops', hv⟩ := hplaced.trace
  exact ⟨ops ++ ops', hu.trans hv⟩

/-! ## Up to row echelon form -/

/-- A row was moved to the top, or none had to be. -/
theorem leadWith_ok {row : Fin n} {s t : Reduction α n} {c : Unit} (h : leadWith row s = .ok c t) :
    t = s ∨ ∃ top, Performed (.swapRows top row) s t := by
  simp only [leadWith] at h
  split at h
  · exact .inr ⟨_, swapRows_ok h⟩
  · exact .inl (pure_ok.mp h).2.symm

/-- What happens before the first pivot: some narration and at most an exchange of rows. -/
inductive Opened (s t : Reduction α n) : Prop where
  | agree : Agree s t → Opened s t
  | swap {u v : Reduction α n} {i j : Fin n} : Agree s u → Performed (.swapRows i j) u v →
      Agree v t → Opened s t

theorem Opened.trace {s t : Reduction α n} (h : Opened s t) : ∃ ops, Trace ForwardStep s ops t := by
  cases h with
  | agree ha => exact ⟨[], .nil ha⟩
  | swap ha hp hb => exact ⟨_, .of_agree ha ((Trace.single (.swapRows _ _) hp).then_agree hb)⟩

theorem Opened.history {s t : Reduction α n} (h : Opened s t) : t.history = s.history := by
  cases h with
  | agree ha => exact ha.history
  | swap ha hp hb =>
    rw [hb.history, hp.history, ha.history]
    rfl

theorem Opened.tolerance {s t : Reduction α n} (h : Opened s t) :
    t.system.tolerance = s.system.tolerance := by
  obtain ⟨ops, ht⟩ := h.trace
  exact ht.tolerance

/-- Either every coefficient is zero and nothing happens, or the pivots are placed. -/
theorem reachEchelon_ok {s t : Reduction α n} {r : Option Nat} (h : reachEchelon s = .ok r t) :
    (r = none ∧ s.system.findFirstRow = none ∧ Agree s t) ∨
      ∃ k u v, r = some k ∧ Opened s u ∧ placePivots (List.finRange n) u = .ok k v ∧
        Agree v t := by
  simp only [reachEchelon, bind_ok, get_ok] at h
  obtain ⟨_, s₁, ha, _, _, ⟨rfl, rfl⟩, h⟩ := h
  have ha := announce_ok ha
  cases hrow : s₁.system.findFirstRow with
  | none =>
    simp only [hrow, pure_ok] at h
    obtain ⟨rfl, rfl⟩ := h
    refine .inl ⟨rfl, ?_, ha⟩
    rw [← ha.system]
    exact hrow
  | some row =>
    simp only [hrow, forwardEliminate, bind_ok, pure_ok] at h
    obtain ⟨_, s₂, hlead, _, s₃, hinf, k, s₅, ⟨_, s₄, hent, hplace⟩, _, s₆, hann, rfl, rfl⟩ := h
    have hb := (emit_ok hinf).trans (enter_ok hent)
    refine .inr ⟨k, s₄, s₅, rfl, ?_, hplace, announce_ok hann⟩
    rcases leadWith_ok hlead with rfl | ⟨top, hp⟩
    · exact .agree (ha.trans hb)
    · exact .swap ha hp hb

/-- From the pivots that were placed on, nothing but zeros is left. -/
theorem reachEchelon_exhausted {s t : Reduction α n} {k : Nat}
    (h : reachEchelon s = .ok (some k) t) : t.system.Exhausted k := by
  rcases reachEchelon_ok h with ⟨hr, _⟩ | ⟨_, u, v, hk, _, hplace, ha⟩
  · cases hr
  · cases hk
    obtain ⟨_, _, hzero⟩ := placePivots_invariant (I := fun _ _ => True)
      (fun _ _ _ _ _ => trivial) n 0 u v k (Nat.zero_add n) trivial hplace
    rw [Nat.zero_add] at hzero
    rwa [ha.system]

theorem reachEchelon_trace {s t : Reduction α n} {r : Option Nat}
    (h : reachEchelon s = .ok r t) : ∃ ops, Trace ForwardStep s ops t := by
  rcases reachEchelon_ok h with ⟨_, _, ha⟩ | ⟨k, u, v, _, hopen, hplace, ha⟩
  · exact ⟨[], .nil ha⟩
  · obtain ⟨ops₁, h₁⟩ := hopen.trace
    obtain ⟨ops₂, h₂⟩ := placePivots_trace hplace
    exact ⟨_, (h₁.trans h₂).then_agree ha⟩

end Reduction

end GaussJordan
