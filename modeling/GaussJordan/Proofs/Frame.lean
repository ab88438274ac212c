import GaussJordan.Proofs.PivotSearch

/-!
# GaussJordan.Proofs.Frame

What a pivot's turn leaves alone, over any scalar type and whether the turn ends, stops the loop or
raises.

* `Operation.From k`: the operation names rows and columns from `k` on only. To the left of column
  `k` it acts on each column by itself (`Operation.onColumn`), so no column there is moved or mixed
  with another one (`System.column_applyAll`).
* `Turned`: a turn is at most one exchange of columns and one of rows, from the pivot on, and then
  operations that scale the pivot's row or add it to rows further down (`placePivots_turned`).
* `forwardEliminate_frame`: so the rows of the pivots placed before take part in the exchange of
  columns only, and a pivot has at the end of forward elimination the value it was scaled to.
-/

namespace GaussJordan

variable {α : Type} {n : Nat}

/-- A column of coefficients, from the first row to the last. -/
def System.column (m : System α n) (j : Fin n) : Fin n → Complex α := fun i => m.coefficient i j

namespace Operation

/-- Every row and column that the operation names is one from `k` on. -/
def From (k : Nat) : Operation α n → Prop
  | .swapRows i j => k ≤ i.val ∧ k ≤ j.val
  | .swapColumns i j => k ≤ i.val ∧ k ≤ j.val
  | .scale _ i => k ≤ i.val
  | .addScaled _ i j => k ≤ i.val ∧ k ≤ j.val

theorem From.mono {k l : Nat} (hkl : k ≤ l) {op : Operation α n} (h : op.From l) : op.From k := by
  cases op with
  | swapRows i j => exact ⟨hkl.trans h.1, hkl.trans h.2⟩
  | swapColumns i j => exact ⟨hkl.trans h.1, hkl.trans h.2⟩
  | scale factor i => exact Nat.le_trans hkl h
  | addScaled factor i j => exact ⟨hkl.trans h.1, hkl.trans h.2⟩

/-- The operation is one on rows in a pivot's turn: it scales the pivot's row, or adds a multiple of
it to a row further down. -/
def Reduces (pivot : Fin n) : Operation α n → Prop
  | .scale _ i => i = pivot
  | .addScaled _ i j => i = pivot ∧ pivot < j
  | _ => False

variable {op : Operation α n} {k : Nat} {pivot : Fin n}

theorem Reduces.from (h : op.Reduces pivot) : op.From pivot := by
  cases op with
  | swapRows | swapColumns => exact h.elim
  | scale factor i => exact (congrArg Fin.val h).ge
  | addScaled factor i j => exact ⟨(congrArg Fin.val h.1).ge, Nat.le_of_lt (Fin.lt_def.mp h.2)⟩

variable [Scalar α]

/-- What the operation makes of a column in which it sets no term to one or zero. -/
def onColumn : Operation α n → (Fin n → Complex α) → Fin n → Complex α
  | .swapRows i j, v => v ∘ exchanged i j
  | .swapColumns _ _, v => v
  | .scale factor i, v => Function.update v i (v i * factor)
  | .addScaled factor i j, v => Function.update v j (v j + v i * factor)

/-- What operations one after the other make of a column. -/
def columnAfter (ops : List (Operation α n)) (v : Fin n → Complex α) : Fin n → Complex α :=
  ops.foldl (fun v op => op.onColumn v) v

theorem column_apply (h : op.From k) {j : Fin n} (hj : j.val < k) (m : System α n) :
    (op.apply m).column j = op.onColumn (m.column j) := by
  funext i
  cases op with
  | swapRows a b => exact m.coefficient_swapRows a b i j
  | swapColumns a b =>
    have hja : j ≠ a := Fin.ne_of_lt (Fin.lt_def.mpr (Nat.lt_of_lt_of_le hj h.1))
    have hjb : j ≠ b := Fin.ne_of_lt (Fin.lt_def.mpr (Nat.lt_of_lt_of_le hj h.2))
    refine (m.coefficient_swapColumns a b i j).trans ?_
    rw [exchanged, if_neg hja, if_neg hjb]
    rfl
  | scale factor a =>
    have hja : a ≠ j := Fin.ne_of_gt (Fin.lt_def.mpr (Nat.lt_of_lt_of_le hj h))
    refine (coefficient_apply_scale m factor a i j).trans ?_
    rw [if_neg hja, onColumn, Function.update_apply]
    simp only [eq_comm (a := a)]
    rfl
  | addScaled factor a b =>
    have hja : a ≠ j := Fin.ne_of_gt (Fin.lt_def.mpr (Nat.lt_of_lt_of_le hj h.1))
    refine (coefficient_apply_addScaled m factor a b i j).trans ?_
    rw [if_neg hja, onColumn, Function.update_apply]
    simp only [eq_comm (a := b)]
    rfl

theorem onColumn_of_lt (h : op.From k) {i : Fin n} (hi : i.val < k) (v : Fin n → Complex α) :
    op.onColumn v i = v i := by
  have hne : ∀ {a : Fin n}, k ≤ a.val → i ≠ a := fun ha =>
    Fin.ne_of_lt (Fin.lt_def.mpr (Nat.lt_of_lt_of_le hi ha))
  cases op with
  | swapRows a b =>
    rw [onColumn, Function.comp_apply, exchanged, if_neg (hne h.1), if_neg (hne h.2)]
  | swapColumns a b => rfl
  | scale factor a => exact Function.update_of_ne (hne h) _ _
  | addScaled factor a b => exact Function.update_of_ne (hne h.2) _ _

theorem columnAfter_of_lt {ops : List (Operation α n)} (h : ∀ op ∈ ops, op.From k) {i : Fin n}
    (hi : i.val < k) (v : Fin n → Complex α) : columnAfter ops v i = v i := by
  induction ops generalizing v with
  | nil => rfl
  | cons op ops ih =>
    have hrest := ih (fun op' hop' => h op' (List.mem_cons_of_mem op hop')) (op.onColumn v)
    exact hrest.trans (onColumn_of_lt (h op (by simp)) hi v)

theorem Reduces.row_eq (h : op.Reduces pivot) {i : Fin n} (hi : i < pivot) (m : System α n) :
    (op.apply m).row i = m.row i := by
  cases op with
  | swapRows | swapColumns => exact h.elim
  | scale factor a =>
    obtain rfl : a = pivot := h
    rw [row_apply_scale, if_neg (Fin.ne_of_gt hi)]
  | addScaled factor a b =>
    rw [row_apply_addScaled, if_neg (Fin.ne_of_gt (Fin.lt_trans hi h.2))]

end Operation

variable [Scalar α]

namespace Reduction

theorem RowStep.reduces {pivot : Fin n} {m : System α n} {op : Operation α n}
    (h : RowStep pivot m op) : op.Reduces pivot := by
  cases h with
  | scale => rfl
  | clear hclear =>
    cases hclear with
    | addScaled hlt => exact ⟨rfl, hlt⟩

theorem TurnStep.from {pivot : Fin n} {m : System α n} {op : Operation α n}
    (h : TurnStep pivot m op) : op.From pivot := by
  cases h with
  | swapRows hle => exact ⟨le_refl _, hle⟩
  | swapColumns hlt => exact ⟨le_refl _, Nat.le_of_lt (Fin.lt_def.mp hlt)⟩
  | row hrow => exact hrow.reduces.from

end Reduction

namespace System

open Operation

variable {ops : List (Operation α n)}

theorem column_applyAll {k : Nat} (h : ∀ op ∈ ops, op.From k) {j : Fin n} (hj : j.val < k)
    (m : System α n) : (applyAll ops m).column j = columnAfter ops (m.column j) := by
  induction ops generalizing m with
  | nil => rfl
  | cons op ops ih =>
    have hfirst := column_apply (h op (by simp)) hj m
    have hrest := ih (fun op' hop' => h op' (List.mem_cons_of_mem op hop')) (op.apply m)
    rw [hfirst] at hrest
    exact hrest

theorem row_applyAll {pivot : Fin n} (h : ∀ op ∈ ops, op.Reduces pivot) {i : Fin n}
    (hi : i < pivot) (m : System α n) : (applyAll ops m).row i = m.row i := by
  induction ops generalizing m with
  | nil => rfl
  | cons op ops ih =>
    have hrest := ih (fun op' hop' => h op' (List.mem_cons_of_mem op hop')) (op.apply m)
    exact hrest.trans ((h op (by simp)).row_eq hi m)

end System

namespace Reduction

open Operation

/-! ## One turn -/

/-- What a pivot's turn makes of a system: an exchange of columns and one of rows, from the pivot on
and none where both are the pivot's own, and then operations on the pivot's row and those below. -/
structure Turned (pivot column row : Fin n) (steps : List (Operation α n))
    (m m' : System α n) : Prop where
  column_le : pivot ≤ column
  row_le : pivot ≤ row
  reduces : ∀ op ∈ steps, op.Reduces pivot
  system : m' = applyAll steps ((m.swapColumns pivot column).swapRows pivot row)

namespace Turned

variable {pivot column row : Fin n} {steps : List (Operation α n)} {m m' : System α n}

theorem row_eq (h : Turned pivot column row steps m m') {i : Fin n} (hi : i < pivot) :
    m'.row i = (m.row i).swapTerms pivot column := by
  rw [h.system, System.row_applyAll h.reduces hi, System.row_swapRows, if_neg (Fin.ne_of_lt hi),
    if_neg (Fin.ne_of_lt (Fin.lt_of_lt_of_le hi h.row_le)), System.row_swapColumns]

theorem constant_eq (h : Turned pivot column row steps m m') {i : Fin n} (hi : i < pivot) :
    (m'.row i).constant = (m.row i).constant := by
  rw [h.row_eq hi, Row.constant_swapTerms]

theorem coefficient_eq (h : Turned pivot column row steps m m') {i j : Fin n} (hi : i < pivot)
    (hj : j < pivot) : m'.coefficient i j = m.coefficient i j := by
  have hterm := (m.row i).getElem_swapTerms pivot column j
  simp only [exchanged_of_lt hj h.column_le, ← h.row_eq hi] at hterm
  exact hterm

theorem column_eq (h : Turned pivot column row steps m m') {j : Fin n} (hj : j < pivot) :
    m'.column j = columnAfter (.swapRows pivot row :: steps) (m.column j) := by
  have hfirst : (Operation.swapColumns pivot column : Operation α n).From pivot :=
    ⟨le_refl _, h.column_le⟩
  have hthen : ∀ op ∈ .swapRows pivot row :: steps, op.From pivot := by
    intro op hop
    rcases List.mem_cons.mp hop with rfl | hop
    · exact ⟨le_refl _, h.row_le⟩
    · exact (h.reduces op hop).from
  have hcolumn : (m.swapColumns pivot column).column j = m.column j := column_apply hfirst hj m
  rw [h.system, ← hcolumn]
  exact System.column_applyAll hthen hj _

end Turned

theorem system_final_findPivot (pivot : Fin n) (s : Reduction α n) :
    ∃ column row : Fin n, pivot ≤ column ∧ pivot ≤ row ∧
      (final (findPivot pivot) s).system =
        (s.system.swapColumns pivot column).swapRows pivot row := by
  rw [findPivot, final_get_bind]
  dsimp only
  split
  · exact system_final_bringPivot pivot s
  · refine ⟨pivot, pivot, le_refl _, le_refl _, ?_⟩
    rw [final_pure, System.swapColumns_self, System.swapRows_self]

/-- However a turn ends, it was a turn. -/
theorem placePivots_turned (pivot : Fin n) (s : Reduction α n) :
    ∃ column row steps, Turned pivot column row steps s.system
      (final (placePivots [pivot]) s).system := by
  obtain ⟨column, row, hcolumn, hrow, hfound⟩ := system_final_findPivot pivot s
  let m := (s.system.swapColumns pivot column).swapRows pivot row
  let I : System α n → List (Operation α n) → Prop := fun m' _ =>
    ∃ steps, (∀ op ∈ steps, op.Reduces pivot) ∧ m' = applyAll steps m
  have hI : Admits I (RowStep pivot) := by
    rintro m' _ op hop ⟨steps, hsteps, rfl⟩
    have hnext : I (op.apply (applyAll steps m)) [] := by
      refine ⟨steps ++ [op], fun op' hop' => ?_, (applyAll_concat steps op m).symm⟩
      rcases List.mem_append.mp hop' with hop' | hop'
      · exact hsteps op' hop'
      · obtain rfl := List.mem_singleton.mp hop'
        exact hop.reduces
    exact ⟨hnext, hnext⟩
  have hend : I (final (placePivots [pivot]) s).system [] := by
    refine final_bind (P := fun t => I t.system []) (fun e t h => ?_) fun found t h => ?_
    · rw [final_error h] at hfound
      exact ⟨[], nofun, hfound⟩
    · rw [final_ok h] at hfound
      have ht : I t.system t.recorded := ⟨[], nofun, hfound⟩
      split
      · exact (normalize_leaves hI ht).bind fun _ u hu =>
          (eliminateBelow_leaves (hI.mono fun _ _ => .clear) hu).bind fun _ _ hv => .pure hv
      · exact ht
  obtain ⟨steps, hsteps, hsystem⟩ := hend
  exact ⟨column, row, steps, hcolumn, hrow, hsteps, hsystem⟩

/-! ## The loop -/

variable {s t : Reduction α n}

/-- One more pivot is placed exactly if its turn ends well and the rest of the loop does. -/
theorem placePivots_succ_ok {pivot : Fin n} {rest : List (Fin n)} {k : Nat} :
    placePivots (pivot :: rest) s = .ok (k + 1) t ↔
      ∃ u v w, findPivot pivot s = .ok true u ∧ normalize pivot u = .ok () v ∧
        eliminateBelow pivot v = .ok () w ∧ placePivots rest w = .ok k t := by
  simp only [placePivots, bind_ok]
  constructor
  · rintro ⟨found, u, hfound, h⟩
    cases found with
    | false => simp [pure_ok] at h
    | true =>
      simp only [if_true, bind_ok, pure_ok] at h
      obtain ⟨_, v, hnorm, _, w, helim, placed, _, hrest, hk, rfl⟩ := h
      obtain rfl : placed = k := Nat.succ.inj hk
      exact ⟨u, v, w, hfound, hnorm, helim, hrest⟩
  · rintro ⟨u, v, w, hfound, hnorm, helim, hrest⟩
    refine ⟨true, u, hfound, ?_⟩
    simp only [if_true, bind_ok, pure_ok]
    exact ⟨(), v, hnorm, (), w, helim, k, t, hrest, rfl, rfl⟩

/-- If pivots enough were placed, the loop can be cut anywhere before. -/
theorem placePivots_append_ok {xs ys : List (Fin n)} {k : Nat} (hk : xs.length ≤ k)
    (h : placePivots (xs ++ ys) s = .ok k t) :
    ∃ u, placePivots xs s = .ok xs.length u ∧ placePivots ys u = .ok (k - xs.length) t := by
  induction xs generalizing s k with
  | nil => exact ⟨s, rfl, h⟩
  | cons x xs ih =>
    obtain ⟨k, rfl⟩ : ∃ l, k = l + 1 := ⟨k - 1, by simp at hk; omega⟩
    obtain ⟨u, v, w, hfound, hnorm, helim, hrest⟩ := placePivots_succ_ok.mp h
    obtain ⟨z, hxs, hys⟩ := ih (by simpa using hk) hrest
    refine ⟨z, placePivots_succ_ok.mpr ⟨u, v, w, hfound, hnorm, helim, hxs⟩, ?_⟩
    rwa [List.length_cons, Nat.add_sub_add_right]

/-- A loop with its first pivot found and scaled goes on by clearing below it. -/
theorem final_placePivots_cons {pivot : Fin n} {rest : List (Fin n)} {u v : Reduction α n}
    (hfound : findPivot pivot s = .ok true u) (hnorm : normalize pivot u = .ok () v) :
    final (placePivots (pivot :: rest)) s =
      final (eliminateBelow pivot >>= fun _ => placePivots rest) v := by
  rw [placePivots, final_bind_ok hfound, if_pos rfl, final_bind_ok hnorm]
  exact final_bind_congr (fun _ _ => final_bind_pure _ _ _) v

/-- After all pivots of a first part were placed, the loop ends as the loop over the rest does. -/
theorem final_placePivots_append {xs ys : List (Fin n)} {u : Reduction α n}
    (h : placePivots xs s = .ok xs.length u) :
    final (placePivots (xs ++ ys)) s = final (placePivots ys) u := by
  induction xs generalizing s with
  | nil =>
    obtain ⟨_, rfl⟩ := pure_ok.mp h
    rfl
  | cons x xs ih =>
    obtain ⟨v, w, z, hfound, hnorm, helim, hrest⟩ := placePivots_succ_ok.mp h
    rw [List.cons_append, final_placePivots_cons hfound hnorm, final_bind_ok helim]
    exact ih hrest

/-- The pivots before one of them, that one, and those after it. -/
theorem finRange_eq_append (i : Fin n) :
    List.finRange n = (List.finRange n).take i ++ i :: (List.finRange n).drop (i + 1) := by
  have hi : i.val < (List.finRange n).length := by simp
  have hdrop := List.drop_eq_getElem_cons hi
  rw [List.getElem_finRange] at hdrop
  exact (List.take_append_drop i.val _).symm.trans (congrArg _ hdrop)

theorem length_take_finRange (i : Fin n) : ((List.finRange n).take i).length = i.val := by
  rw [List.length_take, List.length_finRange]
  exact min_eq_left i.isLt.le

/-- Once its row was scaled, a pivot stays as it is until the loop ends, in whatever way. -/
theorem coefficient_placed {i : Fin n} {a b c : Reduction α n}
    (hbefore : placePivots ((List.finRange n).take i) s = .ok i.val a)
    (hfound : findPivot i a = .ok true b) (hnorm : normalize i b = .ok () c) :
    (final (placePivots (List.finRange n)) s).system.coefficient i i =
      c.system.coefficient i i := by
  let I : System α n → List (Operation α n) → Prop := fun m _ =>
    m.coefficient i i = c.system.coefficient i i
  have hclear : Admits I (ClearStep i) := fun m _ op hop hm =>
    have h := hop.coefficient_pivot.trans hm
    ⟨h, h⟩
  have hlater : ∀ p : Fin n, i < p → Admits I (TurnStep p) := fun p hp m _ op hop hm =>
    have h :=
      ((congrFun (column_apply hop.from hp m) i).trans (onColumn_of_lt hop.from hp _)).trans hm
    ⟨h, h⟩
  have hend :
      Leaves I (eliminateBelow i >>= fun _ => placePivots ((List.finRange n).drop (i + 1))) c :=
    (eliminateBelow_leaves hclear rfl).bind fun _ u hu =>
      placePivots_leaves (fun p hp => hlater p (System.mem_drop_finRange.mp hp)) hu
  have hplaced : placePivots ((List.finRange n).take i) s =
      .ok ((List.finRange n).take i).length a := by
    rw [length_take_finRange, hbefore]
  have hfinal : final (placePivots (List.finRange n)) s =
      final (placePivots (i :: (List.finRange n).drop (i + 1))) a := by
    rw [← final_placePivots_append hplaced, ← finRange_eq_append]
  rw [hfinal, final_placePivots_cons hfound hnorm]
  exact hend

/-- The turn of a pivot, whether it ends, stops the loop or raises, has made at most one exchange of
columns and one of rows, from the pivot on, and then changed the pivot's row and rows further down.
So the rows above take part in the exchange of columns only, and the columns to the left stay in
their places. At the end of forward elimination, a pivot has the value it had after its row was
scaled. -/
theorem forwardEliminate_frame (s : Reduction α n) :
    (∀ (pivot : Fin n) (u : Reduction α n), ∃ column row steps,
      Turned pivot column row steps u.system (final (placePivots [pivot]) u).system ∧
      (∀ i < pivot,
        (final (placePivots [pivot]) u).system.row i =
          (u.system.row i).swapTerms pivot column ∧
        ((final (placePivots [pivot]) u).system.row i).constant = (u.system.row i).constant ∧
        ∀ j < pivot, (final (placePivots [pivot]) u).system.coefficient i j =
          u.system.coefficient i j) ∧
      ∀ j < pivot, (final (placePivots [pivot]) u).system.column j =
        columnAfter (.swapRows pivot row :: steps) (u.system.column j)) ∧
    (∀ (i : Fin n) (a b c : Reduction α n),
      placePivots ((List.finRange n).take i) { s with stage := some .forwardElimination } =
        .ok i.val a →
      findPivot i a = .ok true b → normalize i b = .ok () c →
      (final forwardEliminate s).system.coefficient i i = c.system.coefficient i i) ∧
    ∀ (k : Nat) (t : Reduction α n), forwardEliminate s = .ok k t → ∀ i : Fin n, i.val < k →
      ∃ a b c,
        placePivots ((List.finRange n).take i) { s with stage := some .forwardElimination } =
          .ok i.val a ∧
        findPivot i a = .ok true b ∧ normalize i b = .ok () c ∧
        t.system.coefficient i i = c.system.coefficient i i := by
  refine ⟨fun pivot u => ?_, fun i a b c => coefficient_placed, fun k t h i hi => ?_⟩
  · obtain ⟨column, row, steps, hturned⟩ := placePivots_turned pivot u
    exact ⟨column, row, steps, hturned,
      fun i hi =>
        ⟨hturned.row_eq hi, hturned.constant_eq hi, fun j hj => hturned.coefficient_eq hi hj⟩,
      fun j hj => hturned.column_eq hj⟩
  · have hloop : placePivots (List.finRange n) { s with stage := some .forwardElimination } =
        .ok k t := h
    have hcut := hloop
    rw [finRange_eq_append i] at hcut
    have hlength := length_take_finRange i
    obtain ⟨a, hbefore, hrest⟩ := placePivots_append_ok (by omega) hcut
    rw [hlength] at hbefore hrest
    obtain ⟨l, hl⟩ : ∃ l, k - i.val = l + 1 := ⟨k - i.val - 1, by omega⟩
    rw [hl] at hrest
    obtain ⟨b, c, _, hfound, hnorm, _⟩ := placePivots_succ_ok.mp hrest
    refine ⟨a, b, c, hbefore, hfound, hnorm, ?_⟩
    rw [← final_ok hloop]
    exact coefficient_placed hbefore hfound hnorm

/-- The one pivot that can be placed is as its row's scaling left it. -/
theorem forwardEliminate_frame_hiddenUnknown :
    ∃ a b c t : Reduction Double 2, forwardEliminate { system := hiddenUnknown } = .ok 1 t ∧
      findPivot 0 a = .ok true b ∧ normalize 0 b = .ok () c ∧
      t.system.coefficient 0 0 = c.system.coefficient 0 0 := by
  have hrun : endsWith forwardEliminate { system := hiddenUnknown } (fun k _ => k == 1) = true := by
    decide +kernel
  obtain ⟨k, t, hforward, hk⟩ := exists_of_endsWith hrun
  obtain rfl := eq_of_beq hk
  obtain ⟨a, b, c, _, hfound, hnorm, hkept⟩ :=
    (forwardEliminate_frame { system := hiddenUnknown }).2.2 1 t hforward 0 Nat.one_pos
  exact ⟨a, b, c, t, hforward, hfound, hnorm, hkept⟩

end Reduction

end GaussJordan
