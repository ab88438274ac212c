import GaussJordan.Proofs.FiniteRun
import GaussJordan.Proofs.Frame
import GaussJordan.Proofs.PivotCount

/-!
# GaussJordan.Proofs.Residue

What stands below the pivots in row echelon form.

The turn of a pivot leaves its row alone if the inverse of the pivot is one within the tolerance
(`Scaled`), and a term below it if the *quotient* of the term by the pivot is zero within the
tolerance (`Residue`). The operations of the turns that follow name rows and columns further on
only, so the pivot stays, and they act on its column by itself: they exchange, scale and add up what
was left there, and a small residue may become a large one.

* `reachEchelon_turns`: over any scalar type, what each turn left and what came after it.
* `reachEchelon_residues`: what stands below a pivot is what the later operations make of its
  residues. It is zero if no residue was left, and within the tolerance below the last pivot, if
  that was scaled to one.
* `residue_grows`: a term below a pivot that is far from zero.
-/

namespace GaussJordan

variable {α : Type} [Scalar α] {n : Nat}

/-- What a pivot's turn may leave below the pivot: a zero, or a term whose quotient by the pivot
counts as zero. -/
inductive Residue (tol : α) (pivotTerm : Complex α) : Complex α → Prop where
  | cleared : Residue tol pivotTerm .zero
  | skipped {a q : Complex α} : a.div pivotTerm = .ok q → (-q).isZero tol = true →
      Residue tol pivotTerm a

/-- What a pivot's turn may leave of the pivot: a one, or a term whose inverse counts as one. -/
inductive Scaled (tol : α) : Complex α → Prop where
  | one : Scaled tol .one
  | skipped {a factor : Complex α} : a.inverse = .ok factor → factor.isOne tol = true →
      Scaled tol a

namespace Reduction

theorem normalize_scaled {pivot : Fin n} {s t : Reduction α n} {c : Unit}
    (h : normalize pivot s = .ok c t) :
    Scaled s.system.tolerance (t.system.coefficient pivot pivot) := by
  obtain ⟨factor, hf, ⟨hone, rfl⟩ | ⟨_, hp⟩⟩ := normalize_ok h
  · exact .skipped hf hone
  · rw [hp.system, Operation.coefficient_apply_scale, if_pos rfl, if_pos rfl]
    exact .one

theorem eliminateBelow_residue {pivot : Fin n} {s t : Reduction α n} {c : Unit}
    (h : eliminateBelow pivot s = .ok c t) {i : Fin n} (hi : pivot < i) :
    Residue t.system.tolerance (t.system.coefficient pivot pivot)
      (t.system.coefficient i pivot) := by
  obtain ⟨htol, _, hbelow⟩ := eliminateBelow_ok h
  obtain ⟨q, hq, hrow⟩ := hbelow i hi
  have hterm : t.system.coefficient i pivot =
      ((s.system.row i).cleared s.system.tolerance (-q) pivot
        (s.system.row pivot))[pivot.castSucc] := by
    rw [System.coefficient, System.term, hrow]
  rw [hterm, eliminateBelow_pivot h, htol, Row.cleared]
  split
  · rename_i hz
    exact .skipped hq hz
  · rw [Row.getElem_setTerm, if_pos rfl]
    exact .cleared

namespace PivotPlaced

variable {pivot : Fin n} {s t : Reduction α n}

theorem scaled (h : PivotPlaced pivot s t) :
    Scaled s.system.tolerance (t.system.coefficient pivot pivot) := by
  obtain ⟨hfound, hnorm, helim⟩ := h
  rw [eliminateBelow_pivot helim, ← hfound.rearranged.tolerance]
  exact normalize_scaled hnorm

theorem residue (h : PivotPlaced pivot s t) {i : Fin n} (hi : pivot < i) :
    Residue s.system.tolerance (t.system.coefficient pivot pivot)
      (t.system.coefficient i pivot) := by
  rw [← h.tolerance]
  obtain ⟨_, _, helim⟩ := h
  exact eliminateBelow_residue helim hi

end PivotPlaced

/-- The operations of the loop over later pivots name rows and columns further on only. -/
theorem placePivots_from {pivots : List (Fin n)} {k l : Nat} {s t : Reduction α n}
    (hk : ∀ p ∈ pivots, k ≤ p.val) (h : placePivots pivots s = .ok l t) :
    ∃ ops, Trace (fun _ op => op.From k) s ops t ∧ (l = 0 → ops = []) := by
  induction pivots generalizing s l with
  | nil =>
    obtain ⟨_, rfl⟩ := pure_ok.mp h
    exact ⟨[], .refl s, fun _ => rfl⟩
  | cons pivot rest ih =>
    rcases placePivots_cons_ok h with ⟨_, rfl, _⟩ | ⟨u, placed, rfl, hplaced, hrest⟩
    · exact ⟨[], .refl _, fun _ => rfl⟩
    · obtain ⟨ops, hturn⟩ := hplaced.turn
      obtain ⟨ops', hlater, _⟩ := ih (fun p hp => hk p (List.mem_cons_of_mem pivot hp)) hrest
      refine ⟨ops ++ ops', (hturn.mono fun _ _ hop => ?_).trans hlater, nofun⟩
      exact hop.from.mono (hk pivot (by simp))

/-- The state after the turn of a pivot that was placed, and the operations that came after. -/
theorem placePivots_after {s t : Reduction α n} {k : Nat}
    (h : placePivots (List.finRange n) s = .ok k t) {j : Fin n} (hj : j.val < k) :
    ∃ u later, placePivots ((List.finRange n).take (j + 1)) s = .ok (j + 1) u ∧
      Trace (fun _ op => op.From (j + 1)) u later t ∧ (j.val + 1 = k → later = []) ∧
      Scaled s.system.tolerance (u.system.coefficient j j) ∧
      ∀ i : Fin n, j < i → Residue s.system.tolerance (u.system.coefficient j j)
        (u.system.coefficient i j) := by
  have hsplit : (List.finRange n).take (j + 1) = (List.finRange n).take j ++ [j] := by
    rw [List.take_succ_eq_append_getElem (by simp), List.getElem_finRange]
    rfl
  have hbefore := length_take_finRange j
  have hlength : ((List.finRange n).take (j + 1)).length = j.val + 1 := by
    rw [hsplit, List.length_append, hbefore, List.length_singleton]
  rw [← List.take_append_drop (j + 1) (List.finRange n)] at h
  obtain ⟨u, hturns, hrest⟩ := placePivots_append_ok (by omega) h
  rw [hlength] at hturns hrest
  obtain ⟨later, hlater, hnone⟩ :=
    placePivots_from (fun p hp => System.mem_drop_finRange.mp hp) hrest
  have hcut := hturns
  rw [hsplit] at hcut
  obtain ⟨a, hfirst, hturn⟩ := placePivots_append_ok (by omega) hcut
  rw [hbefore, Nat.add_sub_cancel_left] at hturn
  obtain ⟨_, htrace, _⟩ := placePivots_from (fun p _ => Nat.zero_le p.val) hfirst
  rcases placePivots_cons_ok hturn with ⟨hnone, _⟩ | ⟨w, _, _, hplaced, hend⟩
  · cases hnone
  · obtain ⟨_, rfl⟩ := pure_ok.mp hend
    rw [← htrace.tolerance]
    exact ⟨_, later, hturns, hlater, fun hk => hnone (by omega), hplaced.scaled,
      fun i hi => hplaced.residue hi⟩

/-- What the turn of a pivot left when it ended in `u`, and what the operations `later` made of it
up to row echelon form `e`. They name rows and columns further on only. -/
structure Placed (pivot : Fin n) (m : System α n) (u : Reduction α n)
    (later : List (Operation α n)) (e : Reduction α n) : Prop where
  system : u.system = Operation.applyAll u.recorded m
  scaled : Scaled m.tolerance (u.system.coefficient pivot pivot)
  residue : ∀ i, pivot < i →
    Residue m.tolerance (u.system.coefficient pivot pivot) (u.system.coefficient i pivot)
  recorded : e.recorded = u.recorded ++ later
  later_from : ∀ op ∈ later, op.From (pivot + 1)
  column : e.system.column pivot = Operation.columnAfter later (u.system.column pivot)

/-- The pivot stays as its turn left it. -/
theorem Placed.pivot_eq {pivot : Fin n} {m : System α n} {u e : Reduction α n}
    {later : List (Operation α n)} (h : Placed pivot m u later e) :
    e.system.coefficient pivot pivot = u.system.coefficient pivot pivot :=
  (congrFun h.column pivot).trans
    (Operation.columnAfter_of_lt h.later_from (Nat.lt_succ_self _) _)

/-- Every pivot up to row echelon form had its turn. -/
theorem reachEchelon_turns {m : System α n} {e : Reduction α n} {k : Nat}
    (h : reachEchelon { system := m } = .ok (some k) e) :
    ∃ start, Opened { system := m } start ∧ ∀ j : Fin n, j.val < k → ∃ u later,
      placePivots ((List.finRange n).take (j + 1)) start = .ok (j + 1) u ∧
      Placed j m u later e ∧ (j.val + 1 = k → later = []) := by
  rcases reachEchelon_ok h with ⟨hr, _⟩ | ⟨_, start, v, hk, hopen, hplace, ha⟩
  · cases hr
  cases hk
  refine ⟨start, hopen, fun j hj => ?_⟩
  obtain ⟨u, later, hturns, htrace, hlast, hscaled, hresidue⟩ := placePivots_after hplace hj
  rw [hopen.tolerance] at hscaled hresidue
  obtain ⟨ops₁, hops₁⟩ := hopen.trace
  obtain ⟨ops₂, hops₂, _⟩ := placePivots_from (fun p _ => Nat.zero_le p.val) hturns
  have hbefore : Trace (fun _ _ => True) { system := m } (ops₁ ++ ops₂) u :=
    (hops₁.mono fun _ _ _ => trivial).trans (hops₂.mono fun _ _ _ => trivial)
  have hops : u.recorded = ops₁ ++ ops₂ := hbefore.recorded
  have hfrom := htrace.forall_mem (P := fun op => op.From (j + 1)) fun _ _ hop => hop
  refine ⟨u, later, hturns, ⟨?_, hscaled, hresidue, ?_, hfrom, ?_⟩, hlast⟩
  · rw [hbefore.system, hops]
  · rw [← htrace.recorded, Reduction.recorded, ha.operations, Reduction.recorded]
  · rw [ha.system, htrace.system]
    exact System.column_applyAll hfrom (Nat.lt_succ_self _) _

end Reduction

/-- A residue of a pivot that is one is itself within the tolerance. -/
theorem Residue.isZero {tol : Double} {a : Complex Double} (htol : Double.lt .zero tol = true)
    (h : Residue tol .one a) (ha : a.IsFinite) : a.isZero tol = true := by
  cases h with
  | cleared => exact Complex.isZero_of_hasUnits htol Complex.hasUnits_zero
  | skipped hq hz =>
    obtain ⟨i, j, hunits⟩ := Complex.isFinite_iff.mp ha
    exact Complex.isZero_of_neg hunits (hunits.of_div_one Complex.hasUnits_one hq) hz

namespace Operation

variable {ops : List (Operation Double n)} {op : Operation Double n} {k : Nat}
variable {v : Fin n → Complex Double}

/-- Zeros from `k` on stay zeros there. -/
theorem onColumn_zero (hop : op.From k)
    (hfinite : ∀ factor, op.factor? = some factor → factor.IsFinite)
    (hv : ∀ i : Fin n, k ≤ i.val → (v i).HasUnits 0 0) (i : Fin n) (hi : k ≤ i.val) :
    (op.onColumn v i).HasUnits 0 0 := by
  cases op with
  | swapRows a b => exact hv _ ((System.movesFrom_exchanged hop.1 hop.2).above i hi)
  | swapColumns a b => exact hv i hi
  | scale factor a =>
    rw [onColumn, Function.update_apply]
    split
    · exact (hv a hop).zero_mul (hfinite factor rfl)
    · exact hv i hi
  | addScaled factor a b =>
    rw [onColumn, Function.update_apply]
    split
    · exact (hv b hop.2).add_zero_mul (hv a hop.1) (hfinite factor rfl)
    · exact hv i hi

theorem columnAfter_zero (hops : ∀ op ∈ ops, op.From k)
    (hfinite : ∀ op ∈ ops, ∀ factor, op.factor? = some factor → factor.IsFinite)
    (hv : ∀ i : Fin n, k ≤ i.val → (v i).HasUnits 0 0) (i : Fin n) (hi : k ≤ i.val) :
    (columnAfter ops v i).HasUnits 0 0 := by
  induction ops generalizing v with
  | nil => exact hv i hi
  | cons op ops ih =>
    refine ih (fun op' h => hops op' (List.mem_cons_of_mem op h))
      (fun op' h => hfinite op' (List.mem_cons_of_mem op h)) fun l hl => ?_
    exact onColumn_zero (hops op (by simp)) (hfinite op (by simp)) hv l hl

end Operation

namespace Reduction

open Operation

/-! ## Row echelon form -/

variable {m : System Double n} {e : Reduction Double n}

theorem reachEchelon_factors {r : Option Nat} (h : reachEchelon { system := m } = .ok r e) :
    ∀ op ∈ e.recorded, ∀ factor, op.factor? = some factor → factor.IsFinite := by
  have hrun := reachEchelon_runs (s := { system := m }) rfl
  rw [Runs, h] at hrun
  have hlabelled : Labelled e :=
    hrun.1.invariant (fun _ _ => Advance.labelled) (by simp [Labelled])
  intro op hop factor hfactor
  obtain ⟨entry, hentry, rfl⟩ := List.mem_map.mp hop
  exact isFinite_factor (hlabelled entry (Array.mem_toList_iff.mp hentry)) hfactor

/-- Every state on the way to row echelon form was shown, so it is finite. -/
theorem reachEchelon_isFinite {r : Option Nat} (h : reachEchelon { system := m } = .ok r e)
    {ops later : List (Operation Double n)} (hops : e.recorded = ops ++ later) :
    (applyAll ops m).IsFinite := by
  have hle : ops.length ≤ e.recorded.length := by
    rw [hops, List.length_append]
    exact Nat.le_add_right _ _
  obtain ⟨_, _, hpicture⟩ := (reachEchelon_illustrated h).2.1 ops.length hle
  rw [hops, List.take_left] at hpicture
  exact System.isFinite_of_text hpicture

/-- In row echelon form, the terms below each pivot are what the operations of the later turns make
of the residues that the pivot's turn left. They are zero if the residues are, and within the
tolerance below the last pivot, if that was scaled to one. -/
theorem reachEchelon_residues {k : Nat} (htol : Double.lt .zero m.tolerance = true)
    (h : reachEchelon { system := m } = .ok (some k) e) :
    ∃ start, Opened { system := m } start ∧ ∀ j : Fin n, j.val < k → ∃ u later,
      placePivots ((List.finRange n).take (j + 1)) start = .ok (j + 1) u ∧
      (∀ i, j < i → Residue m.tolerance (u.system.coefficient j j) (u.system.coefficient i j)) ∧
      e.recorded = u.recorded ++ later ∧ (∀ op ∈ later, op.From (j + 1)) ∧
      e.system.column j = columnAfter later (u.system.column j) ∧
      ((∀ i, j < i → (u.system.coefficient i j).eq .zero = true) →
        ∀ i, j < i → e.system.isZeroAt i j = true) ∧
      (j.val + 1 = k → u.system.coefficient j j = .one →
        ∀ i, j < i → e.system.isZeroAt i j = true) := by
  obtain ⟨start, hopen, hturns⟩ := reachEchelon_turns h
  refine ⟨start, hopen, fun j hj => ?_⟩
  obtain ⟨u, later, hturns, ⟨hsystem, _, hresidue, hrecorded, hfrom, hcolumn⟩, hlast⟩ :=
    hturns j hj
  have htolerance : e.system.tolerance = m.tolerance := by
    obtain ⟨_, hall⟩ := reachEchelon_trace h
    exact hall.tolerance
  refine ⟨u, later, hturns, hresidue, hrecorded, hfrom, hcolumn, fun hzero i hi => ?_,
    fun hk hone i hi => ?_⟩
  · have hterm : e.system.coefficient i j = columnAfter later (u.system.column j) i :=
      congrFun hcolumn i
    have hfactors : ∀ op ∈ later, ∀ factor, op.factor? = some factor → factor.IsFinite :=
      fun op hop => reachEchelon_factors h op (hrecorded ▸ List.mem_append_right _ hop)
    rw [System.isZeroAt, htolerance, hterm]
    refine Complex.isZero_of_hasUnits htol (columnAfter_zero hfrom hfactors (fun l hl => ?_) i hi)
    exact Complex.eq_zero_iff.mp (hzero l hl)
  · have hterm : e.system.coefficient i j = u.system.coefficient i j := by
      rw [hlast hk] at hcolumn
      exact congrFun hcolumn i
    have hfinite : u.system.IsFinite := by
      rw [hsystem]
      exact reachEchelon_isFinite h hrecorded
    have hleft := hresidue i hi
    rw [hone] at hleft
    rw [System.isZeroAt, htolerance, hterm]
    exact hleft.isZero htol (hfinite i j.castSucc)

/-- `x = 1` and `2⁻³⁰ x + 2⁻²⁹ y = 1`: the first term of the second equation is within the tolerance
of `10⁻⁹`, and half as large as the second one. -/
def faintRow : System Double 2 where
  tolerance := defaultTolerance
  rows :=
    #v[#v[.one, .zero, .one],
      #v[.ofReal (.ofRatio false 1 (Nat.pow 2 30)), .ofReal (.ofRatio false 1 (Nat.pow 2 29)),
        .one]]

/-- The residue left by the first turn is carried on by the second one. -/
theorem reachEchelon_residues_faintRow :
    Double.lt .zero faintRow.tolerance = true ∧
      ∃ (e u : Reduction Double 2) (later : List (Operation Double 2)),
        reachEchelon { system := faintRow } = .ok (some 2) e ∧
        Residue faintRow.tolerance (u.system.coefficient 0 0) (u.system.coefficient 1 0) ∧
        e.recorded = u.recorded ++ later ∧
        e.system.column 0 = columnAfter later (u.system.column 0) := by
  have htol : Double.lt .zero faintRow.tolerance = true := by decide +kernel
  have hrun : endsWith reachEchelon { system := faintRow } (fun r _ => r == some 2) = true := by
    decide +kernel
  obtain ⟨r, e, hreach, hr⟩ := exists_of_endsWith hrun
  obtain rfl := eq_of_beq hr
  obtain ⟨_, _, hturns⟩ := reachEchelon_residues htol hreach
  obtain ⟨u, later, _, hresidue, hrecorded, _, hcolumn, _⟩ := hturns 0 (by decide)
  exact ⟨htol, e, u, later, hreach, hresidue 1 (by decide), hrecorded, hcolumn⟩

/-- The second row is scaled by `2²⁹`, and the residue in it becomes one half, below the first pivot
of a system that is said to be in row echelon form. -/
theorem residue_grows :
    Double.lt .zero faintRow.tolerance = true ∧
      Double.lt faintRow.tolerance Double.half = true ∧ faintRow.IsFinite ∧
      ∃ e, reachEchelon { system := faintRow } = .ok (some 2) e ∧
        (∃ note : Note, e.notes.back? = some note ∧ note.description = "Row echelon form" ∧
          e.system.text = .ok note.expression) ∧
        (e.system.coefficient 1 0).eq (.ofReal Double.half) = true ∧
        e.system.isZeroAt 1 0 = false := by
  have hrun : endsWith reachEchelon { system := faintRow } (fun r e => r == some 2 &&
      (e.system.coefficient 1 0).eq (.ofReal Double.half) && !e.system.isZeroAt 1 0) = true := by
    decide +kernel
  obtain ⟨r, e, hreach, he⟩ := exists_of_endsWith hrun
  simp only [Bool.and_eq_true, beq_iff_eq, Bool.not_eq_true'] at he
  obtain ⟨⟨rfl, hhalf⟩, hz⟩ := he
  exact ⟨by decide +kernel, by decide +kernel, by decide +kernel, e, hreach,
    (reachEchelon_illustrated hreach).2.2 nofun, hhalf, hz⟩

end Reduction

end GaussJordan
