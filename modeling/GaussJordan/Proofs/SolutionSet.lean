import GaussJordan.Proofs.ColumnExchange
import GaussJordan.Proofs.Pictures
import GaussJordan.Proofs.Totality

/-!
# GaussJordan.Proofs.SolutionSet

Forward elimination keeps the solutions, over the rationals and at every tolerance.

A faithful operation keeps them (`Operation.satisfied_apply`): its elementary matrix is invertible,
and an exchange of columns exchanges the unknowns. The two overwritten terms do no harm, since the
operations of forward elimination are faithful whether or not the pivot was scaled to one. So each
of them keeps the solutions, and so does every beginning of a run (`reachEchelon_solutions`).
-/

namespace GaussJordan

open Matrix

variable {n : Nat} {x : Fin n → Complex Rat}

/-- The values solve every equation. -/
def System.Satisfied (m : System Rat n) (x : Fin n → Complex Rat) : Prop :=
  m.matrix *ᵥ x = m.constants.get

theorem Operation.satisfied_apply {op : Operation Rat n} {m : System Rat n} (h : op.Faithful m) :
    (op.apply m).Satisfied (x ∘ op.columns) ↔ m.Satisfied x := by
  have hleft : (op.apply m).matrix *ᵥ (x ∘ op.columns) = (op.matrix * m.matrix) *ᵥ x := by
    have hback : (x ∘ op.columns) ∘ op.columns.symm = x := by
      funext j
      exact congrArg x (op.columns.apply_symm_apply j)
    rw [matrix_apply h, ← mulVec_mulVec, submatrix_mulVec_equiv, hback, ← mulVec_mulVec]
    rfl
  rw [System.Satisfied, hleft, constants_apply]
  exact mulVec_eq_iff (isUnit_det_matrix h)

namespace Reduction

variable {G : System Rat n → Operation Rat n → Prop} {s t : Reduction Rat n}
variable {ops : List (Operation Rat n)}

namespace Trace

theorem satisfied_iff (hG : ∀ m op, G m op → op.Faithful m) (h : Trace G s ops t) :
    t.system.Satisfied (x ∘ Operation.permutation ops) ↔ s.system.Satisfied x := by
  induction h generalizing x with
  | nil ha =>
    rw [ha.system]
    rfl
  | @cons _ _ _ op _ hg hp _ ih =>
    rw [← Operation.satisfied_apply (hG _ _ hg), ← hp.system]
    exact ih (x := x ∘ op.columns)

/-- A beginning of the operations is a trace too. -/
theorem take (h : Trace G s ops t) (k : Nat) : ∃ u, Trace G s (ops.take k) u := by
  induction h generalizing k with
  | nil ha => exact ⟨_, by rw [List.take_nil]; exact .nil ha⟩
  | cons hg hp _ ih =>
    cases k with
    | zero => exact ⟨_, .refl _⟩
    | succ k =>
      obtain ⟨u, hu⟩ := ih k
      exact ⟨u, .cons hg hp hu⟩

end Trace

/-- A run reaches row echelon form, and the notes show the system after each recorded operation.
There, and at the end, the solutions are those of the given system with the unknowns permuted by the
exchanges of columns recorded so far. -/
theorem reachEchelon_solutions (m : System Rat n) (htol : 0 ≤ m.tolerance) :
    ∃ r e, reachEchelon { system := m } = .ok r e ∧
      (r ≠ none → ∃ note : Note, e.notes.back? = some note ∧
        note.description = "Row echelon form" ∧ e.system.text = .ok note.expression) ∧
      (∀ x, m.Satisfied x ↔ e.system.Satisfied (x ∘ Operation.permutation e.recorded)) ∧
      e.system = Operation.applyAll e.recorded m ∧
      ∀ k, k ≤ e.recorded.length →
        let ops := e.recorded.take k
        let after := Operation.applyAll ops m
        (∃ note : Note, e.notes[k]? = some note ∧ after.text = .ok note.expression) ∧
          ∀ x, m.Satisfied x ↔ after.Satisfied (x ∘ Operation.permutation ops) := by
  obtain ⟨r, e, h⟩ := reachEchelon_total (s := { system := m }) htol
  obtain ⟨hsystem, hnotes, hlast⟩ := reachEchelon_illustrated h
  obtain ⟨ops, ht⟩ := reachEchelon_trace h
  have hops : e.recorded = ops := ht.recorded
  have hG : ∀ m (op : Operation Rat n), ForwardStep m op → op.Faithful m :=
    fun _ _ => ForwardStep.faithful
  refine ⟨r, e, h, hlast, fun x => ?_, hsystem, fun k hk => ⟨hnotes k hk, fun x => ?_⟩⟩
  · rw [hops]
    exact (ht.satisfied_iff hG).symm
  · obtain ⟨u, hu⟩ := ht.take k
    have hbegun := (hu.satisfied_iff hG (x := x)).symm
    rw [hu.system] at hbegun
    rw [hops]
    exact hbegun

/-- A run that exchanges its two unknowns. -/
theorem reachEchelon_solutions_faintPair :
    0 ≤ faintPair.tolerance ∧
    ∃ e, reachEchelon { system := faintPair } = .ok (some 2) e ∧ e.columnSwaps = 1 ∧
      (∃ note : Note, e.notes.back? = some note ∧
        note.description = "Row echelon form" ∧ e.system.text = .ok note.expression) ∧
      (∀ x, faintPair.Satisfied x ↔
        e.system.Satisfied (x ∘ Operation.permutation e.recorded)) ∧
      e.system = Operation.applyAll e.recorded faintPair ∧
      ∀ k, k ≤ e.recorded.length →
        let ops := e.recorded.take k
        let after := Operation.applyAll ops faintPair
        (∃ note : Note, e.notes[k]? = some note ∧ after.text = .ok note.expression) ∧
          ∀ x, faintPair.Satisfied x ↔ after.Satisfied (x ∘ Operation.permutation ops) := by
  have htol : 0 ≤ faintPair.tolerance := by decide +kernel
  have hrun : endsWith reachEchelon { system := faintPair }
      (fun r e => r == some 2 && e.columnSwaps == 1) = true := by
    decide +kernel
  obtain ⟨r, e, h, hr⟩ := exists_of_endsWith hrun
  simp only [Bool.and_eq_true, beq_iff_eq] at hr
  obtain ⟨rfl, hswaps⟩ := hr
  obtain ⟨r', e', h', hlast, hsolutions⟩ := reachEchelon_solutions faintPair htol
  rw [h] at h'
  cases h'
  exact ⟨htol, e, h, hswaps, hlast (by simp), hsolutions⟩

end Reduction

end GaussJordan
