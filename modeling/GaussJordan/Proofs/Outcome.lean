import GaussJordan.Proofs.Forward

/-!
# GaussJordan.Proofs.Outcome

From row echelon form to the report, over any scalar type: `classify_ok` lists the three ways a run
can end and what the report says in each (`Outcome`), and `solve_ok` puts the whole run together.

`System.restored` takes recorded exchanges of unknowns back, so `inputOrder` is the system with its
unknowns in the order of the input.
-/

namespace GaussJordan

variable {α : Type} {n : Nat}

namespace System

/-- The recorded exchanges are taken back, the first of the list first. -/
def restored (history : List (Recorded n)) (m : System α n) : System α n :=
  history.foldl (fun m entry => entry.undo m) m

theorem restored_cons (entry : Recorded n) (history : List (Recorded n)) (m : System α n) :
    m.restored (entry :: history) = (entry.undo m).restored history := rfl

theorem verify_ok [Scalar α] {tol : α} {m : System α n} {x : Vector (Complex α) n}
    {verdict : Verdict} (h : m.verify tol x = .ok verdict) :
    verdict.passed = m.passes tol x := by
  simp only [verify, bind, Except.bind] at h
  split at h
  · cases h
  · cases h
    rfl

end System

namespace Reduction

/-- The system with its unknowns in the order of the input. -/
def inputOrder (s : Reduction α n) : System α n := s.system.restored s.history

theorem undoSwaps_ok {entries : List (Recorded n)} {s t : Reduction α n} {c : Unit}
    (hs : s.history = entries) (h : undoSwaps entries s = .ok c t) :
    t.system = s.system.restored entries ∧ t.history = [] ∧ t.operations = s.operations ∧
      t.columnSwaps = s.columnSwaps := by
  induction entries generalizing s with
  | nil =>
    obtain ⟨_, rfl⟩ := pure_ok.mp h
    exact ⟨rfl, hs, rfl, rfl⟩
  | cons entry rest ih =>
    simp only [undoSwaps, bind_ok, modify_ok] at h
    obtain ⟨_, s₁, rfl, _, s₂, he, h⟩ := h
    have ha := emit_ok he
    obtain ⟨hsys, hhist, hops, hswaps⟩ := ih ha.history h
    refine ⟨?_, hhist, hops.trans ha.operations, hswaps.trans ha.columnSwaps⟩
    rw [hsys, ha.system, System.restored_cons]

variable [Scalar α]

/-! ## The check of a solution -/

/-- What the report says about the check. -/
def Check.verdict (check : Check α n) (solution : Option (Vector (Complex α) n)) : Validation :=
  match solution with
  | none => .skipped
  | some x =>
    if check.enabled then
      if check.original.passes check.tolerance x then .passed else .failed
    else .skipped

theorem validate_ok {check : Check α n} {solution : Option (Vector (Complex α) n)}
    {s t : Reduction α n} {r : List Step × Validation} (h : validate check solution s = .ok r t) :
    r.2 = check.verdict solution ∧ Agree s t := by
  cases solution with
  | none =>
    obtain ⟨rfl, rfl⟩ := pure_ok.mp h
    exact ⟨rfl, .refl _⟩
  | some x =>
    simp only [validate] at h
    rw [Check.verdict]
    split at h
    · rename_i henabled
      rw [if_pos henabled]
      simp only [bind_ok, lift_ok] at h
      obtain ⟨verdict, _, ⟨hv, rfl⟩, h⟩ := h
      rw [← System.verify_ok hv]
      split at h
      · rename_i hp
        obtain ⟨rfl, rfl⟩ := pure_ok.mp h
        exact ⟨(if_pos hp).symm, .refl _⟩
      · rename_i hp
        simp only [bind_ok, pure_ok] at h
        obtain ⟨_, _, he, rfl, rfl⟩ := h
        exact ⟨(if_neg hp).symm, emit_ok he⟩
    · rename_i henabled
      obtain ⟨rfl, rfl⟩ := pure_ok.mp h
      exact ⟨(if_neg henabled).symm, .refl _⟩

theorem finish_ok {check : Check α n} {classification : Classification}
    {solution : Option (Vector (Complex α) n)} {free : Nat} {s t : Reduction α n}
    {report : Report α n} (h : finish check classification solution free s = .ok report t) :
    report.classification = classification ∧ report.solution = solution ∧
      report.freeVariables = free ∧ report.validation = check.verdict solution ∧
      report.columnSwaps = t.columnSwaps ∧ Agree s t := by
  simp only [finish, bind_ok, get_ok, lift_ok, pure_ok] at h
  obtain ⟨_, s₁, henter, _, _, ⟨_, rfl⟩, ⟨steps, validation⟩, s₂, hv, _, _, ⟨rfl, rfl⟩, rfl,
    rfl⟩ := h
  obtain ⟨hvalid, ha⟩ := validate_ok hv
  exact ⟨rfl, rfl, rfl, hvalid, rfl, (enter_ok henter).trans ha⟩

/-! ## The ways to end -/

/-- How a run ends from a state in row echelon form, and what its report says. -/
inductive Outcome (check : Check α n) (e : Reduction α n) (report : Report α n)
    (t : Reduction α n) : Prop where
  | noSolution : e.system.isInconsistent = true → report.classification = .noSolution →
      report.solution = none → report.freeVariables = 0 → Agree e t → Outcome check e report t
  | infiniteSolutions : e.system.isInconsistent = false → 0 < e.system.freeVariables →
      report.classification = .infiniteSolutions → report.solution = none →
      report.freeVariables = e.system.freeVariables → Agree e t → Outcome check e report t
  | solved {u v : Reduction α n} : e.system.isInconsistent = false → e.system.freeVariables = 0 →
      u.system = e.inputOrder → u.operations = e.operations →
      backReduce u = .ok () v → Agree v t →
      report.classification = .solved → report.solution = some t.system.constants →
      report.freeVariables = 0 → report.validation = check.verdict report.solution →
      report.columnSwaps = t.columnSwaps → u.columnSwaps = e.columnSwaps →
      Outcome check e report t

theorem completeSolution_ok {check : Check α n} {e t : Reduction α n} {report : Report α n}
    (h : completeSolution check e = .ok report t) :
    ∃ u v, u.system = e.inputOrder ∧ u.operations = e.operations ∧
      u.columnSwaps = e.columnSwaps ∧ backReduce u = .ok () v ∧ Agree v t ∧
      report.classification = .solved ∧ report.solution = some t.system.constants ∧
      report.freeVariables = 0 ∧ report.validation = check.verdict report.solution ∧
      report.columnSwaps = t.columnSwaps := by
  simp only [completeSolution, bind_ok, get_ok, lift_ok] at h
  obtain ⟨_, s₁, henter, _, _, ⟨rfl, rfl⟩, _, s₂, hundo, _, s₃, hinf, _, s₄, hback, _, s₅, hann,
    _, _, ⟨rfl, rfl⟩, _, _, ⟨_, rfl⟩, _, s₆, hinf', hfin⟩ := h
  have h₁ := enter_ok henter
  obtain ⟨hsys, _, hops, hswaps⟩ := undoSwaps_ok rfl hundo
  have h₃ := emit_ok hinf
  have h₅ := (announce_ok hann).trans (emit_ok hinf')
  obtain ⟨hc, hx, hf, hv, hr, ha⟩ := finish_ok hfin
  refine ⟨s₃, s₄, ?_, ?_, ?_, hback, h₅.trans ha, hc, ?_, hf, ?_, ?_⟩
  · rw [h₃.system, hsys, h₁.system, h₁.history]
    rfl
  · rw [h₃.operations, hops, h₁.operations]
  · rw [h₃.columnSwaps, hswaps, h₁.columnSwaps]
  · rw [hx, ha.system, (emit_ok hinf').system]
  · rw [hv, hx]
  · exact hr

theorem classify_ok {check : Check α n} {e t : Reduction α n} {report : Report α n}
    (h : classify check e = .ok report t) : Outcome check e report t := by
  simp only [classify, bind_ok, get_ok] at h
  obtain ⟨_, _, ⟨rfl, rfl⟩, h⟩ := h
  split at h
  · rename_i hinc
    simp only [bind_ok] at h
    obtain ⟨_, s₁, hinf, _, s₂, hnote, hfin⟩ := h
    obtain ⟨hc, hx, hf, _, _, ha⟩ := finish_ok hfin
    exact .noSolution hinc hc hx hf (((emit_ok hinf).trans (note_ok hnote)).trans ha)
  · rename_i hinc
    simp only [Bool.not_eq_true] at hinc
    split at h
    · rename_i hfree
      simp only [bind_ok] at h
      obtain ⟨_, s₁, hinf, _, s₂, hnote, hfin⟩ := h
      obtain ⟨hc, hx, hf, _, _, ha⟩ := finish_ok hfin
      exact .infiniteSolutions hinc hfree hc hx hf (((emit_ok hinf).trans (note_ok hnote)).trans ha)
    · rename_i hfree
      obtain ⟨u, v, hsys, hops, hswaps, hback, ha, hc, hx, hf, hv, hr⟩ := completeSolution_ok h
      exact .solved hinc (Nat.eq_zero_of_not_pos hfree) hsys hops hback ha hc hx hf hv hr hswaps

/-- A system without a nonzero coefficient is classified by its constant terms alone. -/
theorem classifyDegenerate_ok {check : Check α n} {e t : Reduction α n} {report : Report α n}
    (h : classifyDegenerate check e = .ok report t) :
    (e.system.isInconsistent = true ∧ report.classification = .noSolution ∧
      report.solution = none ∧ report.freeVariables = 0) ∨
    (e.system.isInconsistent = false ∧ report.classification = .infiniteSolutions ∧
      report.solution = none ∧ report.freeVariables = n) := by
  simp only [classifyDegenerate, bind_ok, get_ok, lift_ok] at h
  obtain ⟨_, s₁, henter, _, _, ⟨rfl, rfl⟩, _, _, ⟨_, rfl⟩, _, s₂, hnote, h⟩ := h
  rw [← (enter_ok henter).system]
  split at h
  · rename_i hinc
    simp only [bind_ok] at h
    obtain ⟨_, _, _, hfin⟩ := h
    obtain ⟨hc, hx, hf, _⟩ := finish_ok hfin
    exact .inl ⟨hinc, hc, hx, hf⟩
  · rename_i hinc
    simp only [bind_ok] at h
    obtain ⟨_, _, _, hfin⟩ := h
    obtain ⟨hc, hx, hf, _⟩ := finish_ok hfin
    exact .inr ⟨by simpa using hinc, hc, hx, hf⟩

/-- A run is a way to row echelon form and a way to end. -/
theorem solve_ok {check : Check α n} {s t : Reduction α n} {report : Report α n}
    (h : solve check s = .ok report t) :
    (∃ e, reachEchelon s = .ok none e ∧ classifyDegenerate check e = .ok report t) ∨
      ∃ k e, reachEchelon s = .ok (some k) e ∧ Outcome check e report t := by
  simp only [solve, bind_ok] at h
  obtain ⟨r, e, hreach, h⟩ := h
  cases r with
  | none => exact .inl ⟨e, hreach, h⟩
  | some k => exact .inr ⟨k, e, hreach, classify_ok h⟩

/-- A run that ends with a solution: after the row echelon form `e` it takes the exchanges back, and
reduces the system `u` above the pivots to `v`, whose constant terms are returned. -/
theorem solve_ok_of_solved {check : Check α n} {s t : Reduction α n} {report : Report α n}
    (h : solve check s = .ok report t) (hsolved : report.classification = .solved) :
    ∃ k e u v, reachEchelon s = .ok (some k) e ∧ Outcome check e report t ∧
      u.system = e.inputOrder ∧ u.operations = e.operations ∧ u.columnSwaps = e.columnSwaps ∧
      backReduce u = .ok () v ∧ Agree v t ∧ report.solution = some t.system.constants ∧
      report.validation = check.verdict report.solution ∧ report.columnSwaps = t.columnSwaps := by
  rcases solve_ok h with ⟨e, _, hend⟩ | ⟨k, e, hreach, hend⟩
  · rcases classifyDegenerate_ok hend with ⟨_, hc, _⟩ | ⟨_, hc, _⟩
    · cases hc.symm.trans hsolved
    · cases hc.symm.trans hsolved
  · have houtcome := hend
    cases houtcome with
    | noSolution _ hc => cases hc.symm.trans hsolved
    | infiniteSolutions _ _ hc => cases hc.symm.trans hsolved
    | @solved u v _ _ hu hops hback ha _ hx _ hvalid hcols hswaps =>
      exact ⟨k, e, u, v, hreach, hend, hu, hops, hswaps, hback, ha, hx, hvalid, hcols⟩

end Reduction

theorem System.solve_ok [Scalar α] {m : System α n} {verify : Bool} {verifyTolerance : α}
    {report : Report α n} {t : Reduction α n} :
    m.solve verify verifyTolerance = (.ok report, t) ↔
      Reduction.solve ⟨verify, verifyTolerance, m⟩ { system := m } = .ok report t := by
  rw [System.solve]
  split
  · rename_i h
    rw [h]
    simp
  · rename_i h
    rw [h]
    simp

end GaussJordan
