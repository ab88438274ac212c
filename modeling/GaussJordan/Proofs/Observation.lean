import GaussJordan.Proofs.Overflow

/-!
# GaussJordan.Proofs.Observation

What the check of the solution changes.

A run with the check is the run without it and then the check, over any scalar type
(`solve_examined`). So the check can only add its verdict to the report and a warning to the log, or
end the run in a fault of its own. Over binary64 numbers the latter happens exactly if the left-hand
side of an equation leaves the finite range (`solve_observed`).
-/

namespace GaussJordan

namespace Reduction

variable {α : Type} [Scalar α] {n : Nat}

/-! ## The check comes last -/

def Check.disabled (check : Check α n) : Check α n := { check with enabled := false }

/-- The solution of a report is checked and the verdict put in. -/
def examine (check : Check α n) (report : Report α n) : Run α n (Report α n) := do
  let (verificationSteps, validation) ← validate check report.solution
  return { report with verificationSteps, validation }

variable (check : Check α n)

theorem finish_examined (classification : Classification)
    (solution : Option (Vector (Complex α) n)) (free : Nat) :
    finish check classification solution free =
      finish check.disabled classification solution free >>= examine check := by
  have hskip : validate check.disabled solution = pure ([], .skipped) := by
    cases solution <;> rfl
  simp only [finish, bind_assoc, hskip, pure_bind]
  refine bind_congr fun _ => bind_congr fun answer => ?_
  -- the rest of the report is read after the check, which does not touch it
  funext s
  cases solution with
  | none => rfl
  | some x =>
    simp only [examine, validate]
    split
    · cases check.original.verify check.tolerance x with
      | error e => rfl
      | ok verdict =>
        obtain ⟨passed, steps⟩ := verdict
        cases passed
        · rfl
        · rfl
    · rfl

theorem classifyDegenerate_examined :
    classifyDegenerate check = classifyDegenerate check.disabled >>= examine check := by
  simp only [classifyDegenerate, bind_assoc]
  refine bind_congr fun _ => bind_congr fun s => bind_congr fun total => bind_congr fun _ => ?_
  split
  · rw [bind_assoc, ← finish_examined]
  · rw [bind_assoc, ← finish_examined]

theorem completeSolution_examined :
    (completeSolution check : Run α n _) = completeSolution check.disabled >>= examine check := by
  simp only [completeSolution, bind_assoc, finish_examined check]

theorem classify_examined : classify check = classify check.disabled >>= examine check := by
  simp only [classify, bind_assoc]
  refine bind_congr fun s => ?_
  split
  · simp only [bind_assoc, ← finish_examined]
  · split
    · simp only [bind_assoc, ← finish_examined]
    · exact completeSolution_examined check

/-- A run with the check is the run without it and then the check. -/
theorem solve_examined : solve check = solve check.disabled >>= examine check := by
  simp only [solve, bind_assoc]
  refine bind_congr fun r => ?_
  cases r with
  | none => exact classifyDegenerate_examined check
  | some k => exact classify_examined check

/-! ## What the check does -/

variable {check} {s t : Reduction α n} {report report' : Report α n} {e : Fault}

/-- The check writes its verdict into the report and to the log, and nothing else. -/
theorem examine_ok (h : examine check report s = .ok report' t) :
    report' = { report with
      verificationSteps := report'.verificationSteps
      validation := report'.validation } ∧
    t = { s with log := t.log } ∧
    ∀ x, report.solution = some x → check.enabled = true →
      ∃ verdict, check.original.verify check.tolerance x = .ok verdict := by
  simp only [examine, bind_ok, pure_ok] at h
  obtain ⟨⟨steps, validation⟩, _, hv, rfl, rfl⟩ := h
  refine ⟨rfl, ?_⟩
  cases hx : report.solution with
  | none =>
    rw [hx] at hv
    obtain ⟨_, rfl⟩ := pure_ok.mp hv
    exact ⟨rfl, nofun⟩
  | some x =>
    rw [hx] at hv
    simp only [validate] at hv
    split at hv
    · simp only [bind_ok, lift_ok] at hv
      obtain ⟨verdict, _, ⟨hverdict, rfl⟩, hv⟩ := hv
      refine ⟨?_, fun _ hsome _ => ⟨verdict, by cases hsome; exact hverdict⟩⟩
      split at hv
      · obtain ⟨_, rfl⟩ := pure_ok.mp hv
        rfl
      · simp only [bind_ok, emit, modify_ok, pure_ok] at hv
        obtain ⟨_, _, rfl, _, rfl⟩ := hv
        rfl
    · rename_i hdisabled
      obtain ⟨_, rfl⟩ := pure_ok.mp hv
      exact ⟨rfl, fun _ _ henabled => absurd henabled hdisabled⟩

theorem examine_err (h : examine check report s = .error e t) :
    ∃ x, report.solution = some x ∧ check.enabled = true ∧
      check.original.verify check.tolerance x = .error e ∧ t = s := by
  simp only [examine, bind_err, pure_err, and_false, exists_false, or_false] at h
  exact validate_err h

end Reduction

/-! ## Over binary64 numbers -/

variable {n : Nat}

/-- The system of a run that ended with a report was written at its beginning. -/
theorem System.isFinite_of_solve {m : System Double n}
    {check : Reduction.Check Double n} {report : Report Double n} {t : Reduction Double n}
    (h : Reduction.solve check { system := m } = .ok report t) : m.IsFinite := by
  have hreach : ∃ r e, Reduction.reachEchelon { system := m } = .ok r e := by
    rcases Reduction.solve_ok h with ⟨e, hreach, _⟩ | ⟨k, e, hreach, _⟩
    · exact ⟨_, e, hreach⟩
    · exact ⟨_, e, hreach⟩
  obtain ⟨r, e, hreach⟩ := hreach
  obtain ⟨_, _, htext⟩ := (Reduction.reachEchelon_illustrated hreach).2.1 0 (Nat.zero_le _)
  exact isFinite_of_text htext

theorem System.verify_iff {m : System Double n} (hm : m.IsFinite) {tol : Double}
    {x : Vector (Complex Double) n} :
    (∃ verdict, m.verify tol x = .ok verdict) ↔ ∀ i, ((m.row i).leftSide x).IsFinite := by
  constructor
  · rintro ⟨verdict, h⟩ i
    obtain ⟨_, hleft⟩ := verify_leftSide h i
    exact Complex.isFinite_of_textWith hleft
  · intro hleft
    cases h : m.verify tol x with
    | ok verdict => exact ⟨verdict, rfl⟩
    | error e =>
      exfalso
      obtain ⟨i, hi | ⟨j, hj⟩⟩ := verify_err h
      · exact (Complex.text_fault hi).2 (hleft i)
      · exact (Complex.text_fault hj).2 (hm i j)

theorem System.verify_unwritable {m : System Double n} {tol : Double}
    {x : Vector (Complex Double) n} {e : Fault} (h : m.verify tol x = .error e) :
    e.Unwritable := by
  obtain ⟨i, hi | ⟨j, hj⟩⟩ := verify_err h
  · exact (Complex.text_fault hi).1
  · exact (Complex.text_fault hj).1

/-- Over a finite system the check succeeds exactly if it meets finite left-hand sides. -/
theorem Reduction.examine_iff {m : System Double n} (hm : m.IsFinite) {tol : Double}
    {report : Report Double n} {s : Reduction Double n} :
    (∃ report' t, examine ⟨true, tol, m⟩ report s = .ok report' t) ↔
      ∀ x, report.solution = some x → ∀ i, ((m.row i).leftSide x).IsFinite := by
  constructor
  · rintro ⟨report', t, h⟩ x hx
    obtain ⟨_, _, hverdict⟩ := examine_ok h
    exact (System.verify_iff hm).mp (hverdict x hx rfl)
  · intro hleft
    cases h : examine ⟨true, tol, m⟩ report s with
    | ok report' t => exact ⟨report', t, rfl⟩
    | error e t =>
      exfalso
      obtain ⟨x, hx, _, hv, _⟩ := examine_err h
      obtain ⟨_, hok⟩ := (System.verify_iff hm).mpr (hleft x hx)
      cases hv.symm.trans hok

/-- A run and the run with a check of the solution. If the one ends in a fault, so does the other,
in the same state. If it ends with a report, the other does exactly if every left-hand side under
the solution is finite; then the reports differ in the verdict and the states in the log at most.
Otherwise the check fails to write an infinity or a NaN. -/
theorem System.solve_observed (m : System Double n) (verifyTolerance : Double) :
    (∃ e t, m.solve false verifyTolerance = (.error e, t) ∧
      m.solve true verifyTolerance = (.error e, t)) ∨
    ∃ report t, m.solve false verifyTolerance = (.ok report, t) ∧
      ((∃ report' t', m.solve true verifyTolerance = (.ok report', t')) ↔
        ∀ x, report.solution = some x → ∀ i, ((m.row i).leftSide x).IsFinite) ∧
      (∀ report' t', m.solve true verifyTolerance = (.ok report', t') →
        report' = { report with
          verificationSteps := report'.verificationSteps
          validation := report'.validation } ∧
        t' = { t with log := t'.log }) ∧
      ∀ e t', m.solve true verifyTolerance = (.error e, t') → e.Unwritable ∧ t' = t := by
  simp only [System.solve_ok, System.solve_err]
  have hsplit := Reduction.solve_examined ⟨true, verifyTolerance, m⟩
  cases h : Reduction.solve ⟨false, verifyTolerance, m⟩ { system := m } with
  | error e t =>
    refine .inl ⟨e, t, rfl, ?_⟩
    rw [hsplit]
    exact Reduction.bind_err.mpr (.inl h)
  | ok report t =>
    refine .inr ⟨report, t, rfl, ?_⟩
    have hm := System.isFinite_of_solve h
    have hthen : Reduction.solve ⟨true, verifyTolerance, m⟩ { system := m } =
        Reduction.examine ⟨true, verifyTolerance, m⟩ report t := by
      rw [hsplit]
      exact Reduction.bind_of_ok h
    rw [hthen]
    refine ⟨Reduction.examine_iff hm, fun report' t' hok => ?_, fun e t' herr => ?_⟩
    · obtain ⟨hreport, hstate, _⟩ := Reduction.examine_ok hok
      exact ⟨hreport, hstate⟩
    · obtain ⟨_, _, _, hv, rfl⟩ := Reduction.examine_err herr
      exact ⟨System.verify_unwritable hv, rfl⟩

namespace Reduction

/-- `1.0000000005 x = 1.7976931348623157 * 10 ^ 308`, the largest finite number. The coefficient
counts as one, so the solution is the constant term. -/
def overshootingEquation : System Double 1 where
  tolerance := defaultTolerance
  rows := #v[#v[.ofReal (.ofRatio false 10000000005 (Nat.pow 10 10)),
    .ofReal (.ofRatio false (17976931348623157 * Nat.pow 10 292) 1)]]

/-- The run ends with a solution, and with the check it ends in a fault. -/
theorem check_not_observer :
    overshootingEquation.IsFinite ∧
    Double.lt .zero overshootingEquation.tolerance = true ∧
    (∃ report t, overshootingEquation.solve false defaultVerifyTolerance = (.ok report, t) ∧
      report.classification = .solved) ∧
    ∃ t, overshootingEquation.solve true defaultVerifyTolerance = (.error .infiniteText, t) := by
  refine ⟨by decide +kernel, by decide +kernel, ?_, ?_⟩
  · have hrun : endsWith (solve ⟨false, defaultVerifyTolerance, overshootingEquation⟩)
        { system := overshootingEquation } (fun report _ => report.classification == .solved) =
          true := by
      decide +kernel
    obtain ⟨report, t, h, hreport⟩ := exists_of_endsWith hrun
    exact ⟨report, t, System.solve_ok.mpr h, by simpa using hreport⟩
  · have hrun : faultOf (solve ⟨true, defaultVerifyTolerance, overshootingEquation⟩)
        { system := overshootingEquation } = some .infiniteText := by
      decide +kernel
    obtain ⟨t, h⟩ := faultOf_eq_some hrun
    exact ⟨t, System.solve_err.mpr h⟩

end Reduction

end GaussJordan
