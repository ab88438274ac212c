import GaussJordan.Proofs.Outcome
import Mathlib.Data.List.Chain

/-!
# GaussJordan.Proofs.Course

The course of a run, over any scalar type: which steps lead from one state to the next, whether the
run returns or raises.

* `Advance s t`: one step. A record is logged, a stage is entered that may follow (`Stage.next`),
  the system is shown under the title of a stage, one operation that the stage allows
  (`Stage.Performs`) is carried out with its record and its picture, or the latest exchange is
  taken back. Nothing is entered or done before the input was shown.
* `Halted e s t`: what a run that raises may have begun. The operation at hand changed the system,
  but its text or the picture after it could not be written.
* `Runs x s Q`: the computation moves on from `s`, step by step. It returns with `Q`, or it halts.
* `solve_runs`: so does a whole run, and a report that it returns is `Concluded` from the state it
  leaves.
* `Passes s us result t`: the states `us` that a run passes through, one step after the other
  (`System.solve_passes`). What every step preserves holds in all of them (`Passes.invariant`), so
  no proof of an invariant has to open the functions of the reduction again. Who speaks in the log
  of a run is such an invariant (`System.solve_log`).
-/

namespace GaussJordan

/-- The titles of the notes that are not about an operation. -/
def stageTitles : List String :=
  ["Input matrix", "All coefficients are zero", "Row echelon form", "Inconsistent system",
    "Free variables", "Reduced row echelon form"]

namespace Stage

/-- The stages that may follow. -/
def next : Option Stage → List Stage
  | none => [.degenerate, .forwardElimination]
  | some .degenerate => [.finished .noSolution, .finished .infiniteSolutions]
  | some .forwardElimination =>
    [.finished .noSolution, .finished .infiniteSolutions, .undoSwaps]
  | some .undoSwaps => [.backReduction]
  | some .backReduction => [.finished .solved]
  | some (.finished _) => []

/-- The operations of a stage. Before the first stage a row may be brought to the top. -/
def Performs {α : Type} {n : Nat} : Option Stage → Operation α n → Prop
  | none, op => ∃ i j, op = .swapRows i j
  | some .forwardElimination, _ => True
  | some .backReduction, op => ∃ factor i j, op = .addScaled factor i j
  | _, _ => False

/-- The exchanges of columns stand, are being taken back, or have been. -/
inductive Phase where
  | standing
  | undoing
  | undone

def phase : Option Stage → Phase
  | some .undoSwaps => .undoing
  | some .backReduction | some (.finished .solved) => .undone
  | _ => .standing

/-- Another phase begins when the exchanges start to be taken back, and when the reduction above
the pivots starts. -/
theorem phase_next {before : Option Stage} {stage : Stage} (h : stage ∈ next before) :
    phase (some stage) = phase before ∨ (phase before = .standing ∧ stage = .undoSwaps) ∨
      (before = some .undoSwaps ∧ stage = .backReduction) := by
  cases before with
  | none =>
    simp only [next, List.mem_cons, List.not_mem_nil, or_false] at h
    obtain rfl | rfl := h <;> exact .inl rfl
  | some before =>
    cases before with
    | degenerate =>
      simp only [next, List.mem_cons, List.not_mem_nil, or_false] at h
      obtain rfl | rfl := h <;> exact .inl rfl
    | forwardElimination =>
      simp only [next, List.mem_cons, List.not_mem_nil, or_false] at h
      obtain rfl | rfl | rfl := h
      · exact .inl rfl
      · exact .inl rfl
      · exact .inr (.inl ⟨rfl, rfl⟩)
    | undoSwaps => exact .inr (.inr ⟨rfl, List.mem_singleton.mp h⟩)
    | backReduction =>
      obtain rfl := List.mem_singleton.mp h
      exact .inl rfl
    | finished => cases h

/-- Columns are exchanged only while the exchanges stand. -/
theorem phase_of_performs {α : Type} {n : Nat} {stage : Option Stage} {op : Operation α n}
    (h : Performs stage op) :
    phase stage = .standing ∨ (phase stage = .undone ∧ op.exchanges = []) := by
  cases stage with
  | none => exact .inl rfl
  | some stage =>
    cases stage with
    | forwardElimination => exact .inl rfl
    | backReduction =>
      obtain ⟨_, _, _, rfl⟩ := h
      exact .inr ⟨rfl, rfl⟩
    | degenerate | undoSwaps | finished => exact h.elim

end Stage

namespace Reduction

variable {α : Type} [Scalar α] {n : Nat} {β γ : Type}

/-! ## Steps of a run -/

inductive Advance : Reduction α n → Reduction α n → Prop where
  | emit {s : Reduction α n} (record : Record) :
      record.source = .reduction ∨ record.source = .swaps →
      Advance s { s with log := s.log.push record }
  | enter {s : Reduction α n} (stage : Stage) :
      0 < s.notes.size → stage ∈ Stage.next s.stage → (stage = .backReduction → s.history = []) →
      Advance s { s with stage := some stage }
  | note {s : Reduction α n} (note : Note) :
      note.description ∈ stageTitles → s.system.text = .ok note.expression →
      Advance s { s with notes := s.notes.push note }
  | perform {s : Reduction α n} (op : Operation α n) (note : Note) :
      0 < s.notes.size → Stage.Performs s.stage op → op.text = .ok note.description →
      (op.apply s.system).text = .ok note.expression →
      Advance s { entered op note.description s with notes := s.notes.push note }
  | undo {s : Reduction α n} (entry : Recorded n) (rest : List (Recorded n)) :
      0 < s.notes.size → s.stage = some .undoSwaps → s.history = entry :: rest →
      Advance s { s with system := entry.undo s.system, history := rest }

/-- A run that raises has stopped between two steps or within an operation. -/
inductive Halted (e : Fault) : Reduction α n → Reduction α n → Prop where
  | between (s : Reduction α n) : Halted e s s
  | unwritten {s : Reduction α n} (op : Operation α n) :
      0 < s.notes.size → Stage.Performs s.stage op → op.text = .error e →
      Halted e s { s with system := op.apply s.system }
  | unpictured {s : Reduction α n} (op : Operation α n) (text : String) :
      0 < s.notes.size → Stage.Performs s.stage op → op.text = .ok text →
      (op.apply s.system).text = .error e →
      Halted e s (entered op text s)

/-- Any number of steps. -/
abbrev Course : Reduction α n → Reduction α n → Prop := Relation.ReflTransGen Advance

/-- The computation moves on step by step until it returns with `Q` or halts. -/
def Runs (x : Run α n β) (s : Reduction α n) (Q : β → Reduction α n → Prop) : Prop :=
  match x s with
  | .ok b t => Course s t ∧ Q b t
  | .error e t => ∃ u, Course s u ∧ Halted e u t

namespace Runs

variable {x : Run α n β} {s t : Reduction α n} {Q : β → Reduction α n → Prop}
variable {R : γ → Reduction α n → Prop}

theorem pure {b : β} (h : Q b s) : Runs (pure b) s Q := ⟨.refl, h⟩

theorem throw (e : Fault) : Runs (throw e : Run α n β) s Q := ⟨s, .refl, .between s⟩

theorem lift {x : Except Fault β} (h : ∀ b, x = .ok b → Q b s) : Runs (lift x) s Q := by
  cases x with
  | ok b => exact pure (h b rfl)
  | error e => exact throw e

theorem bind {f : β → Run α n γ} (hx : Runs x s Q) (hf : ∀ b u, Q b u → Runs (f b) u R) :
    Runs (x >>= f) s R := by
  simp only [Runs] at hx ⊢
  simp only [Bind.bind, EStateM.bind]
  cases h : x s with
  | error e t =>
    rw [h] at hx
    exact hx
  | ok b u =>
    rw [h] at hx
    obtain ⟨hc, hq⟩ := hx
    have hfb := hf b u hq
    simp only [Runs] at hfb
    dsimp only
    cases hr : f b u with
    | ok c v =>
      rw [hr] at hfb
      exact ⟨hc.trans hfb.1, hfb.2⟩
    | error e v =>
      rw [hr] at hfb
      obtain ⟨w, hw, hhalt⟩ := hfb
      exact ⟨w, hc.trans hw, hhalt⟩

theorem get_bind {f : Reduction α n → Run α n γ} (hf : Runs (f s) s R) : Runs (get >>= f) s R :=
  hf

theorem forM {f : β → Run α n Unit} {I : Reduction α n → Prop} (xs : List β)
    (hf : ∀ x s, I s → Runs (f x) s fun _ => I) (hs : I s) : Runs (xs.forM f) s fun _ => I := by
  induction xs generalizing s with
  | nil => exact pure hs
  | cons x xs ih => exact (hf x s hs).bind fun _ _ hu => ih hu

end Runs

/-! ## Single steps -/

section

variable {s : Reduction α n} {Q : Unit → Reduction α n → Prop}

theorem inform_runs {text : String}
    (h : Q () { s with log := s.log.push ⟨.info, .reduction, text⟩ }) : Runs (inform text) s Q :=
  ⟨.single (.emit _ (.inl rfl)), h⟩

theorem enter_runs {stage : Stage} (hnoted : 0 < s.notes.size)
    (hnext : stage ∈ Stage.next s.stage) (hback : stage = .backReduction → s.history = [])
    (h : Q () { s with stage := some stage }) : Runs (enter stage) s Q :=
  ⟨.single (.enter stage hnoted hnext hback), h⟩

theorem note_eq (description explanation : String) (s : Reduction α n) :
    note description explanation s =
      match s.system.text with
      | .ok picture =>
        .ok () { s with notes := s.notes.push ⟨description, picture, explanation⟩ }
      | .error e => .error e s := by
  change EStateM.bind (lift s.system.text) _ s = _
  cases h : s.system.text with
  | ok picture => rfl
  | error e => rfl

theorem note_runs {description explanation : String} (htitle : description ∈ stageTitles)
    (h : ∀ picture, s.system.text = .ok picture →
      Q () { s with notes := s.notes.push ⟨description, picture, explanation⟩ }) :
    Runs (note description explanation) s Q := by
  simp only [Runs, note_eq]
  cases hp : s.system.text with
  | error e => exact ⟨s, .refl, .between s⟩
  | ok picture =>
    exact ⟨.single (.note ⟨description, picture, explanation⟩ htitle hp), h picture hp⟩

theorem announce_runs {heading description explanation : String}
    (htitle : description ∈ stageTitles)
    (h : ∀ (picture : String) (log : Array Record), s.system.text = .ok picture →
      Q () { s with log := log, notes := s.notes.push ⟨description, picture, explanation⟩ }) :
    Runs (announce heading description explanation) s Q := by
  refine .get_bind (Runs.bind (Q := fun _ u => u = s) (.lift fun _ _ => rfl) ?_)
  rintro picture u rfl
  refine Runs.bind (Q := fun _ v => ∃ log, v = { u with log := log }) (inform_runs ⟨_, rfl⟩) ?_
  rintro _ _ ⟨log, rfl⟩
  exact note_runs htitle fun picture hp => h picture log hp

theorem perform_runs {op : Operation α n} {explanation : String} (hnoted : 0 < s.notes.size)
    (hop : Stage.Performs s.stage op)
    (h : ∀ text picture, op.text = .ok text → (op.apply s.system).text = .ok picture →
      Q () { entered op text s with notes := s.notes.push ⟨text, picture, explanation⟩ }) :
    Runs (perform op explanation) s Q := by
  simp only [Runs, perform_eq, note_eq]
  cases htext : op.text with
  | error e => exact ⟨s, .refl, .unwritten op hnoted hop htext⟩
  | ok text =>
    dsimp only [entered]
    cases hp : (op.apply s.system).text with
    | error e => exact ⟨s, .refl, .unpictured op text hnoted hop htext hp⟩
    | ok picture =>
      exact ⟨.single (.perform op ⟨text, picture, explanation⟩ hnoted hop htext hp),
        h text picture htext hp⟩

end

/-! ## The parts of the reduction -/

/-- The run is at a stage, with the input shown. -/
structure At (stage : Option Stage) (s : Reduction α n) : Prop where
  stage : s.stage = stage
  noted : 0 < s.notes.size

/-- The computation belongs to one stage: it stays there and performs only its operations. -/
def Along (stage : Option Stage) (x : Run α n β) : Prop :=
  ∀ s, At stage s → Runs x s fun _ t => At stage t

namespace Along

variable {stage : Option Stage}

theorem pure (b : β) : Along stage (pure b : Run α n β) := fun _ hs => .pure hs

theorem throw (e : Fault) : Along stage (throw e : Run α n β) := fun _ _ => .throw e

theorem lift (x : Except Fault β) : Along stage (lift x : Run α n β) :=
  fun _ hs => .lift fun _ _ => hs

theorem bind {x : Run α n β} {f : β → Run α n γ} (hx : Along stage x)
    (hf : ∀ b, Along stage (f b)) : Along stage (x >>= f) :=
  fun s hs => (hx s hs).bind fun b u hu => hf b u hu

theorem get_bind {f : Reduction α n → Run α n γ} (hf : ∀ u, Along stage (f u)) :
    Along stage (get >>= f) :=
  fun s hs => .get_bind (hf s s hs)

theorem forM {f : β → Run α n Unit} (xs : List β) (hf : ∀ x, Along stage (f x)) :
    Along stage (xs.forM f) :=
  fun _ hs => .forM xs hf hs

theorem perform {op : Operation α n} (h : Stage.Performs stage op) (explanation : String) :
    Along stage (perform op explanation) :=
  fun _ hs => perform_runs hs.noted (hs.stage ▸ h) fun _ _ _ _ => ⟨hs.stage, by simp⟩

end Along

theorem leadWith_along (row : Fin n) : Along none (leadWith row : Run α n Unit) := by
  unfold leadWith
  split
  · refine Along.perform ?_ _
    exact ⟨_, _, rfl⟩
  · exact .pure ()

/-- Forward elimination allows every operation. -/
theorem perform_along (op : Operation α n) (explanation : String) :
    Along (some .forwardElimination) (perform op explanation) := by
  refine Along.perform ?_ _
  exact trivial

theorem bringPivot_along (pivot : Fin n) :
    Along (some .forwardElimination) (bringPivot pivot : Run α n Bool) := by
  refine .get_bind fun s => ?_
  dsimp only
  split
  · exact (perform_along _ _).bind fun _ => .pure true
  · split
    · exact .pure false
    · refine (perform_along _ _).bind fun _ => .get_bind fun t => ?_
      split
      · split
        · exact (perform_along _ _).bind fun _ => .pure true
        · exact (Along.throw _).bind fun _ => .pure true
      · exact .pure true

theorem findPivot_along (pivot : Fin n) :
    Along (some .forwardElimination) (findPivot pivot : Run α n Bool) := by
  refine .get_bind fun s => ?_
  dsimp only
  split
  · exact bringPivot_along pivot
  · exact .pure true

theorem normalize_along (pivot : Fin n) :
    Along (some .forwardElimination) (normalize pivot : Run α n Unit) := by
  refine .get_bind fun s => (Along.lift _).bind fun factor => ?_
  split
  · exact .pure ()
  · exact perform_along _ _

theorem eliminateRow_along (pivotTerm : Complex α) (pivot row : Fin n) :
    Along (some .forwardElimination) (eliminateRow pivotTerm pivot row) := by
  refine .get_bind fun s => (Along.lift _).bind fun q => ?_
  dsimp only
  split
  · exact .pure ()
  · exact perform_along _ _

theorem placePivots_along (pivots : List (Fin n)) :
    Along (some .forwardElimination) (placePivots pivots : Run α n Nat) := by
  induction pivots with
  | nil => exact .pure 0
  | cons pivot rest ih =>
    refine (findPivot_along pivot).bind fun found => ?_
    split
    · refine (normalize_along pivot).bind fun _ => ?_
      refine Along.bind (.get_bind fun _ => .forM _ fun row => eliminateRow_along _ pivot row) ?_
      exact fun _ => ih.bind fun _ => .pure _
    · exact .pure 0

theorem reduceRow_along (column row : Fin n) :
    Along (some .backReduction) (reduceRow column row : Run α n Unit) := by
  refine .get_bind fun s => ?_
  dsimp only
  split
  · exact .pure ()
  · refine Along.perform ?_ _
    exact ⟨_, _, _, rfl⟩

theorem undoSwaps_runs {entries : List (Recorded n)} {s : Reduction α n}
    (hat : At (some .undoSwaps) s) (hs : s.history = entries) :
    Runs (undoSwaps entries) s fun _ t => At (some .undoSwaps) t ∧ t.history = [] := by
  induction entries generalizing s with
  | nil => exact .pure ⟨hat, hs⟩
  | cons entry rest ih =>
    -- the exchange is taken back, then logged
    let u := { s with system := entry.undo s.system, history := rest }
    have hundo : Runs (modify fun s : Reduction α n =>
        { s with system := entry.undo s.system, history := rest }) s fun _ t => t = u :=
      ⟨.single (.undo entry rest hat.noted hat.stage hs), rfl⟩
    refine hundo.bind ?_
    rintro _ _ rfl
    have hemit : Runs (emit .info .swaps s!"undo {entry.text}") u fun _ t =>
        At (some .undoSwaps) t ∧ t.history = rest :=
      ⟨.single (.emit _ (.inr rfl)), ⟨hat.stage, hat.noted⟩, rfl⟩
    exact hemit.bind fun _ _ ht => ih ht.1 ht.2

theorem backReduce_runs {s : Reduction α n} (hat : At (some .undoSwaps) s)
    (hs : s.history = []) : Runs backReduce s fun _ t => At (some .backReduction) t := by
  refine Runs.bind (Q := fun _ u => At (some .backReduction) u)
    (enter_runs hat.noted (by simp [hat.stage, Stage.next]) (fun _ => hs) ⟨rfl, hat.noted⟩) ?_
  intro _ u hu
  exact Along.forM _ (fun column => .forM _ fun row => reduceRow_along column row) u hu

/-! ## The whole run -/

/-- The last note shows the system as it is. -/
def Shown (s : Reduction α n) : Prop :=
  ∃ note, s.notes.back? = some note ∧ s.system.text = .ok note.expression

theorem Shown.noted {s : Reduction α n} (h : Shown s) : 0 < s.notes.size := by
  obtain ⟨note, hnote, _⟩ := h
  rw [Array.back?_eq_getElem?] at hnote
  have hlt := (Array.getElem?_eq_some_iff.mp hnote).1
  omega

/-- A note on the system as it is. -/
theorem shown_push {s : Reduction α n} {log : Array Record} {note : Note}
    (h : s.system.text = .ok note.expression) :
    Shown { s with log := log, notes := s.notes.push note } :=
  ⟨note, Array.back?_push, h⟩

/-- What can be said of the solutions of a system of `n` unknowns that was left as `m`. -/
inductive Answer (m : System α n) :
    Classification → Option (Vector (Complex α) n) → Nat → Prop where
  | solved : Answer m .solved (some m.constants) 0
  | noSolution : Answer m .noSolution none 0
  | infiniteSolutions {free : Nat} :
      0 < free ∨ free = n → free ≤ n → Answer m .infiniteSolutions none free

omit [Scalar α] in
theorem Answer.eq_constants {m : System α n} {classification : Classification}
    {x : Vector (Complex α) n} {free : Nat} (h : Answer m classification (some x) free) :
    x = m.constants := by
  cases h
  rfl

/-- The steps of the check and its verdict, or neither if there is nothing to check. -/
def Check.Made (check : Check α n) (steps : List Step) (validation : Validation) :
    Option (Vector (Complex α) n) → Prop
  | none => steps = [] ∧ validation = .skipped
  | some x =>
    if check.enabled then
      ∃ verdict, check.original.verify check.tolerance x = .ok verdict ∧
        steps = verdict.steps ∧ validation = if verdict.passed then .passed else .failed
    else steps = [] ∧ validation = .skipped

/-- The report tells what the run has come to. -/
structure Concluded (check : Check α n) (report : Report α n) (t : Reduction α n) : Prop where
  stage : t.stage = some (.finished report.classification)
  shown : Shown t
  answer : Answer t.system report.classification report.solution report.freeVariables
  operations : report.operations = t.operations.toList.map (·.2)
  columnSwaps : report.columnSwaps = t.columnSwaps
  steps : report.steps = numberSteps t.notes.toList
  finalAnswer : answerText report.classification report.solution = .ok report.finalAnswer
  check : check.Made report.verificationSteps report.validation report.solution

variable {check : Check α n} {s : Reduction α n}

theorem validate_runs {solution : Option (Vector (Complex α) n)} :
    Runs (validate check solution) s fun r t =>
      check.Made r.1 r.2 solution ∧ ∃ log, t = { s with log := log } := by
  cases solution with
  | none => exact .pure ⟨⟨rfl, rfl⟩, s.log, rfl⟩
  | some x =>
    unfold validate
    dsimp only [Check.Made]
    split
    · refine Runs.bind (Q := fun verdict u =>
        check.original.verify check.tolerance x = .ok verdict ∧ u = s)
        (.lift fun _ hv => ⟨hv, rfl⟩) ?_
      rintro verdict u ⟨hv, rfl⟩
      split
      · rename_i hpassed
        exact .pure ⟨⟨verdict, hv, rfl, by rw [if_pos hpassed]⟩, u.log, rfl⟩
      · rename_i hfailed
        refine Runs.bind (Q := fun _ v => ∃ log, v = { u with log := log })
          ⟨.single (.emit _ (.inl rfl)), _, rfl⟩ ?_
        rintro _ _ ⟨log, rfl⟩
        exact .pure ⟨⟨verdict, hv, rfl, by rw [if_neg hfailed]⟩, log, rfl⟩
    · exact .pure ⟨⟨rfl, rfl⟩, s.log, rfl⟩

theorem finish_runs {classification : Classification} {solution : Option (Vector (Complex α) n)}
    {free : Nat} (hnext : .finished classification ∈ Stage.next s.stage) (hshown : Shown s)
    (hanswer : Answer s.system classification solution free) :
    Runs (finish check classification solution free) s (Concluded check) := by
  let u := { s with stage := some (.finished classification) }
  refine Runs.bind (Q := fun _ v => v = u) (enter_runs hshown.noted hnext nofun rfl) ?_
  rintro _ _ rfl
  refine Runs.bind (Q := fun answer v => answerText classification solution = .ok answer ∧ v = u)
    (.lift fun _ ha => ⟨ha, rfl⟩) ?_
  rintro answer _ ⟨ha, rfl⟩
  refine validate_runs.bind ?_
  rintro ⟨steps, validation⟩ _ ⟨hcheck, log, rfl⟩
  exact .get_bind (.pure ⟨rfl, hshown, hanswer, rfl, rfl, rfl, ha, hcheck⟩)

/-- A last word in the log, then the report. -/
theorem inform_finish_runs {text : String} {classification : Classification}
    {solution : Option (Vector (Complex α) n)} {free : Nat}
    (hnext : .finished classification ∈ Stage.next s.stage) (hshown : Shown s)
    (hanswer : Answer s.system classification solution free) :
    Runs (inform text >>= fun _ => finish check classification solution free) s
      (Concluded check) := by
  let u := { s with log := s.log.push ⟨.info, .reduction, text⟩ }
  refine Runs.bind (Q := fun _ v => v = u) (inform_runs rfl) ?_
  rintro _ _ rfl
  exact finish_runs hnext hshown hanswer

theorem classifyDegenerate_runs (hs : At none s) :
    Runs (classifyDegenerate check) s (Concluded check) := by
  refine Runs.bind (Q := fun _ u => u.stage = some .degenerate)
    (enter_runs hs.noted (by simp [hs.stage, Stage.next]) nofun rfl) fun _ u hu => ?_
  refine .get_bind (Runs.bind (Q := fun _ v => v.stage = some .degenerate) (.lift fun _ _ => hu) ?_)
  intro total v hv
  refine Runs.bind (Q := fun _ w => w.stage = some .degenerate ∧ Shown w)
    (note_runs (by decide) fun picture hp => ⟨hv, shown_push hp⟩) ?_
  rintro _ w ⟨hstage, hshown⟩
  split
  · exact inform_finish_runs (by simp [hstage, Stage.next]) hshown .noSolution
  · exact inform_finish_runs (by simp [hstage, Stage.next]) hshown
      (.infiniteSolutions (.inr rfl) (Nat.le_refl n))

theorem completeSolution_runs (hs : At (some .forwardElimination) s) :
    Runs (completeSolution check) s (Concluded check) := by
  refine Runs.bind (Q := fun _ u => At (some .undoSwaps) u)
    (enter_runs hs.noted (by simp [hs.stage, Stage.next]) nofun ⟨rfl, hs.noted⟩) fun _ u hu => ?_
  refine .get_bind ((undoSwaps_runs hu rfl).bind ?_)
  rintro _ v ⟨hat, hhistory⟩
  refine Runs.bind (inform_runs (Q := fun _ w => At (some .undoSwaps) w ∧ w.history = [])
    ⟨⟨hat.stage, hat.noted⟩, hhistory⟩) ?_
  rintro _ w ⟨hat, hhistory⟩
  refine (backReduce_runs hat hhistory).bind fun _ w hat => ?_
  refine Runs.bind (Q := fun _ v => v.stage = some .backReduction ∧ Shown v)
    (announce_runs (by decide) fun picture log hp => ⟨hat.stage, shown_push hp⟩) ?_
  rintro _ v ⟨hstage, hshown⟩
  refine .get_bind (Runs.bind (Q := fun _ w => w = v) (.lift fun _ _ => rfl) ?_)
  rintro values v rfl
  exact inform_finish_runs (by simp [hstage, Stage.next]) hshown .solved

theorem classify_runs (hs : At (some .forwardElimination) s) :
    Runs (classify check) s (Concluded check) := by
  -- the note that both ways without a solution end with
  have hnote : ∀ (description explanation : String) (u : Reduction α n),
      description ∈ stageTitles → u.stage = some .forwardElimination →
      Runs (note description explanation) u fun _ v =>
        v.stage = some .forwardElimination ∧ Shown v :=
    fun _ _ _ htitle hu => note_runs htitle fun picture hp => ⟨hu, shown_push hp⟩
  refine .get_bind ?_
  dsimp only
  split
  · refine Runs.bind (inform_runs (Q := fun _ u => u.stage = some .forwardElimination) hs.stage) ?_
    intro _ u hu
    refine (hnote _ _ u (by decide) hu).bind ?_
    rintro _ v ⟨hstage, hshown⟩
    exact finish_runs (by simp [hstage, Stage.next]) hshown .noSolution
  · split
    · rename_i hfree
      refine Runs.bind (inform_runs (Q := fun _ u => u.stage = some .forwardElimination)
        hs.stage) ?_
      intro _ u hu
      refine (hnote _ _ u (by decide) hu).bind ?_
      rintro _ v ⟨hstage, hshown⟩
      exact finish_runs (by simp [hstage, Stage.next]) hshown
        (.infiniteSolutions (.inl hfree) (Nat.sub_le n _))
    · exact completeSolution_runs hs

theorem reachEchelon_runs (hs : s.stage = none) :
    Runs reachEchelon s fun r t => At (if r.isNone then none else some .forwardElimination) t := by
  refine Runs.bind (Q := fun _ u => At none u)
    (announce_runs (by decide) fun _ _ hp => ⟨hs, (shown_push hp).noted⟩) fun _ u hu => .get_bind ?_
  split
  · exact .pure hu
  · rename_i row _
    refine (leadWith_along row u hu).bind fun _ v hv => ?_
    refine Runs.bind (inform_runs (Q := fun _ w => At none w) ⟨hv.stage, hv.noted⟩) fun _ w hw => ?_
    have hforward : Runs forwardEliminate w fun _ t => At (some .forwardElimination) t := by
      have hnext : Stage.forwardElimination ∈ Stage.next w.stage := by simp [hw.stage, Stage.next]
      refine Runs.bind (Q := fun _ u => At (some .forwardElimination) u)
        (enter_runs hw.noted hnext nofun ⟨rfl, hw.noted⟩) fun _ u hu => ?_
      exact placePivots_along _ u hu
    refine hforward.bind fun placed u hu => ?_
    refine Runs.bind (Q := fun _ v => At (some .forwardElimination) v)
      (announce_runs (by decide) fun _ _ hp => ⟨hu.stage, (shown_push hp).noted⟩) fun _ v hv => ?_
    exact .pure hv

/-- A run moves on step by step until it returns a report on the state it leaves, or halts. -/
theorem solve_runs (hs : s.stage = none) : Runs (solve check) s (Concluded check) := by
  refine (reachEchelon_runs hs).bind fun r t ht => ?_
  cases r with
  | none => exact classifyDegenerate_runs ht
  | some placed => exact classify_runs ht

/-! ## The states of a run -/

/-- The states that follow `s` in a run, up to the one in which it returns or raises. -/
inductive Passes (s : Reduction α n) :
    List (Reduction α n) → Except Fault β → Reduction α n → Prop where
  | returned {us : List (Reduction α n)} {t : Reduction α n} {b : β} :
      List.IsChain Advance (s :: us) → (s :: us).getLast (by simp) = t → Passes s us (.ok b) t
  | raised {us : List (Reduction α n)} {u t : Reduction α n} {e : Fault} :
      List.IsChain Advance (s :: us) → (s :: us).getLast (by simp) = u → Halted e u t →
      Passes s (us ++ [t]) (.error e) t

namespace Passes

variable {t : Reduction α n} {us : List (Reduction α n)} {result : Except Fault β}

theorem last (h : Passes s us result t) : (s :: us).getLast (by simp) = t := by
  cases h with
  | returned _ hlast => exact hlast
  | raised => simp

theorem final_mem (h : Passes s us result t) : t ∈ s :: us := by
  rw [← h.last]
  exact List.getLast_mem _

/-- What every step preserves, a halt included, holds in every state of a run. -/
theorem invariant {I : Reduction α n → Prop} (h : Passes s us result t)
    (hadvance : ∀ u v, Advance u v → I u → I v) (hhalt : ∀ e u v, Halted e u v → I u → I v)
    (hs : I s) : ∀ u ∈ s :: us, I u := by
  have hall : ∀ vs, List.IsChain Advance (s :: vs) → ∀ u ∈ s :: vs, I u :=
    fun vs hvs => hvs.induction I _ (fun u v => hadvance u v) fun _ => hs
  cases h with
  | returned hchain _ => exact hall _ hchain
  | raised hchain hlast hh =>
    intro v hv
    rcases List.mem_append.mp (List.cons_append ▸ hv) with hv | hv
    · exact hall _ hchain v hv
    · obtain rfl := List.mem_singleton.mp hv
      exact hhalt _ _ _ hh (hlast ▸ hall _ hchain _ (List.getLast_mem _))

/-- What holds between the two ends of every step, a halt included, holds all along a run. -/
theorem chain {R : Reduction α n → Reduction α n → Prop} (h : Passes s us result t)
    (hadvance : ∀ u v, Advance u v → R u v) (hhalt : ∀ e u v, Halted e u v → R u v) :
    List.IsChain R (s :: us) := by
  cases h with
  | returned hchain _ => exact hchain.imp fun u v => hadvance u v
  | raised hchain hlast hh =>
    rw [← List.cons_append]
    refine List.IsChain.append (hchain.imp fun u v => hadvance u v) (.singleton _) ?_
    intro u hu v hv
    rw [List.getLast?_eq_some_getLast (by simp), Option.mem_some_iff, hlast] at hu
    simp only [List.head?_cons, Option.mem_some_iff] at hv
    subst hu hv
    exact hhalt _ _ _ hh

end Passes

theorem Course.invariant {I : Reduction α n → Prop} {t : Reduction α n} (h : Course s t)
    (hadvance : ∀ u v, Advance u v → I u → I v) (hs : I s) : I t := by
  induction h with
  | refl => exact hs
  | tail _ hstep ih => exact hadvance _ _ hstep ih

theorem Course.exists_chain {t : Reduction α n} (h : Course s t) :
    ∃ us, List.IsChain Advance (s :: us) ∧ (s :: us).getLast (by simp) = t :=
  List.exists_isChain_cons_of_relationReflTransGen h

/-! ## The record -/

/-- At most one operation was added to the record. -/
def Extends (s t : Reduction α n) : Prop :=
  t.recorded = s.recorded ∨ ∃ op, t.recorded = s.recorded ++ [op]

theorem recorded_entered (op : Operation α n) (text : String) (s : Reduction α n) :
    (entered op text s).recorded = s.recorded ++ [op] := by
  simp [recorded, entered]

theorem Advance.extends {t : Reduction α n} (h : Advance s t) : Extends s t := by
  cases h with
  | perform op note => exact .inr ⟨op, recorded_entered op note.description s⟩
  | emit | enter | note | undo => exact .inl rfl

theorem Halted.extends {e : Fault} {t : Reduction α n} (h : Halted e s t) : Extends s t := by
  cases h with
  | unpictured op text => exact .inr ⟨op, recorded_entered op text s⟩
  | between | unwritten => exact .inl rfl

omit [Scalar α] in
/-- A record that grows step by step passes through every one of its beginnings. -/
theorem exists_recorded_of_chain {us : List (Reduction α n)} (hs : s.recorded = [])
    (h : List.IsChain Extends (s :: us)) {ops : List (Operation α n)}
    (hops : ops <+: ((s :: us).getLast (by simp)).recorded) : ∃ u ∈ s :: us, u.recorded = ops := by
  induction us using List.reverseRecOn with
  | nil =>
    rw [List.getLast_singleton, hs, List.prefix_nil] at hops
    exact ⟨s, by simp, hs.trans hops.symm⟩
  | append_singleton us t ih =>
    rw [← List.cons_append, List.isChain_append] at h
    obtain ⟨hchain, _, hstep⟩ := h
    have hextends : Extends ((s :: us).getLast (by simp)) t :=
      hstep _ (List.getLast_mem_getLast? _) t rfl
    have hbefore : ops <+: ((s :: us).getLast (by simp)).recorded →
        ∃ u ∈ s :: (us ++ [t]), u.recorded = ops := fun hprefix => by
      obtain ⟨u, hu, hrecorded⟩ := ih hchain hprefix
      exact ⟨u, List.mem_append_left [t] hu, hrecorded⟩
    have hlast : (s :: (us ++ [t])).getLast (by simp) = t := by simp
    rw [hlast] at hops
    rcases hextends with hsame | ⟨op, hmore⟩
    · exact hbefore (hsame ▸ hops)
    · rw [hmore, List.prefix_concat_iff] at hops
      rcases hops with rfl | hops
      · exact ⟨t, by simp, hmore⟩
      · exact hbefore hops

/-- Every beginning of the record is the record of some state of the run. -/
theorem Passes.exists_recorded {us : List (Reduction α n)} {t : Reduction α n}
    {result : Except Fault β} (h : Passes s us result t) (hs : s.recorded = [])
    {ops : List (Operation α n)} (hops : ops <+: t.recorded) : ∃ u ∈ s :: us, u.recorded = ops :=
  exists_recorded_of_chain hs
    (h.chain (fun _ _ => Advance.extends) fun _ _ _ => Halted.extends) (h.last.symm ▸ hops)

/-- Every operation of the record has its text. -/
def Labelled (s : Reduction α n) : Prop := ∀ entry ∈ s.operations, entry.1.text = .ok entry.2

theorem labelled_entered {op : Operation α n} {text : String} (hop : op.text = .ok text)
    (hs : Labelled s) : Labelled (entered op text s) := by
  intro entry hentry
  rcases Array.mem_push.mp hentry with hold | rfl
  · exact hs entry hold
  · exact hop

theorem Advance.labelled {t : Reduction α n} (h : Advance s t) (hs : Labelled s) : Labelled t := by
  cases h with
  | perform op note _ _ hop _ => exact labelled_entered hop hs
  | emit | enter | note | undo => exact hs

theorem Halted.labelled {e : Fault} {t : Reduction α n} (h : Halted e s t) (hs : Labelled s) :
    Labelled t := by
  cases h with
  | unpictured op text _ _ hop _ => exact labelled_entered hop hs
  | between | unwritten => exact hs

/-! ## The log -/

end Reduction

namespace System

variable {α : Type} [Scalar α] {n : Nat} (m : System α n) (verify : Bool) (verifyTolerance : α)

theorem solve_passes : ∃ us, Reduction.Passes { system := m } us
    (m.solve verify verifyTolerance).1 (m.solve verify verifyTolerance).2 := by
  have h : Reduction.Runs (Reduction.solve ⟨verify, verifyTolerance, m⟩) { system := m }
      (Reduction.Concluded ⟨verify, verifyTolerance, m⟩) := Reduction.solve_runs rfl
  unfold Reduction.Runs at h
  unfold solve
  split at h
  · rename_i hrun
    obtain ⟨us, hchain, hlast⟩ := h.1.exists_chain
    rw [hrun]
    exact ⟨us, .returned hchain hlast⟩
  · rename_i hrun
    obtain ⟨u, hcourse, hhalt⟩ := h
    obtain ⟨us, hchain, hlast⟩ := Reduction.Course.exists_chain hcourse
    rw [hrun]
    exact ⟨_, .raised hchain hlast hhalt⟩

variable {m verify verifyTolerance}

/-- A run that returns has come to what it reports step by step. -/
theorem solve_returned {report : Report α n} {t : Reduction α n}
    (h : m.solve verify verifyTolerance = (.ok report, t)) :
    Reduction.Course { system := m } t ∧
      Reduction.Concluded ⟨verify, verifyTolerance, m⟩ report t := by
  have hruns : Reduction.Runs (Reduction.solve ⟨verify, verifyTolerance, m⟩) { system := m }
      (Reduction.Concluded ⟨verify, verifyTolerance, m⟩) := Reduction.solve_runs rfl
  rw [Reduction.Runs, solve_ok.mp h] at hruns
  exact hruns

theorem solve_concluded {report : Report α n} {t : Reduction α n}
    (h : m.solve verify verifyTolerance = (.ok report, t)) :
    Reduction.Concluded ⟨verify, verifyTolerance, m⟩ report t :=
  (solve_returned h).2

end System

end GaussJordan
