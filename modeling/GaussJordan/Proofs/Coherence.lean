import GaussJordan.Proofs.Course
import GaussJordan.Proofs.Reading
import GaussJordan.Proofs.Texts
import Mathlib.Data.List.Forall2

/-!
# GaussJordan.Proofs.Coherence

The report of a run agrees with what the run did, over any scalar type.

* `mark_text`: the text of an operation ends with a row or a column and its number, so it is no
  title of a stage, and it is the text of an exchange of columns exactly if it ends with a column.
* `Told m forward backward s`: the notes on operations tell, in order, each recorded operation and
  the system right after it. `forward` was performed as long as the exchanges of columns stand, and
  `backward` after they were taken back. Every step of a run tells on (`Told.advance`).
* `Listed s`: the titles of those notes are the entries of the record, and the exchanges among them
  are counted.
* `Coherent check report run` is what the report then says (`System.solve_coherent`).
-/

namespace GaussJordan

variable {α : Type} [Scalar α] {n : Nat}

/-! ## Texts of operations -/

/-- The last character of a text, without the digits at its end. -/
def mark (text : String) : Option Char := (text.toList.reverse.dropWhile Char.isDigit).head?

theorem mark_append_number (front : String) {back : String} {c : Char}
    (hback : back.toList.getLast? = some c) (hc : c.isDigit = false) (k : Nat) :
    mark (front ++ back ++ toString k) = some c := by
  obtain ⟨cs, hcs⟩ := List.getLast?_eq_some_iff.mp hback
  have hdigits : ∀ d ∈ (Decimal.digits k).reverse, d.isDigit = true := fun d hd =>
    Decimal.isDigit_of_mem_digits (List.mem_reverse.mp hd)
  have hlist : (front ++ back ++ toString k).toList.reverse =
      (Decimal.digits k).reverse ++ c :: (cs.reverse ++ front.toList.reverse) := by
    simp [hcs, Decimal.digits]
  rw [mark, hlist, List.dropWhile_append_of_pos hdigits, List.dropWhile_cons_of_neg (by simp [hc])]
  rfl

theorem mark_columnSwapText (i j : Fin n) :
    mark (columnSwapText (Operation.number i) (Operation.number j)) = some 'C' :=
  mark_append_number ("C" ++ toString (Operation.number i)) (by decide) rfl (Operation.number j)

/-- No title ends as the text of an operation does. -/
theorem mark_of_mem_stageTitles {title : String} (h : title ∈ stageTitles) :
    mark title ≠ some 'R' ∧ mark title ≠ some 'C' := by
  revert title
  decide

namespace Operation

theorem mark_text {op : Operation α n} {text : String} (h : op.text = .ok text) :
    mark text = some (if op.exchanges.isEmpty then 'R' else 'C') := by
  cases op with
  | swapRows i j =>
    cases h
    exact mark_append_number (c := 'R') ("R" ++ toString (number i)) (by decide) rfl (number j)
  | swapColumns i j =>
    cases h
    exact mark_columnSwapText i j
  | scale factor i =>
    obtain ⟨f, _, h⟩ := andThen_ok.mp h
    cases h
    exact mark_append_number (c := 'R') (f ++ " * R" ++ toString (number i)) (by decide) rfl
      (number i)
  | addScaled factor i j =>
    obtain ⟨f, _, h⟩ := andThen_ok.mp h
    cases h
    exact mark_append_number (c := 'R')
      (f ++ " * R" ++ toString (number i) ++ " + R" ++ toString (number j)) (by decide) rfl
      (number j)

theorem text_not_title {op : Operation α n} {text : String} (h : op.text = .ok text) :
    text ∉ stageTitles := by
  intro htitle
  obtain ⟨hr, hc⟩ := mark_of_mem_stageTitles htitle
  have hmark := mark_text h
  split at hmark
  · exact hr hmark
  · exact hc hmark

end Operation

/-- The entry of an exchange of two columns. -/
def IsExchangeText (n : Nat) (text : String) : Prop :=
  ∃ i j : Fin n, text = columnSwapText (Operation.number i) (Operation.number j)

instance (n : Nat) (text : String) : Decidable (IsExchangeText n text) :=
  inferInstanceAs (Decidable (∃ _ _ : Fin n, _))

theorem length_exchanges {op : Operation α n} {text : String} (h : op.text = .ok text) :
    op.exchanges.length = if IsExchangeText n text then 1 else 0 := by
  cases op with
  | swapColumns i j =>
    cases h
    rw [if_pos ⟨i, j, rfl⟩]
    rfl
  | swapRows | scale | addScaled =>
    rw [if_neg]
    · rfl
    · rintro ⟨i, j, rfl⟩
      have hmark := Operation.mark_text h
      rw [mark_columnSwapText] at hmark
      cases hmark

/-! ## The systems of a run -/

namespace Operation

/-- Each operation with the system right after it. -/
def results : List (Operation α n) → System α n → List (Operation α n × System α n)
  | [], _ => []
  | op :: ops, m => (op, op.apply m) :: results ops (op.apply m)

theorem results_concat (ops : List (Operation α n)) (op : Operation α n) (m : System α n) :
    results (ops ++ [op]) m = results ops m ++ [(op, applyAll (ops ++ [op]) m)] := by
  induction ops generalizing m with
  | nil => rfl
  | cons first ops ih => exact congrArg (List.cons _) (ih (first.apply m))

end Operation

namespace Reduction

open Operation

/-- What the operations made of a system, with their exchanges of columns taken back. -/
def turned (m : System α n) (ops : List (Operation α n)) : System α n :=
  (applyAll ops m).restored (recordAll ops [])

/-- Every operation with the system right after it. The exchanges are taken back in between. -/
def story (m : System α n) (forward backward : List (Operation α n)) :
    List (Operation α n × System α n) :=
  results forward m ++ results backward (turned m forward)

/-- The texts of an operation and of the system right after it. -/
def Tells (result : Operation α n × System α n) (description expression : String) : Prop :=
  result.1.text = .ok description ∧ result.2.text = .ok expression

/-- The notes on operations tell what was recorded: the operations `forward` as long as the
exchanges stand, and `backward` when they have been taken back. -/
structure Told (m : System α n) (forward backward : List (Operation α n)) (s : Reduction α n) :
    Prop where
  recorded : s.recorded = forward ++ backward
  notes : List.Forall₂ (fun result note => Tells result note.description note.expression)
    (story m forward backward) (s.notes.toList.filter (·.description ∉ stageTitles))
  phase : match Stage.phase s.stage with
    | .standing => backward = [] ∧ s.system = applyAll forward m ∧
        s.history = recordAll forward []
    | .undoing => backward = [] ∧ s.system.restored s.history = turned m forward
    | .undone => s.history = [] ∧ s.system = applyAll backward (turned m forward)

variable {m : System α n} {forward backward : List (Operation α n)} {s t : Reduction α n}

namespace Told

theorem start (m : System α n) : Told m [] [] { system := m } := ⟨rfl, .nil, rfl, rfl, rfl⟩

/-- The operation performed is the next one told. -/
theorem perform {op : Operation α n} {note : Note} (hop : Stage.Performs s.stage op)
    (htext : op.text = .ok note.description) (hp : (op.apply s.system).text = .ok note.expression)
    (h : Told m forward backward s) :
    ∃ forward' backward', Told m forward' backward'
      { entered op note.description s with notes := s.notes.push note } := by
  have hfilter : (s.notes.push note).toList.filter (·.description ∉ stageTitles) =
      s.notes.toList.filter (·.description ∉ stageTitles) ++ [note] := by
    simp [text_not_title htext]
  have hphase := h.phase
  rcases Stage.phase_of_performs hop with hstage | ⟨hstage, hnone⟩
  · rw [hstage] at hphase
    obtain ⟨rfl, hsystem, hhistory⟩ := hphase
    have hafter : op.apply s.system = applyAll (forward ++ [op]) m := by
      rw [hsystem, applyAll_concat]
    refine ⟨forward ++ [op], [], ?_, ?_, ?_⟩
    · exact (recorded_entered op _ s).trans (by rw [h.recorded, List.append_nil, List.append_nil])
    · have hnotes := h.notes
      simp only [story, results, List.append_nil] at hnotes ⊢
      rw [hfilter, results_concat]
      exact List.rel_append hnotes (.cons ⟨htext, hafter ▸ hp⟩ .nil)
    · change match Stage.phase s.stage with | .standing => _ | .undoing => _ | .undone => _
      rw [hstage]
      refine ⟨rfl, hafter, ?_⟩
      change op.exchanges ++ s.history = _
      rw [hhistory, recordAll_concat]
  · rw [hstage] at hphase
    obtain ⟨hhistory, hsystem⟩ := hphase
    have hafter : op.apply s.system = applyAll (backward ++ [op]) (turned m forward) := by
      rw [hsystem, applyAll_concat]
    refine ⟨forward, backward ++ [op], ?_, ?_, ?_⟩
    · exact (recorded_entered op _ s).trans (by rw [h.recorded, List.append_assoc])
    · dsimp only
      rw [hfilter, story, results_concat, ← List.append_assoc]
      exact List.rel_append h.notes (.cons ⟨htext, hafter ▸ hp⟩ .nil)
    · change match Stage.phase s.stage with | .standing => _ | .undoing => _ | .undone => _
      rw [hstage]
      refine ⟨?_, hafter⟩
      change op.exchanges ++ s.history = []
      rw [hnone, hhistory, List.append_nil]

theorem advance (hst : Advance s t) (h : Told m forward backward s) :
    ∃ forward' backward', Told m forward' backward' t := by
  cases hst with
  | emit => exact ⟨forward, backward, h.recorded, h.notes, h.phase⟩
  | note note htitle hp =>
    refine ⟨forward, backward, h.recorded, ?_, h.phase⟩
    have hfilter : (s.notes.push note).toList.filter (·.description ∉ stageTitles) =
        s.notes.toList.filter (·.description ∉ stageTitles) := by
      simp [htitle]
    dsimp only
    rw [hfilter]
    exact h.notes
  | perform op note _ hop htext hp => exact h.perform hop htext hp
  | undo entry rest _ hstage hhistory =>
    refine ⟨forward, backward, h.recorded, h.notes, ?_⟩
    have hphase := h.phase
    simp only [hstage, Stage.phase] at hphase ⊢
    obtain ⟨hback, hturned⟩ := hphase
    rw [hhistory, System.restored_cons] at hturned
    exact ⟨hback, hturned⟩
  | enter stage _ hnext hback =>
    refine ⟨forward, backward, h.recorded, h.notes, ?_⟩
    have hphase := h.phase
    rcases Stage.phase_next hnext with hsame | ⟨hstanding, rfl⟩ | ⟨hundoing, rfl⟩
    · dsimp only
      rw [hsame]
      exact hphase
    · rw [hstanding] at hphase
      obtain ⟨hnone, hsystem, hhistory⟩ := hphase
      refine ⟨hnone, ?_⟩
      rw [hsystem, hhistory]
      rfl
    · rw [hundoing] at hphase
      obtain ⟨rfl, hturned⟩ := hphase
      rw [hback rfl] at hturned
      exact ⟨hback rfl, hturned⟩

end Told

/-- The record lists the titles of the notes that are not about a stage, and the count of exchanges
is that of their entries. -/
structure Listed (s : Reduction α n) : Prop where
  operations : (s.notes.toList.map (·.description)).filter (· ∉ stageTitles) =
    s.operations.toList.map (·.2)
  columnSwaps : s.columnSwaps = (s.operations.toList.map (·.2)).countP (IsExchangeText n ·)

theorem Advance.listed (h : Advance s t) (hs : Listed s) : Listed t := by
  cases h with
  | emit | enter | undo => exact ⟨hs.operations, hs.columnSwaps⟩
  | note note htitle _ =>
    refine ⟨?_, hs.columnSwaps⟩
    rw [← hs.operations]
    simp [htitle]
  | perform op note _ _ htext _ =>
    constructor
    · change ((s.notes.push note).toList.map (·.description)).filter (· ∉ stageTitles) =
        (s.operations.push (op, note.description)).toList.map (·.2)
      rw [Array.toList_push, Array.toList_push, List.map_append, List.map_append,
        List.filter_append, hs.operations]
      simp [text_not_title htext]
    · change s.columnSwaps + op.exchanges.length =
        ((s.operations.push (op, note.description)).toList.map (·.2)).countP (IsExchangeText n ·)
      rw [Array.toList_push, List.map_append, List.countP_append, ← hs.columnSwaps,
        length_exchanges htext]
      simp [List.countP_cons]

/-! ## Numbers of steps -/

theorem numberSteps_number (notes : List Note) :
    (numberSteps notes).map (·.number) = List.range' 1 notes.length := by
  rw [numberSteps, List.map_map]
  exact List.zipIdx_map_snd 1 notes

theorem numberSteps_texts (notes : List Note) :
    (numberSteps notes).map (fun step => (step.description, step.expression)) =
      notes.map fun note => (note.description, note.expression) := by
  rw [numberSteps, List.map_map]
  change (notes.zipIdx 1).map ((fun note => (note.description, note.expression)) ∘ Prod.fst) = _
  rw [← List.map_map, List.zipIdx_map_fst]

theorem verifyRow_number {tol : α} {x : Vector (Complex α) n} {number : Nat} {r : Row α n}
    {step : Step} (h : verifyRow tol x number r = .ok step) : step.number = number + 1 := by
  obtain ⟨_, _, h⟩ := andThen_ok.mp h
  obtain ⟨_, _, h⟩ := andThen_ok.mp h
  obtain ⟨_, _, h⟩ := andThen_ok.mp h
  cases h
  rfl

/-- The steps of a check are one for each equation between the first and the last. -/
theorem verify_number {tol : α} {m : System α n} {x : Vector (Complex α) n} {verdict : Verdict}
    (h : m.verify tol x = .ok verdict) :
    verdict.steps.map (·.number) = List.range' 1 (n + 2) := by
  obtain ⟨equations, hequations, h⟩ := andThen_ok.mp h
  have hnumber : equations.map (·.number) = (m.rows.toList.zipIdx 1).map (·.2 + 1) :=
    mapM_map hequations fun p step hp => verifyRow_number hp
  have hrange : (m.rows.toList.zipIdx 1).map (·.2 + 1) = List.range' 2 n := by
    change (m.rows.toList.zipIdx 1).map ((· + 1) ∘ Prod.snd) = _
    rw [← List.map_map, List.zipIdx_map_snd, Vector.length_toList]
    simp only [Nat.add_comm _ 1, List.map_add_range']
  cases h
  dsimp only
  rw [List.map_append, List.map_cons, hnumber, hrange, List.range'_succ, List.range'_1_concat]
  split <;> simp [Nat.add_comm]

/-! ## The report -/

/-- The report and the state that the run left agree in everything that both tell. -/
structure Coherent (check : Check α n) (report : Report α n) (run : Reduction α n) : Prop where
  numbers : report.steps.map (·.number) = List.range' 1 report.summary.totalSteps
  totalSteps : report.summary.totalSteps = report.steps.length
  /-- What is left of the steps without those about a stage. -/
  operations : (report.steps.map (·.description)).filter (· ∉ stageTitles) = report.operations
  columnSwaps : report.columnSwaps = report.operations.countP (IsExchangeText n ·)
  /-- Each of those steps shows the system right after its operation. -/
  expressions : ∃ forward backward, run.recorded = forward ++ backward ∧
    (if report.classification = .solved then
      run.system = applyAll backward (turned check.original forward)
    else backward = [] ∧ run.system = applyAll forward check.original) ∧
    List.Forall₂ (fun result step => Tells result step.description step.expression)
      (story check.original forward backward)
      (report.steps.filter (·.description ∉ stageTitles))
  lastExpression : ∃ step, report.steps.getLast? = some step ∧
    run.system.text = .ok step.expression
  solved : report.classification = .solved ↔ report.solution.isSome = true
  values : ∀ x, report.solution = some x → report.freeVariables = 0 ∧
    ∃ texts, x.toList.mapM Complex.text = .ok texts ∧
      texts.length = n ∧ report.finalAnswer = "\n".intercalate texts
  infiniteSolutions : report.classification = .infiniteSolutions ↔
    1 ≤ report.freeVariables ∧ report.freeVariables ≤ n
  noSolution : report.classification = .noSolution → report.freeVariables = 0
  checked : ∀ x, report.solution = some x → check.enabled = true →
    report.verificationSteps.map (·.number) = List.range' 1 (n + 2) ∧
      report.summary.verificationSteps = n + 2 ∧
      report.summary.validation =
        if check.original.passes check.tolerance x then .passed else .failed
  unchecked : report.solution = none ∨ check.enabled = false →
    report.verificationSteps = [] ∧ report.summary.validation = .skipped

variable {check : Check α n} {report : Report α n} {run : Reduction α n}

/-- The steps of a report are the notes of its run, numbered. -/
theorem texts_of_concluded (h : Concluded check report run) :
    report.steps.map (fun step => (step.description, step.expression)) =
      run.notes.toList.map fun note => (note.description, note.expression) := by
  rw [h.steps, numberSteps_texts]

theorem expressions_of_told {forward backward : List (Operation α n)}
    (h : Concluded check report run) (htold : Told m forward backward run) :
    List.Forall₂ (fun result step => Tells result step.description step.expression)
      (story m forward backward) (report.steps.filter (·.description ∉ stageTitles)) := by
  -- the steps and the notes have the same texts, so the same of them are about operations
  have hfilter := congrArg (List.filter (·.1 ∉ stageTitles)) (texts_of_concluded h)
  rw [List.filter_map, List.filter_map] at hfilter
  have hnotes := htold.notes
  rw [← List.forall₂_map_right_iff (f := fun note : Note => (note.description, note.expression))
    (R := fun result texts => Tells result texts.1 texts.2)] at hnotes
  rw [← List.forall₂_map_right_iff (f := fun step : Step => (step.description, step.expression))
    (R := fun result texts => Tells result texts.1 texts.2)]
  exact hfilter ▸ hnotes

theorem lastExpression_of_shown (h : Concluded check report run) :
    ∃ step, report.steps.getLast? = some step ∧ run.system.text = .ok step.expression := by
  obtain ⟨note, hnote, hp⟩ := h.shown
  have hlast := congrArg List.getLast? (texts_of_concluded h)
  rw [List.getLast?_map, List.getLast?_map, Array.getLast?_toList, hnote] at hlast
  obtain ⟨step, hstep, htexts⟩ := Option.map_eq_some_iff.mp hlast
  exact ⟨step, hstep, by rw [hp, (Prod.mk.inj htexts).2]⟩

section

variable {classification : Classification} {solution : Option (Vector (Complex α) n)} {free : Nat}

omit [Scalar α] in
theorem Answer.solved_iff (h : Answer m classification solution free) :
    classification = .solved ↔ solution.isSome = true := by
  cases h <;> simp

omit [Scalar α] in
theorem Answer.infiniteSolutions_iff (h : Answer m classification solution free) (hn : 0 < n) :
    classification = .infiniteSolutions ↔ 1 ≤ free ∧ free ≤ n := by
  cases h with
  | solved | noSolution => simp
  | infiniteSolutions hfree hle =>
    refine ⟨fun _ => ⟨?_, hle⟩, fun _ => rfl⟩
    rcases hfree with hpos | rfl
    · exact hpos
    · exact hn

omit [Scalar α] in
theorem Answer.freeVariables_eq (h : Answer m classification solution free)
    (hne : classification ≠ .infiniteSolutions) : free = 0 := by
  cases h with
  | solved | noSolution => rfl
  | infiniteSolutions => exact absurd rfl hne

/-- The answer to a solved system lists the values of its unknowns. -/
theorem answerText_solved {x : Vector (Complex α) n} {text : String}
    (h : answerText .solved (some x) = .ok text) :
    ∃ texts, x.toList.mapM Complex.text = .ok texts ∧ texts.length = n ∧
      text = "\n".intercalate texts := by
  obtain ⟨texts, htexts, h⟩ := andThen_ok.mp h
  have hlength := congrArg List.length
    (mapM_map (g := fun _ => ()) (r := fun _ => ()) htexts fun _ _ _ => rfl)
  cases h
  refine ⟨texts, htexts, ?_, rfl⟩
  simpa using hlength

theorem Check.Made.checked {steps : List Step} {validation : Validation}
    {x : Vector (Complex α) n} (h : check.Made steps validation (some x))
    (henabled : check.enabled = true) :
    steps.map (·.number) = List.range' 1 (n + 2) ∧
      validation = if check.original.passes check.tolerance x then .passed else .failed := by
  rw [Made, if_pos henabled] at h
  obtain ⟨verdict, hverdict, rfl, rfl⟩ := h
  rw [System.verify_ok hverdict]
  exact ⟨verify_number hverdict, rfl⟩

theorem Check.Made.unchecked {steps : List Step} {validation : Validation}
    (h : check.Made steps validation solution) (hnone : solution = none ∨ check.enabled = false) :
    steps = [] ∧ validation = .skipped := by
  cases solution with
  | none => exact h
  | some x =>
    rw [Made, if_neg (by simpa using hnone)] at h
    exact h

end

end Reduction

/-- What a run reports is coherent with what it did. -/
theorem System.solve_coherent {m : System α n} {verify : Bool} {verifyTolerance : α}
    {report : Report α n} {run : Reduction α n} (hn : 0 < n)
    (h : m.solve verify verifyTolerance = (.ok report, run)) :
    Reduction.Coherent ⟨verify, verifyTolerance, m⟩ report run := by
  obtain ⟨hcourse, hconcluded⟩ := System.solve_returned h
  obtain ⟨forward, backward, htold⟩ := hcourse.invariant
    (I := fun s => ∃ forward backward, Reduction.Told m forward backward s)
    (fun _ _ hstep ⟨_, _, htold⟩ => htold.advance hstep) ⟨[], [], .start m⟩
  have hlisted := hcourse.invariant (I := Reduction.Listed) (fun _ _ => Reduction.Advance.listed)
    ⟨rfl, rfl⟩
  have hanswer := hconcluded.answer
  have hdescriptions : report.steps.map (·.description) =
      run.notes.toList.map (·.description) := by
    have htexts := congrArg (List.map Prod.fst) (Reduction.texts_of_concluded hconcluded)
    rw [List.map_map, List.map_map] at htexts
    exact htexts
  constructor
  · rw [hconcluded.steps, Reduction.numberSteps_number, Report.summary, hconcluded.steps]
    simp [numberSteps]
  · rfl
  · rw [hdescriptions, hlisted.operations, hconcluded.operations]
  · rw [hconcluded.columnSwaps, hlisted.columnSwaps, hconcluded.operations]
  · refine ⟨forward, backward, htold.recorded, ?_, Reduction.expressions_of_told hconcluded htold⟩
    have hphase := htold.phase
    rw [hconcluded.stage] at hphase
    split
    · rename_i hsolved
      rw [hsolved] at hphase
      exact hphase.2
    · cases hc : report.classification with
      | solved => exact absurd hc ‹_›
      | noSolution | infiniteSolutions =>
        rw [hc] at hphase
        exact ⟨hphase.1, hphase.2.1⟩
  · exact Reduction.lastExpression_of_shown hconcluded
  · exact hanswer.solved_iff
  · intro x hx
    have hsolved := hanswer.solved_iff.mpr (by rw [hx]; rfl)
    have htext := hconcluded.finalAnswer
    rw [hsolved, hx] at htext
    exact ⟨hanswer.freeVariables_eq (by rw [hsolved]; decide), Reduction.answerText_solved htext⟩
  · exact hanswer.infiniteSolutions_iff hn
  · intro hnone
    exact hanswer.freeVariables_eq (by rw [hnone]; decide)
  · intro x hx henabled
    have hmade := hconcluded.check
    rw [hx] at hmade
    obtain ⟨hnumbers, hvalidation⟩ := hmade.checked henabled
    refine ⟨hnumbers, ?_, hvalidation⟩
    have hlength := congrArg List.length hnumbers
    rw [List.length_map, List.length_range'] at hlength
    exact hlength
  · exact hconcluded.check.unchecked

/-- `x / 4 + y / 2 = 0` and `y = 1`, where a quarter counts as zero. -/
def faintCorner : System Double 2 where
  tolerance := .ofRatio false 1 4
  rows :=
    let a (numerator denominator : Nat) : Complex Double :=
      .ofReal (.ofRatio false numerator denominator)
    #v[#v[a 1 4, a 1 2, a 0 1], #v[a 0 1, a 1 1, a 1 1]]

theorem System.solve_coherent_faintCorner :
    0 < 2 ∧ ∃ report run, faintCorner.solve true defaultVerifyTolerance = (.ok report, run) ∧
      report.classification = .solved ∧ report.columnSwaps = 1 ∧ report.summary.totalSteps = 8 ∧
      Reduction.Coherent ⟨true, defaultVerifyTolerance, faintCorner⟩ report run := by
  have hrun : Reduction.endsWith (Reduction.solve ⟨true, defaultVerifyTolerance, faintCorner⟩)
      { system := faintCorner } (fun report _ => report.classification == .solved &&
        report.columnSwaps == 1 && report.summary.totalSteps == 8) = true := by
    decide +kernel
  obtain ⟨report, run, hsolve, hr⟩ := Reduction.exists_of_endsWith hrun
  simp only [Bool.and_eq_true, beq_iff_eq] at hr
  have hsolve := System.solve_ok.mpr hsolve
  exact ⟨by decide, report, run, hsolve, hr.1.1, hr.1.2, hr.2,
    System.solve_coherent (by decide) hsolve⟩

end GaussJordan
