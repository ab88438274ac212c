import GaussJordan.Proofs.Course
import GaussJordan.Proofs.Faults
import GaussJordan.Proofs.UndoneExchanges

/-!
# GaussJordan.Proofs.LifeCycle

The life of a prepared run, over binary64 numbers.

* In a run the stages follow one another as `Stage.next` allows (`Follows`), and the history of
  exchanges agrees with their count until they are taken back (`Balanced`). Each step preserves
  this, a halt included, so it holds in every state of the run.
* A workspace that made the run shows its last state: the system, the stage, the operations, the
  count of exchanges and the history (`Holds`). Called again, it refuses and changes nothing.
* `prepare_calls` is the whole life: a run is prepared, and called any number of times.
-/

namespace GaussJordan

namespace Reduction

variable {α : Type} [Scalar α] {n : Nat} {s t : Reduction α n} {e : Fault}

/-! ## Stages and history -/

/-- The stage stays, or one is entered that may follow. -/
def Follows (s t : Reduction α n) : Prop :=
  t.stage = s.stage ∨ ∃ stage ∈ Stage.next s.stage, t.stage = some stage

/-- As long as the exchanges stand, the history holds one entry for each that was counted. When
they have been taken back it is empty. -/
def Balanced (s : Reduction α n) : Prop :=
  match Stage.phase s.stage with
  | .standing => s.history.length = s.columnSwaps
  | .undoing => True
  | .undone => s.history = []

/-- The run's own exchanges are all that is in the history. -/
def Owned (s : Reduction α n) : Prop := ∀ entry ∈ s.history, ∃ i j, entry = .own i j

theorem Advance.follows (h : Advance s t) : Follows s t := by
  cases h with
  | enter stage _ hnext _ => exact .inr ⟨stage, hnext, rfl⟩
  | emit | note | perform | undo => exact .inl rfl

theorem Halted.follows (h : Halted e s t) : Follows s t := by
  cases h <;> exact .inl rfl

/-- An operation that the stage performs is counted as it is put in the history. -/
theorem balanced_entered {op : Operation α n} (hop : Stage.Performs s.stage op) (text : String)
    (hs : Balanced s) : Balanced (entered op text s) := by
  unfold Balanced at hs ⊢
  have hstage : (entered op text s).stage = s.stage := rfl
  have hhistory : (entered op text s).history = op.exchanges ++ s.history := rfl
  have hswaps : (entered op text s).columnSwaps = s.columnSwaps + op.exchanges.length := rfl
  rw [hstage]
  rcases Stage.phase_of_performs hop with hphase | ⟨hphase, hnone⟩
  · rw [hphase] at hs ⊢
    dsimp only at hs ⊢
    rw [hhistory, hswaps, List.length_append, hs, Nat.add_comm]
  · rw [hphase] at hs ⊢
    dsimp only at hs ⊢
    rw [hhistory, hnone, hs, List.append_nil]

theorem Advance.balanced (h : Advance s t) (hs : Balanced s) : Balanced t := by
  cases h with
  | emit | note => exact hs
  | perform op note _ hop _ _ => exact balanced_entered hop note.description hs
  | undo entry rest _ hstage _ =>
    unfold Balanced
    simp only [hstage, Stage.phase]
  | enter stage _ hnext hback =>
    unfold Balanced at hs ⊢
    dsimp only
    rcases Stage.phase_next hnext with hphase | ⟨_, rfl⟩ | ⟨_, rfl⟩
    · rw [hphase]
      exact hs
    · trivial
    · exact hback rfl

theorem Halted.balanced (h : Halted e s t) (hs : Balanced s) : Balanced t := by
  cases h with
  | between | unwritten => exact hs
  | unpictured op text _ hop _ _ => exact balanced_entered hop text hs

theorem owned_entered (op : Operation α n) (text : String) (hs : Owned s) :
    Owned (entered op text s) := by
  intro entry hentry
  rcases List.mem_append.mp hentry with hnew | hold
  · cases op with
    | swapColumns i j => exact ⟨i, j, List.mem_singleton.mp hnew⟩
    | swapRows | scale | addScaled => cases hnew
  · exact hs entry hold

theorem Advance.owned (h : Advance s t) (hs : Owned s) : Owned t := by
  cases h with
  | emit | note | enter => exact hs
  | perform op note _ _ _ _ => exact owned_entered op note.description hs
  | undo entry rest _ _ hhistory =>
    intro entry' hentry
    exact hs entry' (hhistory ▸ List.mem_cons_of_mem entry hentry)

theorem Halted.owned (h : Halted e s t) (hs : Owned s) : Owned t := by
  cases h with
  | between | unwritten => exact hs
  | unpictured op text _ _ _ _ => exact owned_entered op text hs

/-- Of the system given, a run that has noted nothing has changed nothing, and no run its
tolerance. -/
structure Intact (m : System α n) (s : Reduction α n) : Prop where
  tolerance : s.system.tolerance = m.tolerance
  system : s.notes.size = 0 → s.system = m

theorem Advance.intact {m : System α n} (h : Advance s t) (hs : Intact m s) : Intact m t := by
  cases h with
  | emit => exact ⟨hs.tolerance, hs.system⟩
  | note => exact ⟨hs.tolerance, fun h => by simp at h⟩
  | enter stage hnoted => exact ⟨hs.tolerance, fun h => absurd h (by dsimp only; omega)⟩
  | perform op note =>
    exact ⟨(Operation.tolerance_apply op _).trans hs.tolerance, fun h => by simp at h⟩
  | undo entry rest hnoted =>
    refine ⟨?_, fun h => absurd h (by dsimp only; omega)⟩
    rw [← hs.tolerance]
    cases entry <;> rfl

theorem Halted.intact {m : System α n} (h : Halted e s t) (hs : Intact m s) : Intact m t := by
  cases h with
  | between => exact hs
  | unwritten op hnoted =>
    exact ⟨(Operation.tolerance_apply op _).trans hs.tolerance,
      fun h => absurd h (by dsimp only; omega)⟩
  | unpictured op text hnoted =>
    exact ⟨(Operation.tolerance_apply op _).trans hs.tolerance,
      fun h => absurd h (by dsimp only [entered]; omega)⟩

end Reduction

/-! ## A run in a workspace -/

namespace Workspace

variable {n : Nat} {w : Workspace} {number : Nat} {rows : Vector Nat n} {m : System Double n}

theorem setRow_rewrites (p : Nat × Row Double n) :
    Rewrites (do setRow p.1 ⟨n, ← newCells p.2⟩) p.1 fun _ : Row Double n => p.2 := by
  intro w r hr
  obtain ⟨cells, next, hnew, hvalues⟩ := newCells_ok p.2 w
  refine ⟨⟨n, cells⟩, next, ?_, ?_⟩
  · rw [bind_of_ok hnew]
    rfl
  · have hself := HasRow.setRow_self hr.lt cells
    rw [hvalues] at hself
    exact hself

/-- The rows of a stored system get the terms of another system. -/
theorem forM_setRow_ok (h : w.Stores number rows m) {k : System Double n}
    (htol : k.tolerance = m.tolerance) :
    ∃ all next,
      ((rows.toList.zip k.rows.toList).forM fun p => do setRow p.1 ⟨n, ← newCells p.2⟩) w =
        .ok () { w with rows := all, nextIdentity := next } ∧
      Stores { w with rows := all } number rows k := by
  have hplaces : (rows.toList.zip k.rows.toList).map Prod.fst = rows.toList :=
    List.map_fst_zip (by simp)
  have hnodup : ((rows.toList.zip k.rows.toList).map Prod.fst).Nodup := by
    rw [hplaces]
    exact nodup_toList h.distinct
  have hrows : ∀ p ∈ rows.toList.zip k.rows.toList, ∃ r : Row Double n, w.HasRow p.1 r := by
    intro p hp
    refine h.exists_hasRow p.1 ?_
    rw [← hplaces]
    exact List.mem_map_of_mem hp
  obtain ⟨all, next, hstore, hin, _⟩ := forM_rewrites Prod.fst (rows.toList.zip k.rows.toList)
    hnodup (fun p _ => setRow_rewrites p) hrows
  refine ⟨all, next, hstore, ?_, h.distinct, fun i => ?_⟩
  · rw [htol]
    exact h.system
  · have hmem : (rows.get i, k.row i) ∈ rows.toList.zip k.rows.toList := by
      rw [List.mem_iff_getElem]
      exact ⟨i, by simp, by simp [System.row, Vector.get]⟩
    exact hin _ hmem _ (h.row i)

/-- Moving rows puts every one of them in one place. -/
theorem movedRows_eq (rows : Vector Nat n) (ops : List (Operation Double n)) :
    ∃ f : Fin n → Fin n, Function.Injective f ∧
      ∀ i, (movedRows rows ops).get i = rows.get (f i) := by
  induction ops generalizing rows with
  | nil => exact ⟨id, Function.injective_id, fun _ => rfl⟩
  | cons op ops ih =>
    cases op with
    | swapRows i j =>
      obtain ⟨f, hf, hrows⟩ := ih (rows.swap i j)
      refine ⟨exchanged i j ∘ f, (exchanged_involutive i j).injective.comp hf, fun k => ?_⟩
      exact (hrows k).trans (get_swap rows i j (f k))
    | swapColumns | scale | addScaled => exact ih rows

/-- A system keeps its rows as they are moved about. -/
theorem Stores.moved (h : w.Stores number rows m) (ops : List (Operation Double n)) :
    ∃ m' : System Double n, m'.tolerance = m.tolerance ∧
      Stores { w with
        systems := w.systems.setIfInBounds number ⟨n, m.tolerance, movedRows rows ops⟩ }
        number (movedRows rows ops) m' := by
  obtain ⟨f, hf, hmoved⟩ := movedRows_eq rows ops
  refine ⟨⟨m.tolerance, Vector.ofFn fun i => m.row (f i)⟩, rfl,
    Array.getElem?_setIfInBounds_self_of_lt (Array.getElem?_eq_some_iff.mp h.system).1,
    fun i j hij => ?_, fun i => ?_⟩
  · rw [hmoved, hmoved] at hij
    exact hf (h.distinct hij)
  · have hrow : System.row ⟨m.tolerance, Vector.ofFn fun i => m.row (f i)⟩ i = m.row (f i) :=
      get_ofFn (fun i => m.row (f i)) i
    rw [hmoved, hrow]
    exact (h.row (f i)).congr rfl

/-- The system a run left is stored in the rows of the system it began with. -/
theorem storeRun_ok (h : w.Stores number rows m) {run : Reduction Double n} (hrun : run.Intact m) :
    ∃ all systems next rows',
      storeRun number ⟨n, m.tolerance, rows⟩ run w =
        .ok () { w with rows := all, systems := systems, nextIdentity := next } ∧
      Stores { w with rows := all, systems := systems, nextIdentity := next } number rows'
        run.system := by
  by_cases hnotes : run.notes.isEmpty = true
  · have hsize : run.notes.size = 0 := by simpa [Array.isEmpty_iff_size_eq_zero] using hnotes
    refine ⟨w.rows, w.systems, w.nextIdentity, rows, ?_, ?_⟩
    · rw [storeRun, if_pos hnotes]
      rfl
    · rw [hrun.system hsize]
      exact h
  · obtain ⟨m', htol, hmoved⟩ := h.moved (run.operations.toList.map (·.1))
    obtain ⟨all, next, hstore, hstores⟩ := forM_setRow_ok hmoved (hrun.tolerance.trans htol.symm)
    refine ⟨all, _, next, _, ?_, hstores.congr rfl rfl⟩
    rw [storeRun, if_neg hnotes]
    exact hstore

/-- The answers to a number of calls, one after the other, whatever comes of each. -/
def calls {β : Type} (x : Action β) : Nat → Workspace → List (Except Fault β) × Workspace
  | 0, w => ([], w)
  | count + 1, w =>
    match x w with
    | .ok b w' => (.ok b :: (calls x count w').1, (calls x count w').2)
    | .error e w' => (.error e :: (calls x count w').1, (calls x count w').2)

variable {name system : String} {verify : Bool} {verifyTolerance : Double}

/-- Under the name is a run over the system of that number, which has not been started. -/
structure Prepared (w : Workspace) (name : String) (number : Nat) (rows : Vector Nat n)
    (m : System Double n) (verify : Bool) (verifyTolerance : Double) (place history : Nat) :
    Prop where
  name : Json.find? name w.attemptNames = some place
  attempt : w.attempts[place]? =
    some { system := number, original := ⟨n, m⟩, verify, verifyTolerance, history }
  history : w.histories[history]? = some []
  stored : w.Stores number rows m

/-- Under the name is a run over the system of that number, which was started and left `run`. -/
structure Holds (w : Workspace) (name : String) (number : Nat) (run : Reduction Double n) :
    Prop where
  attempt : ∃ place attempt swaps, Json.find? name w.attemptNames = some place ∧
    w.attempts[place]? = some attempt ∧ attempt.started = true ∧
    attempt.stage = run.stage ∧ attempt.operations = run.operations.toList.map (·.2) ∧
    attempt.columnSwaps = run.columnSwaps ∧
    w.histories[attempt.history]? = some swaps ∧
    swaps.map some = run.history.map (ofRecorded number)
  stored : ∃ rows, w.Stores number rows run.system

theorem prepare_ok (hname : Json.find? system w.systemNames = some number)
    (hstores : w.Stores number rows m) (name : String) (verify : Bool) (verifyTolerance : Double) :
    ∃ w' place history, prepare name system verify verifyTolerance w = .ok () w' ∧
      w'.Prepared name number rows m verify verifyTolerance place history := by
  have hnumber : systemNumber system w = .ok number w := named_ok hname w
  let attempt : Attempt :=
    { system := number, original := ⟨n, m⟩, verify, verifyTolerance, history := w.histories.size }
  let w₁ : Workspace :=
    { w with histories := w.histories.push [], attempts := w.attempts.push attempt }
  have hadd : addAttempt number verify verifyTolerance w = .ok w.attempts.size w₁ := by
    rw [addAttempt, bind_of_ok hstores.systemAt_ok, bind_of_ok hstores.view_ok]
    rfl
  refine ⟨{ w₁ with attemptNames := Json.put name w.attempts.size w.attemptNames },
    w.attempts.size, w.histories.size, ?_, Json.find?_put_self _ _ _,
    Array.getElem?_push_size, Array.getElem?_push_size, hstores.congr rfl rfl⟩
  rw [prepare, bind_of_ok hnumber, bind_of_ok hadd]
  rfl

/-- A run that was started is refused, and nothing changes. -/
theorem Holds.refused {run : Reduction Double n} (h : w.Holds name number run) :
    runNamed name w = .error .alreadyRun w := by
  obtain ⟨place, attempt, _, hname, hattempt, hstarted, _⟩ := h.attempt
  have hplace : attemptNumber name w = .ok place w := named_ok hname w
  have hat : attemptAt place w = .ok attempt w := kept_ok hattempt w
  rw [runNamed, bind_of_ok hplace, runAttempt, bind_of_ok hat, if_pos hstarted]
  rfl

/-- After a run with a history of its own, the history holds what the run left in it. -/
theorem storeHistory_ok (attempt : Attempt) (after : List (Recorded n)) (w : Workspace) :
    storeHistory attempt [] after w = .ok () { w with
      histories := w.histories.setIfInBounds attempt.history
        (after.filterMap (ofRecorded attempt.system)) } := by
  simp only [storeHistory, List.length_nil, Nat.not_lt_zero, if_false, Nat.sub_zero,
    List.take_length, List.append_nil]
  rfl

/-- Every exchange of the run's own is one of the workspace. -/
theorem map_filterMap_ofRecorded {history : List (Recorded n)}
    (h : ∀ entry ∈ history, ∃ i j, entry = .own i j) (number : Nat) :
    (history.filterMap (ofRecorded number)).map some = history.map (ofRecorded number) := by
  induction history with
  | nil => rfl
  | cons entry rest ih =>
    obtain ⟨i, j, rfl⟩ := h entry (by simp)
    have hrest := ih fun entry hentry => h entry (List.mem_cons_of_mem _ hentry)
    have hown : ofRecorded number (.own i j) =
        some ⟨number, Operation.number i, Operation.number j⟩ := rfl
    rw [List.filterMap_cons_some hown, List.map_cons, List.map_cons, hrest, hown]

/-- An attempt once its run is over. -/
def afterRun (attempt : Attempt) (run : Reduction Double n) : Attempt :=
  { attempt with
    started := true
    stage := run.stage
    operations := run.operations.toList.map (·.2)
    columnSwaps := run.columnSwaps }

/-- The first call makes the run, keeps what it left and answers as the run does. -/
theorem Prepared.runNamed_eq {place history : Nat}
    (h : w.Prepared name number rows m verify verifyTolerance place history)
    {result : Except Fault (Report Double n)} {run : Reduction Double n}
    (hrun : m.solve verify verifyTolerance = (result, run)) :
    let attempt : Attempt :=
      { system := number, original := ⟨n, m⟩, verify, verifyTolerance, history }
    runNamed name w = (do
      storeRun number ⟨n, m.tolerance, rows⟩ run
      storeHistory attempt [] run.history
      modify fun w => { w with
        log := w.log ++ run.log
        attempts := w.attempts.setIfInBounds place (afterRun attempt run) }
      return ⟨n, ← lift result⟩ : Action ((n : Nat) × Report Double n)) w := by
  intro attempt
  have hplace : attemptNumber name w = .ok place w := named_ok h.name w
  have hat : attemptAt place w = .ok attempt w := kept_ok h.attempt w
  have hhistory : historyAt history w = .ok [] w := kept_ok h.history w
  rw [runNamed, bind_of_ok hplace, runAttempt, bind_of_ok hat, if_neg Bool.false_ne_true]
  refine (bind_of_ok h.stored.systemAt_ok).trans ?_
  refine (bind_of_ok h.stored.view_ok).trans ((bind_of_ok hhistory).trans ?_)
  rw [dif_pos rfl]
  dsimp only
  split
  · rename_i report s hsolve
    obtain ⟨rfl, rfl⟩ := Prod.mk.inj ((System.solve_ok.mpr hsolve).symm.trans hrun)
    rfl
  · rename_i e s hsolve
    obtain ⟨rfl, rfl⟩ := Prod.mk.inj ((System.solve_err.mpr hsolve).symm.trans hrun)
    rfl

/-- After the first call, the workspace holds what the run left. -/
theorem Prepared.run_ok {place history : Nat}
    (h : w.Prepared name number rows m verify verifyTolerance place history) :
    ∃ w₁, (runNamed name w = match (m.solve verify verifyTolerance).1 with
        | .ok report => .ok ⟨n, report⟩ w₁
        | .error e => .error e w₁) ∧
      w₁.Holds name number (m.solve verify verifyTolerance).2 := by
  obtain ⟨us, hpasses⟩ := m.solve_passes verify verifyTolerance
  have hintact := hpasses.invariant (I := Reduction.Intact m)
    (fun _ _ => Reduction.Advance.intact) (fun _ _ _ => Reduction.Halted.intact)
    ⟨rfl, fun _ => rfl⟩ _ hpasses.final_mem
  have howned := hpasses.invariant (I := Reduction.Owned) (fun _ _ => Reduction.Advance.owned)
    (fun _ _ _ => Reduction.Halted.owned) (fun _ h => nomatch h) _ hpasses.final_mem
  generalize hrun : m.solve verify verifyTolerance = outcome at *
  obtain ⟨result, run⟩ := outcome
  obtain ⟨all, systems, next, rows', hstore, hstores⟩ := storeRun_ok h.stored hintact
  let attempt : Attempt :=
    { system := number, original := ⟨n, m⟩, verify, verifyTolerance, history }
  let w₁ : Workspace := { w with
    rows := all
    systems := systems
    nextIdentity := next
    histories := w.histories.setIfInBounds history (run.history.filterMap (ofRecorded number))
    log := w.log ++ run.log
    attempts := w.attempts.setIfInBounds place (afterRun attempt run) }
  refine ⟨w₁, ?_, ⟨place, afterRun attempt run, _, h.name, ?_, rfl, rfl, rfl, rfl, ?_,
    map_filterMap_ofRecorded howned number⟩, rows', hstores.congr rfl rfl⟩
  · rw [h.runNamed_eq hrun, bind_of_ok hstore, bind_of_ok (storeHistory_ok _ _ _)]
    cases result with
    | ok report => rfl
    | error e => rfl
  · exact Array.getElem?_setIfInBounds_self_of_lt (Array.getElem?_eq_some_iff.mp h.attempt).1
  · exact Array.getElem?_setIfInBounds_self_of_lt (Array.getElem?_eq_some_iff.mp h.history).1

theorem calls_of_error {β : Type} {x : Action β} {e : Fault} (h : x w = .error e w)
    (count : Nat) : calls x count w = (List.replicate count (.error e), w) := by
  induction count with
  | zero => rfl
  | succ count ih =>
    rw [calls, h]
    dsimp only
    rw [ih]
    rfl

/-- The first call is answered by the run and every later one refused, which changes nothing. -/
theorem Prepared.calls_ok {place history : Nat}
    (h : w.Prepared name number rows m verify verifyTolerance place history) :
    ∃ w₁, w₁.Holds name number (m.solve verify verifyTolerance).2 ∧
      ∀ later, calls (runNamed name) (later + 1) w =
        ((m.solve verify verifyTolerance).1.map (⟨n, ·⟩) ::
          List.replicate later (.error .alreadyRun), w₁) := by
  obtain ⟨w₁, hcall, hholds⟩ := h.run_ok
  refine ⟨w₁, hholds, fun later => ?_⟩
  have hlater := calls_of_error hholds.refused later
  rw [calls, hcall]
  cases (m.solve verify verifyTolerance).1 with
  | ok report =>
    dsimp only [Except.map]
    rw [hlater]
  | error e =>
    dsimp only [Except.map]
    rw [hlater]

/-! ## The whole life -/

/-- A run is prepared over a system and called any number of times. The first call makes the run
and every later one is refused, with nothing changed.

In the run the stages follow one another as they may. In every state it passes through, the one in
which it raises included, the history of exchanges agrees with their count until they are taken
back. A run that returns ends in the stage of its answer, and its history is empty exactly if the
exchanges were taken back or there were none.

The states `us` are given by their steps. The last one, which the workspace holds, fixes them up to
what is logged in between and when a stage is entered: a step adds at most one operation to the
record and one note to the notes, and takes none away, and the stage at the end says which stages
there were. -/
theorem prepare_calls {w : Workspace} {system : String} {number : Nat} {rows : Vector Nat n}
    {m : System Double n} (hname : Json.find? system w.systemNames = some number)
    (hstores : w.Stores number rows m) (name : String) (verify : Bool) (verifyTolerance : Double) :
    ∃ w₀ w₁ us, ∃ (result : Except Fault (Report Double n)) (run : Reduction Double n),
      m.solve verify verifyTolerance = (result, run) ∧
      prepare name system verify verifyTolerance w = .ok () w₀ ∧
      (∀ later, calls (runNamed name) (later + 1) w₀ =
        (result.map (⟨n, ·⟩) :: List.replicate later (.error .alreadyRun), w₁)) ∧
      w₁.Holds name number run ∧
      Reduction.Passes { system := m } us result run ∧
      List.IsChain Reduction.Follows ({ system := m } :: us) ∧
      (∀ u ∈ ({ system := m } : Reduction Double n) :: us, u.Balanced) ∧
      ∀ report, result = .ok report → run.stage = some (.finished report.classification) ∧
        if report.classification = .solved then run.history = []
        else run.history.length = run.columnSwaps := by
  obtain ⟨w₀, place, history, hprepare, hprepared⟩ :=
    prepare_ok hname hstores name verify verifyTolerance
  obtain ⟨w₁, hholds, hcalls⟩ := hprepared.calls_ok
  obtain ⟨us, hpasses⟩ := m.solve_passes verify verifyTolerance
  have hbalanced := hpasses.invariant (I := Reduction.Balanced)
    (fun _ _ => Reduction.Advance.balanced) (fun _ _ _ => Reduction.Halted.balanced) rfl
  refine ⟨w₀, w₁, us, _, _, rfl, hprepare, hcalls, hholds, hpasses,
    hpasses.chain (fun _ _ => Reduction.Advance.follows) fun _ _ _ => Reduction.Halted.follows,
    hbalanced, fun report hreport => ?_⟩
  have hstage := (System.solve_concluded (Prod.ext hreport rfl)).stage
  have hlast := hbalanced _ hpasses.final_mem
  refine ⟨hstage, ?_⟩
  unfold Reduction.Balanced at hlast
  rw [hstage] at hlast
  cases hc : report.classification with
  | solved =>
    rw [hc] at hlast
    rw [if_pos rfl]
    exact hlast
  | noSolution | infiniteSolutions =>
    rw [hc] at hlast
    rw [if_neg (by decide)]
    exact hlast

def countingSystem : System Double 2 :=
  ⟨defaultTolerance, counting.map fun row => row.map (·.value)⟩

/-- The first of three calls returns a solution, and the run stays as it ended. -/
theorem prepare_calls_counting :
    ∃ (w : Workspace) (rows : Vector Nat 2),
      Json.find? "m" w.systemNames = some 0 ∧
      w.Stores 0 rows countingSystem ∧
      ∃ w₀ w₁, ∃ (report : Report Double 2) (run : Reduction Double 2),
        prepare "d" "m" true defaultVerifyTolerance w = .ok () w₀ ∧
        calls (runNamed "d") 3 w₀ =
          ([.ok ⟨2, report⟩, .error .alreadyRun, .error .alreadyRun], w₁) ∧
        report.classification = .solved ∧ w₁.Holds "d" 0 run ∧
        run.stage = some (.finished .solved) ∧ run.history = [] := by
  have hrun : Reduction.endsWith (Reduction.solve ⟨true, defaultVerifyTolerance, countingSystem⟩)
      { system := countingSystem } (fun report _ => report.classification == .solved) = true := by
    decide +kernel
  obtain ⟨report, run, hsolve, hr⟩ := Reduction.exists_of_endsWith hrun
  have hsolved : report.classification = .solved := eq_of_beq hr
  obtain ⟨rows, w, _, hname, hstores⟩ := addSystem_ok "m" ⟨2, counting⟩ defaultTolerance {}
  obtain ⟨w₀, w₁, _, result, run', hboth, hprepare, hcalls, hholds, _, _, _, hend⟩ :=
    prepare_calls hname hstores "d" true defaultVerifyTolerance
  obtain ⟨rfl, rfl⟩ := Prod.mk.inj (hboth.symm.trans (System.solve_ok.mpr hsolve))
  obtain ⟨hstage, hhistory⟩ := hend report rfl
  rw [hsolved] at hstage hhistory
  exact ⟨w, rows, hname, hstores, w₀, w₁, report, run', hprepare, hcalls 2, hsolved, hholds, hstage,
    hhistory⟩

end Workspace

end GaussJordan
