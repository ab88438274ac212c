import GaussJordan.Proofs.Rank
import GaussJordan.Proofs.Pictures

/-!
# GaussJordan.Proofs.Settled

Runs that change nothing, over any scalar type.

* `Idle x s b`: from `s` the computation gives `b` and at most narrates.
* `Settled m`: wherever the reduction looks at `m`, it finds nothing to do. The pivots are there,
  their inverses count as one, and every multiple to be subtracted counts as zero.

The solution of a settled system is found without an operation: it is the constant terms
(`solve_settled`).
-/

namespace GaussJordan

namespace Reduction

variable {α : Type} {n : Nat} {β γ : Type}

/-- From the state `s` the computation gives `b`, and it at most narrates. -/
def Idle (x : Run α n β) (s : Reduction α n) (b : β) : Prop := ∃ t, x s = .ok b t ∧ Agree s t

namespace Idle

variable {s : Reduction α n} {b : β} {c : γ}

theorem pure (b : β) (s : Reduction α n) : Idle (pure b : Run α n β) s b := ⟨s, rfl, .refl s⟩

theorem bind {x : Run α n β} {f : β → Run α n γ} (hx : Idle x s b)
    (hf : ∀ t, Agree s t → Idle (f b) t c) : Idle (x >>= f) s c := by
  obtain ⟨t, hx, ht⟩ := hx
  obtain ⟨u, hu, htu⟩ := hf t ht
  exact ⟨u, bind_ok.mpr ⟨b, t, hx, hu⟩, ht.trans htu⟩

/-- The result may depend on the state that the first part ends in. -/
theorem bind_exists {P : γ → Prop} {x : Run α n β} {f : β → Run α n γ} (hx : Idle x s b)
    (hf : ∀ t, Agree s t → ∃ c, Idle (f b) t c ∧ P c) : ∃ c, Idle (x >>= f) s c ∧ P c := by
  obtain ⟨t, hx, ht⟩ := hx
  obtain ⟨c, ⟨u, hu, htu⟩, hc⟩ := hf t ht
  exact ⟨c, ⟨u, bind_ok.mpr ⟨b, t, hx, hu⟩, ht.trans htu⟩, hc⟩

theorem get_bind {f : Reduction α n → Run α n γ} (hf : Idle (f s) s c) : Idle (get >>= f) s c := by
  obtain ⟨t, ht, hst⟩ := hf
  exact ⟨t, bind_ok.mpr ⟨s, s, rfl, ht⟩, hst⟩

theorem lift_bind {x : Except Fault β} {f : β → Run α n γ} (hx : x = .ok b) (hf : Idle (f b) s c) :
    Idle (lift x >>= f) s c := by
  obtain ⟨t, ht, hst⟩ := hf
  exact ⟨t, bind_ok.mpr ⟨b, s, lift_ok.mpr ⟨hx, rfl⟩, ht⟩, hst⟩

theorem get (s : Reduction α n) : Idle (get : Run α n (Reduction α n)) s s := ⟨s, rfl, .refl s⟩

theorem lift {x : Except Fault β} (hx : x = .ok b) (s : Reduction α n) : Idle (lift x) s b :=
  ⟨s, lift_ok.mpr ⟨hx, rfl⟩, .refl s⟩

theorem emit (level : Level) (source : Source) (text : String) (s : Reduction α n) :
    Idle (emit level source text) s () :=
  ⟨_, rfl, rfl, rfl, rfl, rfl⟩

theorem enter (stage : Stage) (s : Reduction α n) : Idle (enter stage) s () :=
  ⟨_, rfl, rfl, rfl, rfl, rfl⟩

theorem forM {f : β → Run α n Unit} (xs : List β)
    (hf : ∀ x ∈ xs, ∀ t, Agree s t → Idle (f x) t ()) : Idle (xs.forM f) s () := by
  induction xs generalizing s with
  | nil => exact Idle.pure () s
  | cons x xs ih =>
    refine Idle.bind (hf x (by simp) s (.refl s)) fun t ht => ih fun y hy u hu => ?_
    exact hf y (by simp [hy]) u (ht.trans hu)

end Idle

/-- The report gives the constant terms of `m` as the solution and lists the operations of `s`. -/
structure Reads (m : System α n) (s : Reduction α n) (report : Report α n) : Prop where
  classification : report.classification = .solved
  solution : report.solution = some m.constants
  operations : report.operations = s.operations.toList.map (·.2)

theorem Reads.of_agree {m : System α n} {s t : Reduction α n} {report : Report α n}
    (h : Agree s t) (ht : Reads m t report) : Reads m s report :=
  ⟨ht.classification, ht.solution, by rw [ht.operations, h.operations]⟩

end Reduction

variable {α : Type} [Scalar α] {n : Nat}

namespace System

/-- Wherever the reduction looks at the system, it finds nothing to do. -/
structure Settled (m : System α n) : Prop where
  picture : ∃ picture, m.text = .ok picture
  values : ∃ values, m.constants.toList.mapM Complex.text = .ok values
  nonzero : ∀ i, m.isZeroAt i i = false
  pivot : ∀ i, ∃ factor, (m.coefficient i i).inverse = .ok factor ∧
    factor.isOne m.tolerance = true
  below : ∀ i j, j < i → ∃ q, (m.coefficient i j).div (m.coefficient j j) = .ok q ∧
    (-q).isZero m.tolerance = true
  above : ∀ i j, i < j → (-(m.coefficient i j)).isZero m.tolerance = true

namespace Settled

variable {m : System α n}

theorem counts (h : m.Settled) (i : Fin n) : m.counts i = true :=
  counts_iff.mpr ⟨i, h.nonzero i⟩

theorem findFirstRow {n : Nat} {m : System α (n + 1)} (h : m.Settled) :
    m.findFirstRow = some 0 := by
  have hrow : m.findRow 0 0 = some 0 := by
    rw [findRow, List.finRange_succ, List.find?_cons_of_pos]
    simp [h.nonzero 0]
  rw [System.findFirstRow, List.finRange_succ, List.findSome?_cons, hrow]

end Settled

end System

namespace Reduction

variable {m : System α n} {s : Reduction α n}

/-! ## The parts of a run over a settled system -/

theorem note_idle (hs : s.system = m) (h : m.Settled) (description explanation : String) :
    Idle (note description explanation) s () := by
  obtain ⟨picture, hp⟩ := h.picture
  refine Idle.get_bind (Idle.lift_bind (b := picture) ?_ ⟨_, rfl, rfl, rfl, rfl, rfl⟩)
  rw [hs, hp]

theorem announce_idle (hs : s.system = m) (h : m.Settled)
    (heading description explanation : String) :
    Idle (announce heading description explanation) s () := by
  obtain ⟨picture, hp⟩ := h.picture
  refine Idle.get_bind (Idle.lift_bind (b := picture) (by rw [hs, hp]) ?_)
  exact (Idle.emit _ _ _ s).bind fun t ht => note_idle (ht.system.trans hs) h _ _

theorem findPivot_idle (hs : s.system = m) (h : m.Settled) (pivot : Fin n) :
    Idle (findPivot pivot) s true := by
  refine Idle.get_bind ?_
  dsimp only
  rw [hs, h.nonzero pivot]
  exact Idle.pure true s

theorem normalize_idle (hs : s.system = m) (h : m.Settled) (pivot : Fin n) :
    Idle (normalize pivot) s () := by
  obtain ⟨factor, hinverse, hone⟩ := h.pivot pivot
  refine Idle.get_bind (Idle.lift_bind (b := factor) (by rw [hs, hinverse]) ?_)
  rw [hs, if_pos hone]
  exact Idle.pure () s

theorem eliminateRow_idle (hs : s.system = m) (h : m.Settled) {pivot row : Fin n}
    (hlt : pivot < row) :
    Idle (eliminateRow (m.coefficient pivot pivot) pivot row) s () := by
  obtain ⟨q, hq, hzero⟩ := h.below row pivot hlt
  refine Idle.get_bind (Idle.lift_bind (b := q) (by rw [hs, hq]) ?_)
  dsimp only
  rw [hs, if_pos hzero]
  exact Idle.pure () s

theorem eliminateBelow_idle (hs : s.system = m) (h : m.Settled) (pivot : Fin n) :
    Idle (eliminateBelow pivot) s () := by
  refine Idle.get_bind (Idle.forM _ fun row hrow t ht => ?_)
  rw [hs]
  exact eliminateRow_idle (ht.system.trans hs) h (mem_rowsBelow.mp hrow)

theorem placePivots_idle (hs : s.system = m) (h : m.Settled) (pivots : List (Fin n)) :
    Idle (placePivots pivots) s pivots.length := by
  induction pivots generalizing s with
  | nil => exact Idle.pure 0 s
  | cons pivot rest ih =>
    refine (findPivot_idle hs h pivot).bind fun t ht => ?_
    rw [if_pos rfl]
    have hsys := ht.system.trans hs
    refine (normalize_idle hsys h pivot).bind fun u hu => ?_
    have hsys := hu.system.trans hsys
    refine (eliminateBelow_idle hsys h pivot).bind fun v hv => ?_
    exact (ih (hv.system.trans hsys)).bind fun w _ => Idle.pure _ w

theorem reachEchelon_idle {n : Nat} {m : System α (n + 1)} {s : Reduction α (n + 1)}
    (hs : s.system = m) (h : m.Settled) : Idle reachEchelon s (some (n + 1)) := by
  refine (announce_idle hs h _ _ _).bind fun t ht => Idle.get_bind ?_
  have hsys := ht.system.trans hs
  rw [hsys, h.findFirstRow]
  refine Idle.bind (b := ()) (Idle.pure () t) fun u hu => ?_
  have hsys := hu.system.trans hsys
  refine (Idle.emit _ _ _ u).bind fun v hv => ?_
  have hsys := hv.system.trans hsys
  have hforward : Idle forwardEliminate v (n + 1) := by
    refine (Idle.enter _ v).bind fun w hw => ?_
    have hplaced := placePivots_idle (hw.system.trans hsys) h (List.finRange (n + 1))
    rwa [List.length_finRange] at hplaced
  refine hforward.bind fun w hw => ?_
  exact (announce_idle (hw.system.trans hsys) h _ _ _).bind fun x _ => Idle.pure _ x

theorem reduceRow_idle (hs : s.system = m) (h : m.Settled) {column row : Fin n}
    (hlt : row < column) : Idle (reduceRow column row) s () := by
  refine Idle.get_bind ?_
  dsimp only
  rw [hs, if_pos (h.above row column hlt)]
  exact Idle.pure () s

theorem backReduce_idle (hs : s.system = m) (h : m.Settled) : Idle backReduce s () := by
  refine (Idle.enter _ s).bind fun t ht => ?_
  refine Idle.forM _ fun column _ u hu => Idle.forM _ fun row hrow v hv => ?_
  refine reduceRow_idle ?_ h ?_
  · rw [hv.system, hu.system, ht.system, hs]
  · simpa [rowsAbove] using hrow

/-! ## The whole run -/

variable {check : Check α n}

/-- Without a check of the solution nothing is left to be done at the end. -/
theorem finish_idle (hcheck : check.enabled = false) (h : m.Settled) :
    ∃ report, Idle (finish check .solved (some m.constants) 0) s report ∧ Reads m s report := by
  obtain ⟨values, hvalues⟩ := h.values
  refine (Idle.enter _ s).bind_exists fun t ht => ?_
  have hanswer : answerText .solved (some m.constants) = .ok ("\n".intercalate values) := by
    rw [answerText, hvalues]
    rfl
  have hskip : validate check (some m.constants) = (pure ([], .skipped) : Run α n _) := by
    rw [validate, hcheck]
    rfl
  rw [hanswer, hskip]
  refine ⟨_, ⟨t, rfl, .refl t⟩, rfl, rfl, ?_⟩
  rw [← ht.operations]

theorem completeSolution_idle (hcheck : check.enabled = false) (hs : s.system = m)
    (hhistory : s.history = []) (h : m.Settled) :
    ∃ report, Idle (completeSolution check) s report ∧ Reads m s report := by
  obtain ⟨values, hvalues⟩ := h.values
  refine (Idle.enter _ s).bind_exists fun s₁ h₁ => (Idle.get s₁).bind_exists fun s₂ h₂ => ?_
  rw [h₁.history, hhistory]
  have h₂ := h₁.trans h₂
  refine (Idle.pure () s₂).bind_exists fun s₃ h₃ => (Idle.emit _ _ _ s₃).bind_exists fun s₄ h₄ => ?_
  have h₄ := (h₂.trans h₃).trans h₄
  refine (backReduce_idle (h₄.system.trans hs) h).bind_exists fun s₅ h₅ => ?_
  have h₅ := h₄.trans h₅
  refine (announce_idle (h₅.system.trans hs) h _ _ _).bind_exists fun s₆ h₆ => ?_
  have h₆ := h₅.trans h₆
  refine (Idle.get s₆).bind_exists fun s₇ h₇ => ?_
  rw [h₆.system, hs]
  refine (Idle.lift hvalues s₇).bind_exists fun s₈ h₈ => ?_
  refine (Idle.emit _ _ _ s₈).bind_exists fun s₉ h₉ => ?_
  obtain ⟨report, hfinish, hreads⟩ := finish_idle (s := s₉) hcheck h
  exact ⟨report, hfinish, hreads.of_agree (((h₆.trans h₇).trans h₈).trans h₉)⟩

theorem classify_idle (hcheck : check.enabled = false) (hs : s.system = m)
    (hhistory : s.history = []) (h : m.Settled) :
    ∃ report, Idle (classify check) s report ∧ Reads m s report := by
  refine (Idle.get s).bind_exists fun t ht => ?_
  have hrank : m.freeVariables = 0 := by
    rw [System.freeVariables, System.rank_eq_size_iff.mpr h.counts, Nat.sub_self]
  rw [hs]
  dsimp only
  rw [System.isInconsistent_of_counts h.counts, hrank]
  obtain ⟨report, hidle, hreads⟩ :=
    completeSolution_idle hcheck (ht.system.trans hs) (ht.history.trans hhistory) h
  exact ⟨report, hidle, hreads.of_agree ht⟩

end Reduction

/-- Without a check of the solution, a settled system is solved without an operation. The solution
is its constant terms, and the system stays as it is. -/
theorem System.solve_settled {m : System α n} (hn : 0 < n) (h : m.Settled) (verifyTolerance : α) :
    ∃ report t, m.solve false verifyTolerance = (.ok report, t) ∧
      report.classification = .solved ∧ report.solution = some m.constants ∧
      report.operations = [] ∧ t.system = m := by
  obtain ⟨n, rfl⟩ := Nat.exists_eq_succ_of_ne_zero (Nat.ne_of_gt hn)
  let check : Reduction.Check α (n + 1) := ⟨false, verifyTolerance, m⟩
  have hcheck : check.enabled = false := rfl
  have hsolve : ∃ report, Reduction.Idle (Reduction.solve check) { system := m } report ∧
      Reduction.Reads m { system := m } report := by
    refine (Reduction.reachEchelon_idle rfl h).bind_exists fun s hs => ?_
    obtain ⟨report, hidle, hreads⟩ := Reduction.classify_idle hcheck hs.system hs.history h
    exact ⟨report, hidle, hreads.of_agree hs⟩
  obtain ⟨report, ⟨t, hrun, ht⟩, hreads⟩ := hsolve
  exact ⟨report, t, System.solve_ok.mpr hrun, hreads.classification, hreads.solution,
    hreads.operations, ht.system⟩

end GaussJordan
