import GaussJordan.Proofs.Outcome
import GaussJordan.Proofs.Pictures
import GaussJordan.Proofs.Texts

/-!
# GaussJordan.Proofs.Faults

Where a run can end in a fault and why, over any scalar type.

* `bind_err`, `lift_err`, …: a computation ended in a fault exactly if one of its parts did, after
  the parts before it ended well.
* `Blocked tol e t`: the causes in the reduction itself. A picture or a factor cannot be written, or
  a division by a pivot fails; the system was written before, and the pivot is one or not zero
  within the tolerance.
* `Stopped check m e t`: the causes in a whole run. Of those after the reduction, only the check
  depends on more than the text of a value.

That a search for a pivot row comes back empty after a column was brought in is not among the
causes: the column found has a nonzero term where the search for a row looks (`bringPivot_err`).
-/

namespace GaussJordan

deriving instance DecidableEq for Malformed, Fault

namespace Reduction

variable {α : Type} {n : Nat} {β γ : Type}

/-! ## Parts of a computation -/

theorem bind_err {x : Run α n β} {f : β → Run α n γ} {s t : Reduction α n} {e : Fault} :
    (x >>= f) s = .error e t ↔
      x s = .error e t ∨ ∃ b u, x s = .ok b u ∧ f b u = .error e t := by
  simp only [bind, EStateM.bind]
  cases h : x s with
  | ok b u =>
    constructor
    · intro hf
      exact .inr ⟨b, u, rfl, hf⟩
    · rintro (hx | ⟨b', u', hx, hf⟩)
      · cases hx
      · cases hx
        exact hf
  | error e' u => simp

theorem bind_of_ok {x : Run α n β} {f : β → Run α n γ} {s t : Reduction α n} {b : β}
    (h : x s = .ok b t) : (x >>= f) s = f b t := by
  simp only [bind, EStateM.bind, h]

theorem pure_err {b : β} {s t : Reduction α n} {e : Fault} :
    (pure b : Run α n β) s = .error e t ↔ False := by
  change EStateM.Result.ok b s = .error e t ↔ _
  simp

theorem get_err {s t : Reduction α n} {e : Fault} :
    (get : Run α n (Reduction α n)) s = .error e t ↔ False := by
  change EStateM.Result.ok s s = .error e t ↔ _
  simp

theorem modify_err {f : Reduction α n → Reduction α n} {s t : Reduction α n} {e : Fault} :
    (modify f : Run α n PUnit) s = .error e t ↔ False := by
  change EStateM.Result.ok PUnit.unit (f s) = .error e t ↔ _
  simp

theorem throw_err {fault : Fault} {s t : Reduction α n} {e : Fault} :
    (throw fault : Run α n β) s = .error e t ↔ fault = e ∧ s = t := by
  change EStateM.Result.error fault s = .error e t ↔ _
  simp

theorem lift_err {x : Except Fault β} {s t : Reduction α n} {e : Fault} :
    (lift x : Run α n β) s = .error e t ↔ x = .error e ∧ s = t := by
  cases x with
  | ok a => simp [lift, pure_err]
  | error e' => simp [lift, throw_err]

theorem emit_err {level : Level} {source : Source} {text : String} {s t : Reduction α n}
    {e : Fault} : emit level source text s = .error e t ↔ False :=
  modify_err

theorem enter_err {stage : Stage} {s t : Reduction α n} {e : Fault} :
    enter stage s = .error e t ↔ False :=
  modify_err

/-- A pass over a list ends in a fault in one of its turns. Whatever the turns before it kept still
holds there. -/
theorem forM_err {f : β → Run α n Unit} {I : Reduction α n → Prop} (xs : List β)
    (hf : ∀ x ∈ xs, ∀ u v, f x u = .ok () v → I u → I v) {e : Fault} {t : Reduction α n} :
    ∀ s, I s → xs.forM f s = .error e t → ∃ x ∈ xs, ∃ u, I u ∧ f x u = .error e t := by
  induction xs with
  | nil =>
    intro s _ h
    exact (pure_err.mp h).elim
  | cons x xs ih =>
    intro s hs h
    rcases bind_err.mp h with hx | ⟨_, u, hx, hrest⟩
    · exact ⟨x, by simp, s, hs, hx⟩
    · obtain ⟨y, hy, v, hv, hfault⟩ := ih (fun y hy => hf y (by simp [hy])) u
        (hf x (by simp) s u hx hs) hrest
      exact ⟨y, by simp [hy], v, hv, hfault⟩

theorem undoSwaps_err {entries : List (Recorded n)} {s t : Reduction α n} {e : Fault} :
    ¬undoSwaps entries s = .error e t := by
  induction entries generalizing s with
  | nil => exact pure_err.mp
  | cons entry rest ih =>
    intro h
    simp only [undoSwaps, bind_err, modify_err, emit_err, false_or] at h
    obtain ⟨_, _, _, _, _, _, h⟩ := h
    exact ih h

/-- The fault in which a computation ends, if it does. -/
def faultOf (x : Run α n β) (s : Reduction α n) : Option Fault :=
  match x s with
  | .ok _ _ => none
  | .error e _ => some e

theorem faultOf_eq_some {x : Run α n β} {s : Reduction α n} {e : Fault}
    (h : faultOf x s = some e) : ∃ t, x s = .error e t := by
  rw [faultOf] at h
  split at h
  · cases h
  · rename_i t hx
    cases h
    exact ⟨t, hx⟩

variable [Scalar α]

/-! ## The causes -/

/-- The tolerance is the given one and the system can be written. -/
structure Written (tol : α) (s : Reduction α n) : Prop where
  tolerance : s.system.tolerance = tol
  picture : ∃ picture, s.system.text = .ok picture

theorem Written.narrated {tol : α} (op : Operation α n) (s t : Reduction α n)
    (h : Narrated op s t) (hs : Written tol s) : Written tol t := by
  obtain ⟨_, _, _, hp⟩ := h.note
  refine ⟨?_, _, hp⟩
  rw [h.system, Operation.tolerance_apply, hs.tolerance]

/-- The reduction cannot go on: something cannot be written, or a division by a pivot fails. -/
inductive Blocked (tol : α) (e : Fault) (t : Reduction α n) : Prop where
  | picture : t.system.text = .error e → Blocked tol e t
  /-- The factor of the operation that was just carried out has no text. -/
  | factor {m : System α n} {op : Operation α n} : t.system = op.apply m → op.text = .error e →
      Blocked tol e t
  | inverse {pivot : Fin n} : Written tol t →
      (t.system.coefficient pivot pivot).isZero tol = false →
      (t.system.coefficient pivot pivot).inverse = .error e → Blocked tol e t
  | quotient {pivot row : Fin n} : Written tol t →
      t.system.coefficient pivot pivot = .one ∨
        (t.system.coefficient pivot pivot).isZero tol = false →
      (t.system.coefficient row pivot).div (t.system.coefficient pivot pivot) = .error e →
      Blocked tol e t

/-- The run over `m` cannot go on. Without a nonzero coefficient the system or the sum of its
constant terms cannot be written. Otherwise the reduction is blocked, the solution cannot be
written, or the check of the solution fails to give a verdict. -/
inductive Stopped (check : Check α n) (m : System α n) (e : Fault) (t : Reduction α n) : Prop where
  | picture : t.system = m → m.text = .error e → Stopped check m e t
  | sum : t.system = m → m.findFirstRow = none → m.sumOfConstants.text = .error e →
      Stopped check m e t
  | blocked : m.findFirstRow ≠ none → Blocked m.tolerance e t → Stopped check m e t
  | answer : m.findFirstRow ≠ none → t.system.constants.toList.mapM Complex.text = .error e →
      Stopped check m e t
  | verdict {x : Vector (Complex α) n} : m.findFirstRow ≠ none → check.enabled = true →
      check.original.verify check.tolerance x = .error e → Stopped check m e t

variable {s t : Reduction α n} {e : Fault} {tol : α}

/-! ## Narration and operations -/

theorem note_err {description explanation : String}
    (h : note description explanation s = .error e t) : s.system.text = .error e ∧ t = s := by
  simp only [note, bind_err, get_err, get_ok, lift_err, modify_err, and_false, exists_false,
    false_or, or_false] at h
  obtain ⟨_, _, ⟨rfl, rfl⟩, h, rfl⟩ := h
  exact ⟨h, rfl⟩

theorem announce_err {heading description explanation : String}
    (h : announce heading description explanation s = .error e t) :
    s.system.text = .error e ∧ t.system = s.system := by
  simp only [announce, inform, bind_err, get_err, get_ok, lift_err, lift_ok, emit_err,
    false_or] at h
  obtain ⟨_, _, ⟨rfl, rfl⟩, ⟨h, rfl⟩ | ⟨_, _, ⟨_, rfl⟩, _, _, he, h⟩⟩ := h
  · exact ⟨h, rfl⟩
  · have ha := emit_ok he
    obtain ⟨hp, rfl⟩ := note_err h
    exact ⟨ha.system ▸ hp, ha.system⟩

theorem perform_err {op : Operation α n} {explanation : String}
    (h : perform op explanation s = .error e t) : Blocked tol e t := by
  rw [perform_eq] at h
  split at h
  · obtain ⟨hp, rfl⟩ := note_err h
    exact .picture hp
  · rename_i htext
    cases h
    exact .factor rfl htext

/-! ## Forward elimination -/

/-- An exchange can be written, so it stops only at the picture. -/
theorem exchange_err {op : Operation α n} (hop : op.factor? = none) {explanation : String}
    (h : perform op explanation s = .error e t) : t.system.text = .error e := by
  rw [perform_eq] at h
  split at h
  · obtain ⟨hp, rfl⟩ := note_err h
    exact hp
  · rename_i htext
    obtain ⟨_, hfactor, _⟩ := Operation.text_err htext
    rw [hop] at hfactor
    cases hfactor

theorem bringPivot_err {pivot : Fin n} (h : bringPivot pivot s = .error e t) :
    t.system.text = .error e := by
  simp only [bringPivot, bind_err, get_err, get_ok, false_or] at h
  obtain ⟨_, _, ⟨rfl, rfl⟩, h⟩ := h
  cases hrow : s.system.findRow pivot pivot with
  | some row =>
    simp only [hrow, bind_err, pure_err, and_false, exists_false, or_false] at h
    exact exchange_err rfl h
  | none =>
    cases hcol : s.system.findColumn (pivot + 1) pivot with
    | none =>
      simp only [hrow, hcol, pure_err] at h
    | some column =>
      simp only [hrow, hcol, bind_err, get_err, get_ok, false_or] at h
      rcases h with h | ⟨_, u, hu, _, _, ⟨rfl, rfl⟩, h⟩
      · exact exchange_err rfl h
      · split at h
        · cases hrow' : u.system.findRow pivot pivot with
          | some row =>
            simp only [hrow', bind_err, pure_err, and_false, exists_false, or_false] at h
            exact exchange_err rfl h
          | none =>
            -- the column found has a nonzero term, and it is the pivot's column now
            exfalso
            obtain ⟨_, i, hi, hz⟩ := System.findColumn_eq_some hcol
            have hzero := System.findRow_eq_none.mp hrow' i hi
            rw [(perform_ok hu).system, Operation.apply, System.isZeroAt_swapColumns,
              exchanged_left, hz] at hzero
            cases hzero
        · exact (pure_err.mp h).elim

theorem findPivot_err {pivot : Fin n} (h : findPivot pivot s = .error e t) : Blocked tol e t := by
  simp only [findPivot, bind_err, get_err, get_ok, false_or] at h
  obtain ⟨_, _, ⟨rfl, rfl⟩, h⟩ := h
  split at h
  · exact .picture (bringPivot_err h)
  · exact (pure_err.mp h).elim

theorem normalize_err {pivot : Fin n} (hs : Written tol s)
    (hpivot : (s.system.coefficient pivot pivot).isZero tol = false)
    (h : normalize pivot s = .error e t) : Blocked tol e t := by
  simp only [normalize, bind_err, get_err, get_ok, lift_err, lift_ok, false_or] at h
  obtain ⟨_, _, ⟨rfl, rfl⟩, ⟨h, rfl⟩ | ⟨factor, _, ⟨_, rfl⟩, h⟩⟩ := h
  · exact .inverse hs hpivot h
  · split at h
    · exact (pure_err.mp h).elim
    · exact perform_err h

theorem eliminateRow_err {pivot row : Fin n} (hs : Written tol s)
    (hpivot : s.system.coefficient pivot pivot = .one ∨
      (s.system.coefficient pivot pivot).isZero tol = false)
    (h : eliminateRow (s.system.coefficient pivot pivot) pivot row s = .error e t) :
    Blocked tol e t := by
  simp only [eliminateRow, bind_err, get_err, get_ok, lift_err, lift_ok, false_or] at h
  obtain ⟨_, _, ⟨rfl, rfl⟩, ⟨h, rfl⟩ | ⟨q, _, ⟨_, rfl⟩, h⟩⟩ := h
  · exact .quotient hs hpivot h
  · split at h
    · exact (pure_err.mp h).elim
    · exact perform_err h

theorem eliminateBelow_err {pivot : Fin n} (hs : Written tol s)
    (hpivot : s.system.coefficient pivot pivot = .one ∨
      (s.system.coefficient pivot pivot).isZero tol = false)
    (h : eliminateBelow pivot s = .error e t) : Blocked tol e t := by
  simp only [eliminateBelow, bind_err, get_err, get_ok, false_or] at h
  obtain ⟨_, _, ⟨rfl, rfl⟩, h⟩ := h
  -- the divisor was read before the loop, so the loop has to keep the pivot's term
  have hkeep : ∀ row ∈ rowsBelow pivot, ∀ u v : Reduction α n,
      eliminateRow (s.system.coefficient pivot pivot) pivot row u = .ok () v →
      Written tol u ∧ u.system.coefficient pivot pivot = s.system.coefficient pivot pivot →
      Written tol v ∧ v.system.coefficient pivot pivot = s.system.coefficient pivot pivot := by
    rintro row hmem u v hrow ⟨hu, hsame⟩
    refine ⟨eliminateRow_keeps Written.narrated _ _ _ _ _ _ hrow hu, ?_⟩
    obtain ⟨_, _, hc⟩ := eliminateRow_ok hrow
    rw [← hsame, System.coefficient, System.term,
      hc.row_of_ne (Fin.ne_of_lt (mem_rowsBelow.mp hmem))]
    rfl
  obtain ⟨row, _, u, ⟨hu, hsame⟩, hrow⟩ := forM_err _ hkeep s ⟨hs, rfl⟩ h
  rw [← hsame] at hpivot hrow
  exact eliminateRow_err hu hpivot hrow

theorem placePivots_err (pivots : List (Fin n)) (hs : Written tol s)
    (h : placePivots pivots s = .error e t) : Blocked tol e t := by
  induction pivots generalizing s with
  | nil => exact (pure_err.mp h).elim
  | cons pivot rest ih =>
    rcases bind_err.mp h with hfind | ⟨found, s₁, hfind, h⟩
    · exact findPivot_err hfind
    have hs₁ := findPivot_keeps Written.narrated pivot _ _ _ hfind hs
    rcases findPivot_ok hfind with ⟨rfl, hfound⟩ | ⟨rfl, _⟩
    · have hnonzero := hfound.nonzero
      rw [System.isZeroAt, hs₁.tolerance] at hnonzero
      rcases bind_err.mp h with hnorm | ⟨_, s₂, hnorm, h⟩
      · exact normalize_err hs₁ hnonzero hnorm
      have hs₂ := normalize_keeps Written.narrated pivot _ _ _ hnorm hs₁
      rcases bind_err.mp h with hbelow | ⟨_, s₃, hbelow, h⟩
      · refine eliminateBelow_err hs₂ ?_ hbelow
        rw [← hs₂.tolerance]
        exact normalize_pivot hfound.nonzero hnorm
      have hs₃ := eliminateBelow_keeps Written.narrated pivot _ _ _ hbelow hs₂
      rcases bind_err.mp h with hrest | ⟨_, _, _, h⟩
      · exact ih hs₃ hrest
      · exact (pure_err.mp h).elim
    · exact (pure_err.mp h).elim

theorem leadWith_err {row : Fin n} (h : leadWith row s = .error e t) : Blocked tol e t := by
  simp only [leadWith] at h
  split at h
  · exact perform_err h
  · exact (pure_err.mp h).elim

theorem reachEchelon_err (h : reachEchelon s = .error e t) :
    (t.system = s.system ∧ s.system.text = .error e) ∨
      (s.system.findFirstRow ≠ none ∧ Blocked s.system.tolerance e t) := by
  simp only [reachEchelon, bind_err, get_err, get_ok, false_or] at h
  rcases h with ha | ⟨_, s₁, ha, _, _, ⟨rfl, rfl⟩, h⟩
  · obtain ⟨hp, hsys⟩ := announce_err ha
    exact .inl ⟨hsys, hp⟩
  obtain ⟨picture, hp, hsys, _⟩ := announce_pictured ha
  have hs₁ : Written s.system.tolerance s₁ := by
    rw [← hsys] at hp
    exact ⟨by rw [hsys], picture, hp⟩
  cases hrow : s₁.system.findFirstRow with
  | none =>
    simp only [hrow, pure_err] at h
  | some row =>
    refine .inr ⟨by simp [← hsys, hrow], ?_⟩
    simp only [hrow, forwardEliminate, bind_err, bind_ok, inform, emit_err, enter_err, pure_err,
      and_false, exists_false, or_false, false_or] at h
    rcases h with hlead | ⟨_, s₂, hlead, _, s₃, hinf, h⟩
    · exact leadWith_err hlead
    have hs₂ := leadWith_keeps Written.narrated row _ _ _ hlead hs₁
    have hs₃ := (emit_ok hinf).system
    rcases h with ⟨_, s₄, hent, hplace⟩ | ⟨k, s₅, ⟨_, s₄, hent, hplace⟩, hann⟩
    · have hs₄ := (enter_ok hent).system.trans hs₃
      refine placePivots_err _ ⟨?_, ?_⟩ hplace
      · rw [hs₄, hs₂.tolerance]
      · rw [hs₄]
        exact hs₂.picture
    · obtain ⟨hp, hsys⟩ := announce_err hann
      exact .picture (hsys ▸ hp)

/-! ## From row echelon form to the report -/

theorem reduceRow_err {column row : Fin n} (h : reduceRow column row s = .error e t) :
    Blocked tol e t := by
  simp only [reduceRow, bind_err, get_err, get_ok, false_or] at h
  obtain ⟨_, _, ⟨rfl, rfl⟩, h⟩ := h
  split at h
  · exact (pure_err.mp h).elim
  · exact perform_err h

theorem backReduce_err (h : backReduce s = .error e t) : Blocked tol e t := by
  simp only [backReduce, bind_err, enter_err, false_or] at h
  obtain ⟨_, u, _, h⟩ := h
  obtain ⟨column, _, v, _, hcol⟩ := forM_err (I := fun _ => True) _ (by simp) u trivial h
  obtain ⟨row, _, w, _, hrow⟩ := forM_err (I := fun _ => True) _ (by simp) v trivial hcol
  exact reduceRow_err hrow

variable {check : Check α n} {m : System α n}

theorem answerText_err {classification : Classification} {solution : Option (Vector (Complex α) n)}
    (h : answerText classification solution = .error e) :
    ∃ x, solution = some x ∧ x.toList.mapM Complex.text = .error e := by
  unfold answerText at h
  split at h
  · rename_i x
    cases hx : x.toList.mapM Complex.text with
    | ok ts =>
      rw [hx] at h
      cases h
    | error e' =>
      rw [hx] at h
      cases h
      exact ⟨x, rfl, hx⟩
  · cases h
  · cases h

theorem validate_err {solution : Option (Vector (Complex α) n)}
    (h : validate check solution s = .error e t) :
    ∃ x, solution = some x ∧ check.enabled = true ∧
      check.original.verify check.tolerance x = .error e ∧ t = s := by
  cases solution with
  | none => exact (pure_err.mp h).elim
  | some x =>
    simp only [validate] at h
    split at h
    · rename_i henabled
      simp only [bind_err, lift_err, lift_ok] at h
      rcases h with ⟨h, rfl⟩ | ⟨verdict, _, _, h⟩
      · exact ⟨x, rfl, henabled, h, rfl⟩
      · split at h
        · exact (pure_err.mp h).elim
        · simp only [bind_err, emit_err, pure_err, and_false, exists_false, or_false] at h
    · exact (pure_err.mp h).elim

/-- A report can fail to be made only if there is a solution. -/
theorem finish_err {classification : Classification} {solution : Option (Vector (Complex α) n)}
    {free : Nat} (h : finish check classification solution free s = .error e t) :
    ∃ x, solution = some x ∧
      ((t.system = s.system ∧ x.toList.mapM Complex.text = .error e) ∨
        (check.enabled = true ∧ check.original.verify check.tolerance x = .error e)) := by
  simp only [finish, bind_err, enter_err, get_err, lift_err, lift_ok, pure_err, and_false,
    exists_false, or_false, false_or] at h
  obtain ⟨_, s₁, henter, ⟨h, rfl⟩ | ⟨_, _, _, h⟩⟩ := h
  · obtain ⟨x, hx, hmap⟩ := answerText_err h
    exact ⟨x, hx, .inl ⟨(enter_ok henter).system, hmap⟩⟩
  · obtain ⟨x, hx, henabled, hv, _⟩ := validate_err h
    exact ⟨x, hx, .inr ⟨henabled, hv⟩⟩

theorem finish_none_err {classification : Classification} {free : Nat} :
    ¬finish check classification none free s = .error e t := by
  intro h
  obtain ⟨_, hx, _⟩ := finish_err h
  cases hx

theorem classifyDegenerate_err (h : classifyDegenerate check s = .error e t) :
    t.system = s.system ∧
      (s.system.text = .error e ∨ s.system.sumOfConstants.text = .error e) := by
  simp only [classifyDegenerate, bind_err, enter_err, get_err, get_ok, lift_err, lift_ok,
    false_or] at h
  obtain ⟨_, s₁, henter, _, _, ⟨rfl, rfl⟩, h⟩ := h
  rw [← (enter_ok henter).system]
  obtain ⟨h, rfl⟩ | ⟨_, _, ⟨_, rfl⟩, h⟩ := h
  · exact ⟨rfl, .inr h⟩
  · rcases h with hnote | ⟨_, s₂, _, h⟩
    · obtain ⟨hp, rfl⟩ := note_err hnote
      exact ⟨rfl, .inl hp⟩
    · split at h
      · obtain ⟨_, _, _, h⟩ := (bind_err.mp h).resolve_left emit_err.mp
        exact (finish_none_err h).elim
      · obtain ⟨_, _, _, h⟩ := (bind_err.mp h).resolve_left emit_err.mp
        exact (finish_none_err h).elim

theorem completeSolution_err (hm : m.findFirstRow ≠ none)
    (h : completeSolution check s = .error e t) : Stopped check m e t := by
  simp only [completeSolution, inform, bind_err, enter_err, get_err, get_ok, undoSwaps_err,
    emit_err, lift_err, lift_ok, false_or] at h
  obtain ⟨_, _, _, _, _, _, _, _, _, _, _, _, h⟩ := h
  rcases h with hback | ⟨_, _, _, h⟩
  · exact .blocked hm (backReduce_err hback)
  rcases h with hann | ⟨_, s₅, _, _, _, ⟨rfl, rfl⟩, h⟩
  · obtain ⟨hp, hsys⟩ := announce_err hann
    exact .blocked hm (.picture (hsys ▸ hp))
  rcases h with ⟨h, rfl⟩ | ⟨_, _, ⟨_, rfl⟩, _, _, hinf, h⟩
  · exact .answer hm h
  · obtain ⟨x, hx, ⟨hsys, hmap⟩ | ⟨henabled, hv⟩⟩ := finish_err h
    · cases hx
      rw [← (emit_ok hinf).system, ← hsys] at hmap
      exact .answer hm hmap
    · exact .verdict hm henabled hv

theorem classify_err (hm : m.findFirstRow ≠ none) (h : classify check s = .error e t) :
    Stopped check m e t := by
  simp only [classify, bind_err, get_err, get_ok, false_or] at h
  obtain ⟨_, _, ⟨rfl, rfl⟩, h⟩ := h
  split at h
  · obtain ⟨_, _, _, h⟩ := (bind_err.mp h).resolve_left emit_err.mp
    rcases bind_err.mp h with hnote | ⟨_, _, _, h⟩
    · obtain ⟨hp, rfl⟩ := note_err hnote
      exact .blocked hm (.picture hp)
    · exact (finish_none_err h).elim
  · split at h
    · obtain ⟨_, _, _, h⟩ := (bind_err.mp h).resolve_left emit_err.mp
      rcases bind_err.mp h with hnote | ⟨_, _, _, h⟩
      · obtain ⟨hp, rfl⟩ := note_err hnote
        exact .blocked hm (.picture hp)
      · exact (finish_none_err h).elim
    · exact completeSolution_err hm h

theorem findFirstRow_of_reachEchelon {k : Nat} (h : reachEchelon s = .ok (some k) t) :
    s.system.findFirstRow ≠ none := by
  simp only [reachEchelon, bind_ok, get_ok] at h
  obtain ⟨_, _, ha, _, _, ⟨rfl, rfl⟩, h⟩ := h
  intro hrow
  simp only [(announce_ok ha).system, hrow, pure_ok] at h
  cases h.1

/-- Every fault of a run has one of the causes, there and then. -/
theorem solve_err (h : solve check s = .error e t) : Stopped check s.system e t := by
  rcases bind_err.mp h with hreach | ⟨r, u, hreach, h⟩
  · rcases reachEchelon_err hreach with ⟨hsys, hp⟩ | ⟨hrow, hblocked⟩
    · exact .picture hsys hp
    · exact .blocked hrow hblocked
  rcases reachEchelon_ok hreach with ⟨rfl, hrow, ha⟩ | ⟨_, _, _, rfl, _⟩
  · obtain ⟨hsys, hp | hsum⟩ := classifyDegenerate_err h
    · rw [ha.system] at hsys hp
      exact .picture hsys hp
    · rw [ha.system] at hsys hsum
      exact .sum hsys hrow hsum
  · exact classify_err (findFirstRow_of_reachEchelon hreach) h

/-- Beyond the reduction itself, a run stops only because a value cannot be written. -/
theorem Stopped.blocked_or_text (h : Stopped check m e t) :
    Blocked m.tolerance e t ∨ ∃ a : Complex α, a.text = .error e := by
  cases h with
  | picture _ hp =>
    obtain ⟨_, _, ht⟩ := System.text_err hp
    exact .inr ⟨_, ht⟩
  | sum _ _ hsum => exact .inr ⟨_, hsum⟩
  | blocked _ hb => exact .inl hb
  | answer _ hx =>
    obtain ⟨_, ht⟩ := System.constants_err hx
    exact .inr ⟨_, ht⟩
  | verdict _ _ hv =>
    obtain ⟨_, hl | ⟨_, ht⟩⟩ := System.verify_err hv
    · exact .inr ⟨_, hl⟩
    · exact .inr ⟨_, ht⟩

end Reduction

theorem System.solve_err [Scalar α] {n : Nat} {m : System α n} {verify : Bool}
    {verifyTolerance : α} {e : Fault} {t : Reduction α n} :
    m.solve verify verifyTolerance = (.error e, t) ↔
      Reduction.solve ⟨verify, verifyTolerance, m⟩ { system := m } = .error e t := by
  rw [System.solve]
  split
  · rename_i h
    rw [h]
    simp
  · rename_i h
    rw [h]
    simp

end GaussJordan
