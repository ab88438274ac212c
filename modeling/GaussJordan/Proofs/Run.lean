import GaussJordan.Reduction

/-!
# GaussJordan.Proofs.Run

What a computation on a reduction has done when it ends without a fault, over any scalar type.

* `bind_ok`, `lift_ok`, …: a computation ended well exactly if each of its parts did.
* `Performed op s t`: from `s` to `t` one operation was carried out and recorded (`perform_ok`).
* `Trace G s ops t`: from `s` to `t` the operations `ops` were performed one after the other, each
  allowed by the guard `G` on the system it met. Between them only the narration may change.

A part of the reduction is described by the guard of its traces. What holds of a whole run is then
an induction over its trace.
-/

namespace GaussJordan

namespace Operation

variable {α : Type} {n : Nat}

/-- The entries an operation leaves in the history of exchanges. -/
def exchanges : Operation α n → List (Recorded n)
  | .swapColumns i j => [.own i j]
  | _ => []

variable [Scalar α]

/-- Applies operations one after the other. -/
def applyAll (ops : List (Operation α n)) (m : System α n) : System α n :=
  ops.foldl (fun m op => op.apply m) m

/-- The history after operations were recorded, the most recent exchange first. -/
def recordAll (ops : List (Operation α n)) (history : List (Recorded n)) : List (Recorded n) :=
  ops.foldl (fun history op => op.exchanges ++ history) history

theorem applyAll_concat (ops : List (Operation α n)) (op : Operation α n) (m : System α n) :
    applyAll (ops ++ [op]) m = op.apply (applyAll ops m) := by
  rw [applyAll, List.foldl_append]
  rfl

omit [Scalar α] in
theorem recordAll_concat (ops : List (Operation α n)) (op : Operation α n)
    (history : List (Recorded n)) :
    recordAll (ops ++ [op]) history = op.exchanges ++ recordAll ops history := by
  rw [recordAll, List.foldl_append]
  rfl

@[simp] theorem tolerance_apply (op : Operation α n) (m : System α n) :
    (op.apply m).tolerance = m.tolerance := by
  cases op <;> rfl

end Operation

namespace Reduction

variable {α : Type} {n : Nat} {β γ : Type}

/-! ## Parts of a computation -/

theorem bind_ok {x : Run α n β} {f : β → Run α n γ} {s t : Reduction α n} {c : γ} :
    (x >>= f) s = .ok c t ↔ ∃ b u, x s = .ok b u ∧ f b u = .ok c t := by
  simp only [bind, EStateM.bind]
  cases h : x s with
  | ok b u =>
    constructor
    · intro hf
      exact ⟨b, u, rfl, hf⟩
    · rintro ⟨b', u', hx, hf⟩
      cases hx
      exact hf
  | error e u => simp

theorem pure_ok {b c : β} {s t : Reduction α n} :
    (pure b : Run α n β) s = .ok c t ↔ b = c ∧ s = t := by
  change EStateM.Result.ok b s = .ok c t ↔ _
  simp

theorem get_ok {s t u : Reduction α n} :
    (get : Run α n (Reduction α n)) s = .ok t u ↔ s = t ∧ s = u := by
  change EStateM.Result.ok s s = .ok t u ↔ _
  simp

theorem modify_ok {f : Reduction α n → Reduction α n} {s t : Reduction α n} {c : PUnit} :
    (modify f : Run α n PUnit) s = .ok c t ↔ t = f s := by
  change EStateM.Result.ok PUnit.unit (f s) = .ok c t ↔ _
  simp [eq_comm]

theorem throw_ok {e : Fault} {b : β} {s t : Reduction α n} :
    (throw e : Run α n β) s = .ok b t ↔ False := by
  change EStateM.Result.error e s = .ok b t ↔ _
  simp

theorem lift_ok {x : Except Fault β} {b : β} {s t : Reduction α n} :
    (lift x : Run α n β) s = .ok b t ↔ x = .ok b ∧ s = t := by
  cases x with
  | ok a => simp [lift, pure_ok]
  | error e => simp [lift, throw_ok]

theorem forM_nil_ok {f : β → Run α n Unit} {s t : Reduction α n} {c : Unit} :
    ([] : List β).forM f s = .ok c t ↔ s = t := by
  refine (pure_ok (b := ()) (c := c)).trans ?_
  simp

theorem forM_cons_ok {f : β → Run α n Unit} {x : β} {xs : List β} {s t : Reduction α n} {c : Unit} :
    (x :: xs).forM f s = .ok c t ↔ ∃ u, f x s = .ok () u ∧ xs.forM f u = .ok c t := by
  refine (bind_ok (x := f x) (f := fun _ => xs.forM f)).trans ⟨?_, ?_⟩
  · rintro ⟨_, u, hx, hxs⟩
    exact ⟨u, hx, hxs⟩
  · rintro ⟨u, hx, hxs⟩
    exact ⟨(), u, hx, hxs⟩

/-- Whether a computation ends well, with a result and a state of a given kind. -/
def endsWith (x : Run α n β) (s : Reduction α n) (p : β → Reduction α n → Bool) : Bool :=
  match x s with
  | .ok b t => p b t
  | .error _ _ => false

theorem exists_of_endsWith {x : Run α n β} {s : Reduction α n} {p : β → Reduction α n → Bool}
    (h : endsWith x s p = true) : ∃ b t, x s = .ok b t ∧ p b t = true := by
  rw [endsWith] at h
  split at h
  · rename_i b t hx
    exact ⟨b, t, hx, h⟩
  · cases h

/-! ## Narration -/

/-- The two states differ at most in their narration and stage. -/
structure Agree (s t : Reduction α n) : Prop where
  system : t.system = s.system
  history : t.history = s.history
  operations : t.operations = s.operations
  columnSwaps : t.columnSwaps = s.columnSwaps

theorem Agree.refl (s : Reduction α n) : Agree s s := ⟨rfl, rfl, rfl, rfl⟩

theorem Agree.trans {s t u : Reduction α n} (h₁ : Agree s t) (h₂ : Agree t u) : Agree s u :=
  ⟨h₂.system.trans h₁.system, h₂.history.trans h₁.history, h₂.operations.trans h₁.operations,
    h₂.columnSwaps.trans h₁.columnSwaps⟩

theorem emit_ok {level : Level} {source : Source} {text : String} {s t : Reduction α n} {c : Unit}
    (h : emit level source text s = .ok c t) : Agree s t := by
  simp only [emit, modify_ok] at h
  subst h
  exact ⟨rfl, rfl, rfl, rfl⟩

theorem enter_ok {stage : Stage} {s t : Reduction α n} {c : Unit} (h : enter stage s = .ok c t) :
    Agree s t := by
  simp only [enter, modify_ok] at h
  subst h
  exact ⟨rfl, rfl, rfl, rfl⟩

variable [Scalar α]

theorem note_ok {description explanation : String} {s t : Reduction α n} {c : Unit}
    (h : note description explanation s = .ok c t) : Agree s t := by
  simp only [note, bind_ok, get_ok, lift_ok, modify_ok] at h
  obtain ⟨_, _, ⟨rfl, rfl⟩, _, _, ⟨_, rfl⟩, rfl⟩ := h
  exact ⟨rfl, rfl, rfl, rfl⟩

theorem announce_ok {heading description explanation : String} {s t : Reduction α n} {c : Unit}
    (h : announce heading description explanation s = .ok c t) : Agree s t := by
  simp only [announce, bind_ok, get_ok, lift_ok] at h
  obtain ⟨_, _, ⟨rfl, rfl⟩, _, _, ⟨_, rfl⟩, _, _, hi, hn⟩ := h
  exact (emit_ok hi).trans (note_ok hn)

/-! ## One operation -/

/-- The operations of the record, the first one first. -/
def recorded (s : Reduction α n) : List (Operation α n) := s.operations.toList.map (·.1)

/-- The operation was carried out and recorded. -/
structure Performed (op : Operation α n) (s t : Reduction α n) : Prop where
  system : t.system = op.apply s.system
  history : t.history = op.exchanges ++ s.history
  recorded : t.recorded = s.recorded ++ [op]
  columnSwaps : t.columnSwaps = s.columnSwaps + op.exchanges.length

/-- The state in which an operation has been carried out and recorded, but not noted yet. -/
def entered (op : Operation α n) (text : String) (s : Reduction α n) : Reduction α n :=
  { s with
    system := op.apply s.system
    history := op.exchanges ++ s.history
    operations := s.operations.push (op, text)
    columnSwaps := s.columnSwaps + op.exchanges.length
    log := s.log.push ⟨.info, if op.exchanges.isEmpty then .reduction else .swaps, text⟩ }

/-- The operation is carried out and written, then entered and noted. -/
theorem perform_eq (op : Operation α n) (explanation : String) (s : Reduction α n) :
    perform op explanation s =
      match op.text with
      | .ok text => note text explanation (entered op text s)
      | .error fault => .error fault { s with system := op.apply s.system } := by
  unfold perform
  cases op.text with
  | ok text => cases op <;> rfl
  | error fault => rfl

theorem perform_ok {op : Operation α n} {explanation : String} {s t : Reduction α n} {c : Unit}
    (h : perform op explanation s = .ok c t) : Performed op s t := by
  rw [perform_eq] at h
  split at h
  · have hn := note_ok h
    exact ⟨hn.system, hn.history, by simp [recorded, hn.operations, entered], hn.columnSwaps⟩
  · cases h

/-! ## Traces -/

/-- The operations lead from one state to the other, each allowed by the guard at its turn. -/
inductive Trace (G : System α n → Operation α n → Prop) :
    Reduction α n → List (Operation α n) → Reduction α n → Prop where
  | nil {s t : Reduction α n} : Agree s t → Trace G s [] t
  | cons {s t u : Reduction α n} {op : Operation α n} {ops : List (Operation α n)} :
      G s.system op → Performed op s t → Trace G t ops u → Trace G s (op :: ops) u

namespace Trace

variable {G : System α n → Operation α n → Prop} {s t u : Reduction α n}
variable {op : Operation α n} {ops ops' : List (Operation α n)}

theorem refl (s : Reduction α n) : Trace G s [] s := .nil (.refl s)

theorem single (hg : G s.system op) (h : Performed op s t) : Trace G s [op] t :=
  .cons hg h (.refl t)

/-- A trace may start from any state with the same system, history and record. -/
theorem of_agree (h : Agree s t) (ht : Trace G t ops u) : Trace G s ops u := by
  cases ht with
  | nil ha => exact .nil (h.trans ha)
  | cons hg hp ht =>
    refine .cons (h.system ▸ hg) ⟨?_, ?_, ?_, ?_⟩ ht
    · rw [hp.system, h.system]
    · rw [hp.history, h.history]
    · rw [hp.recorded, recorded, recorded, h.operations]
    · rw [hp.columnSwaps, h.columnSwaps]

theorem trans (h₁ : Trace G s ops t) (h₂ : Trace G t ops' u) : Trace G s (ops ++ ops') u := by
  induction h₁ with
  | nil ha => exact of_agree ha h₂
  | cons hg hp _ ih => exact .cons hg hp (ih h₂)

theorem then_agree (h : Trace G s ops t) (ha : Agree t u) : Trace G s ops u := by
  have := h.trans (.nil ha)
  rwa [List.append_nil] at this

theorem mono {H : System α n → Operation α n → Prop} (hGH : ∀ m op, G m op → H m op)
    (h : Trace G s ops t) : Trace H s ops t := by
  induction h with
  | nil ha => exact .nil ha
  | cons hg hp _ ih => exact .cons (hGH _ _ hg) hp ih

/-- What the guard says of the operation alone holds of all operations of a trace. -/
theorem forall_mem {P : Operation α n → Prop} (hG : ∀ m op, G m op → P op)
    (h : Trace G s ops t) : ∀ op ∈ ops, P op := by
  induction h with
  | nil => exact nofun
  | cons hg _ _ ih =>
    intro op hop
    rcases List.mem_cons.mp hop with rfl | hop
    · exact hG _ _ hg
    · exact ih op hop

theorem system (h : Trace G s ops t) : t.system = Operation.applyAll ops s.system := by
  induction h with
  | nil ha => exact ha.system
  | cons _ hp _ ih => rw [ih, hp.system]; rfl

theorem history (h : Trace G s ops t) : t.history = Operation.recordAll ops s.history := by
  induction h with
  | nil ha => exact ha.history
  | cons _ hp _ ih => rw [ih, hp.history]; rfl

theorem recorded (h : Trace G s ops t) : t.recorded = s.recorded ++ ops := by
  induction h with
  | nil ha => rw [Reduction.recorded, ha.operations, List.append_nil]; rfl
  | cons _ hp _ ih => rw [ih, hp.recorded, List.append_assoc]; rfl

theorem history_eq (hG : ∀ m op, G m op → op.exchanges = []) (h : Trace G s ops t) :
    t.history = s.history := by
  induction h with
  | nil ha => exact ha.history
  | cons hg hp _ ih => rw [ih, hp.history, hG _ _ hg, List.nil_append]

/-- What every allowed operation preserves, a whole trace preserves. -/
theorem invariant {I : System α n → Prop} (hI : ∀ m op, G m op → I m → I (op.apply m))
    (h : Trace G s ops t) (hs : I s.system) : I t.system := by
  induction h with
  | nil ha => rwa [ha.system]
  | cons hg hp _ ih =>
    apply ih
    rw [hp.system]
    exact hI _ _ hg hs

/-- The guard may speak of what every allowed operation preserves. -/
theorem with_invariant {I : System α n → Prop} (hI : ∀ m op, G m op → I m → I (op.apply m))
    (h : Trace G s ops t) (hs : I s.system) : Trace (fun m op => G m op ∧ I m) s ops t := by
  induction h with
  | nil ha => exact .nil ha
  | cons hg hp _ ih =>
    refine .cons ⟨hg, hs⟩ hp (ih ?_)
    rw [hp.system]
    exact hI _ _ hg hs

/-- The count of exchanges grows with the history. -/
theorem columnSwaps (h : Trace G s ops t) :
    t.columnSwaps + s.history.length = s.columnSwaps + t.history.length := by
  induction h with
  | nil ha => rw [ha.columnSwaps, ha.history]
  | cons _ hp _ ih =>
    rw [hp.columnSwaps, hp.history, List.length_append] at ih
    omega

theorem tolerance (h : Trace G s ops t) : t.system.tolerance = s.system.tolerance := by
  refine h.invariant (I := fun m => m.tolerance = s.system.tolerance) ?_ rfl
  intro m op _ hm
  rw [Operation.tolerance_apply, hm]

end Trace

end Reduction

end GaussJordan
