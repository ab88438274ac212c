import GaussJordan.Proofs.Forward

/-!
# GaussJordan.Proofs.Pictures

What the notes of a run show, over any scalar type.

* `Narrated op s t`: the operation was performed, and the one new note holds its text and the system
  right after it (`perform_narrated`).
* `Keeps I x`: whenever the computation ends well it has kept `I`. What every narrated operation
  keeps, forward elimination keeps (`placePivots_keeps`).
* `Illustrated m s`: the notes show the system `m` and then, operation by operation, what became of
  it. A run up to row echelon form is illustrated, and its last note shows the row echelon form
  (`reachEchelon_illustrated`).
-/

namespace GaussJordan

namespace Reduction

variable {α : Type} {n : Nat} {β γ : Type}

/-! ## Computations that keep an invariant -/

/-- Whenever the computation ends well, it has kept the invariant. -/
def Keeps (I : Reduction α n → Prop) (x : Run α n β) : Prop :=
  ∀ s b t, x s = .ok b t → I s → I t

namespace Keeps

variable {I : Reduction α n → Prop}

theorem pure (b : β) : Keeps I (pure b : Run α n β) := by
  intro s c t h hs
  obtain ⟨_, rfl⟩ := pure_ok.mp h
  exact hs

theorem throw (fault : Fault) : Keeps I (throw fault : Run α n β) :=
  fun _ _ _ h => (throw_ok.mp h).elim

theorem lift (x : Except Fault β) : Keeps I (lift x : Run α n β) := by
  intro s b t h hs
  obtain ⟨_, rfl⟩ := lift_ok.mp h
  exact hs

theorem bind {x : Run α n β} {f : β → Run α n γ} (hx : Keeps I x) (hf : ∀ b, Keeps I (f b)) :
    Keeps I (x >>= f) := by
  intro s c t h hs
  obtain ⟨b, u, hb, hc⟩ := bind_ok.mp h
  exact hf b u c t hc (hx s b u hb hs)

theorem get_bind {f : Reduction α n → Run α n γ} (hf : ∀ u, Keeps I (f u)) :
    Keeps I (get >>= f) := by
  refine Keeps.bind (fun s u t h hs => ?_) hf
  obtain ⟨_, rfl⟩ := get_ok.mp h
  exact hs

theorem forM {f : β → Run α n Unit} (xs : List β) (hf : ∀ x, Keeps I (f x)) :
    Keeps I (xs.forM f) := by
  induction xs with
  | nil => exact Keeps.pure ()
  | cons x xs ih => exact Keeps.bind (hf x) fun _ => ih

end Keeps

variable [Scalar α]

/-! ## The note of an operation -/

/-- The note shows the system as it is. -/
theorem note_pictured {description explanation : String} {s t : Reduction α n} {c : Unit}
    (h : note description explanation s = .ok c t) :
    ∃ picture, s.system.text = .ok picture ∧
      t = { s with notes := s.notes.push ⟨description, picture, explanation⟩ } := by
  simp only [note, bind_ok, get_ok, lift_ok, modify_ok] at h
  obtain ⟨_, _, ⟨rfl, rfl⟩, picture, _, ⟨hp, rfl⟩, rfl⟩ := h
  exact ⟨picture, hp, rfl⟩

theorem announce_pictured {heading description explanation : String} {s t : Reduction α n}
    {c : Unit} (h : announce heading description explanation s = .ok c t) :
    ∃ picture, s.system.text = .ok picture ∧ t.system = s.system ∧ t.operations = s.operations ∧
      t.notes = s.notes.push ⟨description, picture, explanation⟩ := by
  simp only [announce, bind_ok, get_ok, lift_ok, inform, emit, modify_ok] at h
  obtain ⟨_, _, ⟨rfl, rfl⟩, _, _, ⟨_, rfl⟩, _, _, rfl, hn⟩ := h
  obtain ⟨picture, hp, rfl⟩ := note_pictured hn
  exact ⟨picture, hp, rfl, rfl, rfl⟩

/-- The operation was performed, and a new note holds its text and the system after it. -/
structure Narrated (op : Operation α n) (s t : Reduction α n) : Prop extends Performed op s t where
  note : ∃ note : Note, t.notes = s.notes.push note ∧ op.text = .ok note.description ∧
    t.system.text = .ok note.expression

theorem perform_narrated {op : Operation α n} {explanation : String} {s t : Reduction α n}
    {c : Unit} (h : perform op explanation s = .ok c t) : Narrated op s t := by
  refine ⟨perform_ok h, ?_⟩
  rw [perform_eq] at h
  split at h
  · rename_i text htext
    obtain ⟨picture, hp, rfl⟩ := note_pictured h
    exact ⟨⟨text, picture, explanation⟩, rfl, htext, hp⟩
  · cases h

/-! ## Forward elimination -/

section

variable {I : Reduction α n → Prop}
variable (hI : ∀ (op : Operation α n) (s t : Reduction α n), Narrated op s t → I s → I t)

include hI

theorem perform_keeps (op : Operation α n) (explanation : String) :
    Keeps I (perform op explanation) :=
  fun s _ t h => hI op s t (perform_narrated h)

theorem bringPivot_keeps (pivot : Fin n) : Keeps I (bringPivot pivot) := by
  refine Keeps.get_bind fun s => ?_
  dsimp only
  split
  · exact (perform_keeps hI _ _).bind fun _ => .pure true
  · split
    · exact .pure false
    · refine (perform_keeps hI _ _).bind fun _ => .get_bind fun t => ?_
      split
      · split
        · exact (perform_keeps hI _ _).bind fun _ => .pure true
        · exact (Keeps.throw _).bind fun _ => .pure true
      · exact .pure true

theorem findPivot_keeps (pivot : Fin n) : Keeps I (findPivot pivot) := by
  refine Keeps.get_bind fun s => ?_
  dsimp only
  split
  · exact bringPivot_keeps hI pivot
  · exact .pure true

theorem normalize_keeps (pivot : Fin n) : Keeps I (normalize pivot) := by
  refine Keeps.get_bind fun s => (Keeps.lift _).bind fun factor => ?_
  split
  · exact .pure ()
  · exact perform_keeps hI _ _

theorem eliminateRow_keeps (pivotTerm : Complex α) (pivot row : Fin n) :
    Keeps I (eliminateRow pivotTerm pivot row) := by
  refine Keeps.get_bind fun s => (Keeps.lift _).bind fun q => ?_
  dsimp only
  split
  · exact .pure ()
  · exact perform_keeps hI _ _

theorem eliminateBelow_keeps (pivot : Fin n) : Keeps I (eliminateBelow pivot) :=
  .get_bind fun _ => .forM _ fun row => eliminateRow_keeps hI _ pivot row

theorem placePivots_keeps (pivots : List (Fin n)) : Keeps I (placePivots pivots) := by
  induction pivots with
  | nil => exact .pure 0
  | cons pivot rest ih =>
    refine (findPivot_keeps hI pivot).bind fun found => ?_
    split
    · exact (normalize_keeps hI pivot).bind fun _ => (eliminateBelow_keeps hI pivot).bind fun _ =>
        ih.bind fun _ => .pure _
    · exact .pure 0

theorem leadWith_keeps (row : Fin n) : Keeps I (leadWith row) := by
  simp only [leadWith]
  split
  · exact perform_keeps hI _ _
  · exact .pure ()

end

/-! ## The notes -/

/-- The notes show the system `m` first and then, operation by operation, what became of it. -/
structure Illustrated (m : System α n) (s : Reduction α n) : Prop where
  system : s.system = Operation.applyAll s.recorded m
  size : s.notes.size = s.recorded.length + 1
  picture : ∀ (k : Nat) (note : Note), s.notes[k]? = some note →
    (Operation.applyAll (s.recorded.take k) m).text = .ok note.expression

namespace Illustrated

variable {m : System α n} {s t : Reduction α n}

theorem narrated {op : Operation α n} (h : Narrated op s t) (hs : Illustrated m s) :
    Illustrated m t := by
  obtain ⟨note, hnotes, _, hpicture⟩ := h.note
  have hsystem : t.system = Operation.applyAll t.recorded m := by
    rw [h.recorded, Operation.applyAll_concat, ← hs.system, h.system]
  refine ⟨hsystem, ?_, fun k note' hk => ?_⟩
  · rw [hnotes, h.recorded, Array.size_push, hs.size, List.length_append]
    rfl
  · rw [hnotes, Array.getElem?_push] at hk
    split at hk
    · -- the new note
      rename_i hlast
      cases hk
      have hlength : t.recorded.length = s.notes.size := by
        rw [h.recorded, List.length_append, List.length_singleton, hs.size]
      have hall : t.recorded.take s.notes.size = t.recorded :=
        List.take_of_length_le (Nat.le_of_eq hlength)
      rwa [hlast, hall, ← hsystem]
    · have hlt : k < s.recorded.length + 1 := by
        rw [← hs.size]
        exact (Array.getElem?_eq_some_iff.mp hk).1
      have hsame : t.recorded.take k = s.recorded.take k := by
        rw [h.recorded, List.take_append_of_le_length (Nat.le_of_lt_succ hlt)]
      rw [hsame]
      exact hs.picture k note' hk

theorem exists_note (h : Illustrated m s) {k : Nat} (hk : k ≤ s.recorded.length) :
    ∃ note : Note, s.notes[k]? = some note ∧
      (Operation.applyAll (s.recorded.take k) m).text = .ok note.expression := by
  have hlt : k < s.notes.size := by
    rw [h.size]
    omega
  have hnote : s.notes[k]? = some s.notes[k] := Array.getElem?_eq_getElem hlt
  exact ⟨_, hnote, h.picture k _ hnote⟩

end Illustrated

/-- A run up to row echelon form is illustrated, and the note on the row echelon form shows the
system as it then is. -/
theorem reachEchelon_illustrated {m : System α n} {e : Reduction α n} {r : Option Nat}
    (h : reachEchelon { system := m } = .ok r e) :
    e.system = Operation.applyAll e.recorded m ∧
    (∀ k, k ≤ e.recorded.length → ∃ note : Note, e.notes[k]? = some note ∧
      (Operation.applyAll (e.recorded.take k) m).text = .ok note.expression) ∧
    (r ≠ none → ∃ note : Note, e.notes.back? = some note ∧ note.description = "Row echelon form" ∧
      e.system.text = .ok note.expression) := by
  simp only [reachEchelon, bind_ok, get_ok] at h
  obtain ⟨_, s₁, ha, _, _, ⟨rfl, rfl⟩, h⟩ := h
  obtain ⟨picture, hp, hsys, hops, hnotes⟩ := announce_pictured ha
  have hstart : Illustrated m s₁ := by
    have hnil : s₁.recorded = [] := by
      rw [recorded, hops]
      rfl
    refine ⟨by rw [hnil, hsys]; rfl, by rw [hnotes, hnil]; rfl, fun k note hk => ?_⟩
    rw [hnotes, Array.getElem?_push] at hk
    split at hk
    · cases hk
      rw [hnil, List.take_nil]
      exact hp
    · simp at hk
  cases hrow : s₁.system.findFirstRow with
  | none =>
    simp only [hrow, pure_ok] at h
    obtain ⟨rfl, rfl⟩ := h
    exact ⟨hstart.system, fun _ => hstart.exists_note, fun hr => absurd rfl hr⟩
  | some row =>
    simp only [hrow, forwardEliminate, bind_ok, pure_ok, inform, emit, enter, modify_ok] at h
    obtain ⟨_, s₂, hlead, _, s₃, rfl, k, s₅, ⟨_, s₄, rfl, hplace⟩, _, s₆, hann, rfl, rfl⟩ := h
    have hI : ∀ (op : Operation α n) (u v : Reduction α n), Narrated op u v →
        Illustrated m u → Illustrated m v := fun _ _ _ => Illustrated.narrated
    have h₂ := leadWith_keeps hI row _ _ _ hlead hstart
    have h₅ := placePivots_keeps hI _ _ _ _ hplace ⟨h₂.system, h₂.size, h₂.picture⟩
    obtain ⟨picture, hp, hsys, hops, hnotes⟩ := announce_pictured hann
    have hrec : s₆.recorded = s₅.recorded := by rw [recorded, hops, recorded]
    rw [hrec]
    refine ⟨hsys.trans h₅.system, fun k hk => ?_, fun _ => ?_⟩
    · obtain ⟨note, hnote, htext⟩ := h₅.exists_note hk
      refine ⟨note, ?_, htext⟩
      have hlt := (Array.getElem?_eq_some_iff.mp hnote).1
      rw [hnotes, Array.getElem?_push, if_neg (Nat.ne_of_lt hlt)]
      exact hnote
    · refine ⟨_, by rw [hnotes, Array.back?_push], rfl, ?_⟩
      rw [hsys]
      exact hp

end Reduction

end GaussJordan
