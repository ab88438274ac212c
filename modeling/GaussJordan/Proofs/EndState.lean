import GaussJordan.Proofs.BackReduction
import GaussJordan.Proofs.Course

/-!
# GaussJordan.Proofs.EndState

Where a computation ends, whether it returns or raises, over any scalar type.

* `final x s`: the state in which the computation ends.
* `Leaves I x s`: there the invariant `I` holds of the system and of the operations on record. A run
  that raises may have begun an operation, so `Admits I G` asks for two things of every operation
  the guard `G` allows: the invariant holds after it with the operation recorded and without.
* `bringPivot_leaves`, …: what is admitted of the operations of a pivot's turn, its parts maintain.
  So does the loop over the pivots (`placePivots_leaves`), and, for all operations of a run, the
  whole run (`System.solve_leaves`).
-/

namespace GaussJordan

variable {α : Type} {n : Nat} {β γ : Type}

namespace Reduction

/-- The state in which the computation ends, with a result or a fault. -/
def final (x : Run α n β) (s : Reduction α n) : Reduction α n :=
  match x s with
  | .ok _ t => t
  | .error _ t => t

theorem final_ok {x : Run α n β} {s t : Reduction α n} {b : β} (h : x s = .ok b t) :
    final x s = t := by
  rw [final, h]

theorem final_error {x : Run α n β} {s t : Reduction α n} {e : Fault} (h : x s = .error e t) :
    final x s = t := by
  rw [final, h]

theorem final_pure (b : β) (s : Reduction α n) : final (pure b : Run α n β) s = s := rfl

theorem final_get_bind (f : Reduction α n → Run α n γ) (s : Reduction α n) :
    final (get >>= f) s = final (f s) s := rfl

theorem final_bind_pure (x : Run α n β) (g : β → γ) (s : Reduction α n) :
    final (x >>= fun b => pure (g b)) s = final x s := by
  simp only [final, bind, EStateM.bind]
  cases x s <;> rfl

/-- The second part goes on from where the first one returned. -/
theorem final_bind_ok {x : Run α n β} {f : β → Run α n γ} {s t : Reduction α n} {b : β}
    (h : x s = .ok b t) : final (x >>= f) s = final (f b) t := by
  simp only [final, bind, EStateM.bind, h]

/-- If the first part raises, the second one changes nothing. -/
theorem final_bind_error {x : Run α n β} {f : β → Run α n γ} {s t : Reduction α n} {e : Fault}
    (h : x s = .error e t) : final (x >>= f) s = t := by
  simp only [final, bind, EStateM.bind, h]

theorem final_bind_congr {δ : Type} {x : Run α n β} {f : β → Run α n γ} {g : β → Run α n δ}
    (h : ∀ b t, final (f b) t = final (g b) t) (s : Reduction α n) :
    final (x >>= f) s = final (x >>= g) s := by
  cases hx : x s with
  | ok b t => rw [final_bind_ok hx, final_bind_ok hx, h]
  | error e t => rw [final_bind_error hx, final_bind_error hx]

/-- What holds at the end of the first part if it raises, and at the end of the second otherwise,
holds at the end. -/
theorem final_bind {P : Reduction α n → Prop} {x : Run α n β} {f : β → Run α n γ}
    {s : Reduction α n} (herror : ∀ e t, x s = .error e t → P t)
    (hok : ∀ b t, x s = .ok b t → P (final (f b) t)) : P (final (x >>= f) s) := by
  cases h : x s with
  | ok b t =>
    rw [final_bind_ok h]
    exact hok b t h
  | error e t =>
    rw [final_bind_error h]
    exact herror e t h

/-! ## What holds at the end -/

/-- At the end of the computation the invariant holds of the system and the record. -/
def Leaves (I : System α n → List (Operation α n) → Prop) (x : Run α n β)
    (s : Reduction α n) : Prop :=
  I (final x s).system (final x s).recorded

/-- The operations the guard allows carry the invariant on, recorded or not. -/
def Admits [Scalar α] (I : System α n → List (Operation α n) → Prop)
    (G : System α n → Operation α n → Prop) : Prop :=
  ∀ m ops op, G m op → I m ops → I (op.apply m) ops ∧ I (op.apply m) (ops ++ [op])

theorem Admits.mono [Scalar α] {I : System α n → List (Operation α n) → Prop}
    {G H : System α n → Operation α n → Prop} (hI : Admits I G) (h : ∀ m op, H m op → G m op) :
    Admits I H :=
  fun m ops op hop => hI m ops op (h m op hop)

namespace Leaves

variable {I : System α n → List (Operation α n) → Prop} {s : Reduction α n}

theorem pure {b : β} (hs : I s.system s.recorded) : Leaves I (pure b : Run α n β) s := hs

theorem throw (e : Fault) (hs : I s.system s.recorded) : Leaves I (throw e : Run α n β) s := hs

theorem bind {x : Run α n β} {f : β → Run α n γ} (hx : Leaves I x s)
    (hf : ∀ b u, I u.system u.recorded → Leaves I (f b) u) : Leaves I (x >>= f) s := by
  refine final_bind (P := fun t => I t.system t.recorded) (fun e t h => ?_) fun b t h => ?_
  · rwa [Leaves, final_error h] at hx
  · rw [Leaves, final_ok h] at hx
    exact hf b t hx

theorem get_bind {f : Reduction α n → Run α n γ} (hf : Leaves I (f s) s) :
    Leaves I (get >>= f) s := hf

/-- The state is the same after a value was looked at. -/
theorem lift_bind {x : Except Fault β} {f : β → Run α n γ} (hs : I s.system s.recorded)
    (hf : ∀ b, x = .ok b → Leaves I (f b) s) : Leaves I (Reduction.lift x >>= f) s := by
  cases x with
  | ok b => exact hf b rfl
  | error e => exact hs

theorem forM {f : β → Run α n Unit} (xs : List β)
    (hf : ∀ x ∈ xs, ∀ u : Reduction α n, I u.system u.recorded → Leaves I (f x) u)
    (hs : I s.system s.recorded) : Leaves I (xs.forM f) s := by
  induction xs generalizing s with
  | nil => exact hs
  | cons x xs ih =>
    refine (hf x (by simp) s hs).bind fun _ u hu => ih (fun y hy => hf y ?_) hu
    exact List.mem_cons_of_mem x hy

theorem emit (level : Level) (source : Source) (text : String) (hs : I s.system s.recorded) :
    Leaves I (emit level source text) s := hs

theorem inform (text : String) (hs : I s.system s.recorded) : Leaves I (inform text) s := hs

theorem enter (stage : Stage) (hs : I s.system s.recorded) : Leaves I (enter stage) s := hs

variable [Scalar α]

theorem note (description explanation : String) (hs : I s.system s.recorded) :
    Leaves I (note description explanation) s := by
  rw [Leaves, final, note_eq]
  cases s.system.text with
  | ok picture => exact hs
  | error e => exact hs

theorem announce (heading description explanation : String) (hs : I s.system s.recorded) :
    Leaves I (announce heading description explanation) s :=
  .get_bind (.lift_bind hs fun _ _ => (inform _ hs).bind fun _ _ hu => note _ _ hu)

end Leaves

variable [Scalar α]

/-- An operation changes the system even if it cannot be written. -/
theorem system_final_perform (op : Operation α n) (explanation : String) (s : Reduction α n) :
    (final (perform op explanation) s).system = op.apply s.system := by
  rw [final, perform_eq]
  cases op.text with
  | error e => rfl
  | ok text =>
    dsimp only
    rw [note_eq]
    cases (entered op text s).system.text with
    | ok picture => rfl
    | error e => rfl

theorem recorded_final_perform (op : Operation α n) (explanation : String) (s : Reduction α n) :
    (final (perform op explanation) s).recorded = s.recorded ∨
      (final (perform op explanation) s).recorded = s.recorded ++ [op] := by
  rw [final, perform_eq]
  cases op.text with
  | error e => exact .inl rfl
  | ok text =>
    dsimp only
    rw [note_eq]
    cases (entered op text s).system.text with
    | ok picture => exact .inr (by simp [recorded, entered])
    | error e => exact .inr (by simp [recorded, entered])

section

variable {I : System α n → List (Operation α n) → Prop}
variable {G : System α n → Operation α n → Prop} {s : Reduction α n}

theorem Leaves.perform (hI : Admits I G) {op : Operation α n} (hop : G s.system op)
    (explanation : String) (hs : I s.system s.recorded) :
    Leaves I (perform op explanation) s := by
  obtain ⟨hbefore, hafter⟩ := hI _ _ _ hop hs
  rw [Leaves, system_final_perform]
  rcases recorded_final_perform op explanation s with h | h
  · rwa [h]
  · rwa [h]

/-! ## A pivot's turn -/

variable {pivot : Fin n}

theorem bringPivot_leaves (hI : Admits I (TurnStep pivot)) (hs : I s.system s.recorded) :
    Leaves I (bringPivot pivot) s := by
  refine .get_bind ?_
  dsimp only
  split
  · rename_i row hrow
    exact (Leaves.perform hI (.swapRows (System.findRow_eq_some hrow).1) _ hs).bind
      fun _ _ hu => .pure hu
  · split
    · exact .pure hs
    · rename_i column hcolumn
      refine (Leaves.perform hI (.swapColumns (System.findColumn_eq_some hcolumn).1) _ hs).bind
        fun _ u hu => .get_bind ?_
      split
      · split
        · rename_i row hrow
          exact (Leaves.perform hI (.swapRows (System.findRow_eq_some hrow).1) _ hu).bind
            fun _ _ hv => .pure hv
        · exact (Leaves.throw _ hu).bind fun _ _ hv => .pure hv
      · exact .pure hu

theorem findPivot_leaves (hI : Admits I (TurnStep pivot)) (hs : I s.system s.recorded) :
    Leaves I (findPivot pivot) s := by
  refine .get_bind ?_
  dsimp only
  split
  · exact bringPivot_leaves hI hs
  · exact .pure hs

theorem normalize_leaves (hI : Admits I (RowStep pivot)) (hs : I s.system s.recorded) :
    Leaves I (normalize pivot) s := by
  refine .get_bind (.lift_bind hs fun factor hfactor => ?_)
  split
  · exact .pure hs
  · exact Leaves.perform hI (.scale hfactor) _ hs

theorem eliminateRow_leaves (hI : Admits I G) {pivotTerm : Complex α} {row : Fin n}
    (hG : ∀ q, (s.system.coefficient row pivot).div pivotTerm = .ok q →
      (-q).isZero s.system.tolerance = false → G s.system (.addScaled (-q) pivot row))
    (hs : I s.system s.recorded) : Leaves I (eliminateRow pivotTerm pivot row) s := by
  refine .get_bind (.lift_bind hs fun q hq => ?_)
  dsimp only
  split
  · exact .pure hs
  · rename_i hz
    exact Leaves.perform hI (hG q hq (by simpa using hz)) _ hs

theorem eliminateBelow_leaves (hI : Admits I (ClearStep pivot)) (hs : I s.system s.recorded) :
    Leaves I (eliminateBelow pivot) s := by
  refine .get_bind ?_
  -- the divisor was read before the loop, so the loop has to keep the pivot's term
  let J : System α n → List (Operation α n) → Prop := fun m ops =>
    I m ops ∧ m.coefficient pivot pivot = s.system.coefficient pivot pivot
  have hJ : Admits J (ClearStep pivot) := by
    rintro m ops op hop ⟨hm, hterm⟩
    obtain ⟨hbefore, hafter⟩ := hI m ops op hop hm
    have hkept := hop.coefficient_pivot.trans hterm
    exact ⟨⟨hbefore, hkept⟩, hafter, hkept⟩
  have hloop : Leaves J ((rowsBelow pivot).forM
      (eliminateRow (s.system.coefficient pivot pivot) pivot)) s := by
    refine .forM _ (fun row hrow u hu => ?_) ⟨hs, rfl⟩
    refine eliminateRow_leaves hJ (fun q hq hz => ?_) hu
    rw [← hu.2] at hq
    exact .addScaled (mem_rowsBelow.mp hrow) hq hz
  exact hloop.1

/-- What every pivot's turn admits, the loop over the pivots maintains. -/
theorem placePivots_leaves {pivots : List (Fin n)}
    (hI : ∀ pivot ∈ pivots, Admits I (TurnStep pivot)) (hs : I s.system s.recorded) :
    Leaves I (placePivots pivots) s := by
  induction pivots generalizing s with
  | nil => exact .pure hs
  | cons pivot rest ih =>
    have hturn := hI pivot (by simp)
    have hrows := hturn.mono fun _ _ => TurnStep.row
    refine (findPivot_leaves hturn hs).bind fun found u hu => ?_
    split
    · refine (normalize_leaves hrows hu).bind fun _ v hv => ?_
      refine (eliminateBelow_leaves (hrows.mono fun _ _ => .clear) hv).bind fun _ w hw => ?_
      exact (ih (fun p hp => hI p (List.mem_cons_of_mem _ hp)) hw).bind fun _ _ ht => .pure ht
    · exact .pure hu

/-! ## The whole run -/

section

variable (hI : Admits I RunStep)

include hI

end

end

end Reduction

end GaussJordan
