import GaussJordan.Operation
import GaussJordan.Verification
import Mathlib.Data.List.Forall2

/-!
# GaussJordan.Proofs.Texts

What can be written, over any scalar type. A text is there exactly if the texts of its parts are:
`…_ok` gives the texts of the parts, and `…_err` finds a part that has the fault of the whole.
-/

namespace GaussJordan

/-! ## Sequences of texts -/

section

variable {ε β γ : Type} {e : ε}

theorem exists_ok_of_isOk {x : Except ε β} (h : x.isOk = true) : ∃ b, x = .ok b := by
  cases x with
  | ok b => exact ⟨b, rfl⟩
  | error e => cases h

theorem andThen_ok {x : Except ε β} {f : β → Except ε γ} {c : γ} :
    (x >>= f) = .ok c ↔ ∃ b, x = .ok b ∧ f b = .ok c := by
  cases x with
  | ok b =>
    constructor
    · exact fun h => ⟨b, rfl, h⟩
    · rintro ⟨b', hb, h⟩
      cases hb
      exact h
  | error e =>
    constructor
    · intro h
      cases h
    · rintro ⟨b, hb, -⟩
      cases hb

theorem andThen_err {x : Except ε β} {f : β → Except ε γ} :
    (x >>= f) = .error e ↔ x = .error e ∨ ∃ b, x = .ok b ∧ f b = .error e := by
  cases x with
  | ok b =>
    constructor
    · exact fun h => .inr ⟨b, rfl, h⟩
    · rintro (h | ⟨b', hb, h⟩)
      · cases h
      · cases hb
        exact h
  | error e' =>
    constructor
    · intro h
      cases h
      exact .inl rfl
    · rintro (h | ⟨b, hb, -⟩)
      · cases h
        rfl
      · cases hb

theorem mapM_ok_iff {f : β → Except ε γ} {xs : List β} {cs : List γ} :
    xs.mapM f = .ok cs ↔ List.Forall₂ (fun x c => f x = .ok c) xs cs := by
  induction xs generalizing cs with
  | nil =>
    rw [List.forall₂_nil_left_iff]
    exact ⟨fun h => by cases h; rfl, fun h => by rw [h]; rfl⟩
  | cons x xs ih =>
    rw [List.mapM_cons, andThen_ok]
    constructor
    · rintro ⟨c, hc, h⟩
      obtain ⟨ds, hds, h⟩ := andThen_ok.mp h
      cases h
      exact .cons hc (ih.mp hds)
    · intro h
      cases h with
      | cons hc hds => exact ⟨_, hc, andThen_ok.mpr ⟨_, ih.mpr hds, rfl⟩⟩

theorem mapM_ok {f : β → Except ε γ} {xs : List β} {cs : List γ} (h : xs.mapM f = .ok cs) :
    ∀ x ∈ xs, ∃ c, f x = .ok c := by
  intro x hx
  induction mapM_ok_iff.mp h with
  | nil => cases hx
  | cons hc hcs ih =>
    rcases List.mem_cons.mp hx with rfl | hx
    · exact ⟨_, hc⟩
    · exact ih (mapM_ok_iff.mpr hcs) hx

theorem mapM_of_ok {f : β → Except ε γ} {g : β → γ} {xs : List β}
    (h : ∀ x ∈ xs, f x = .ok (g x)) : xs.mapM f = .ok (xs.map g) := by
  rw [mapM_ok_iff, List.forall₂_map_right_iff, List.forall₂_same]
  exact h

/-- What can be read off every result can be read off the list of them. -/
theorem mapM_map {δ : Type} {f : β → Except ε γ} {g : γ → δ} {r : β → δ} {xs : List β}
    {cs : List γ} (h : xs.mapM f = .ok cs) (hg : ∀ x c, f x = .ok c → g c = r x) :
    cs.map g = xs.map r := by
  have heq : List.Forall₂ Eq (cs.map g) (xs.map r) := by
    rw [List.forall₂_map_left_iff, List.forall₂_map_right_iff]
    exact ((mapM_ok_iff.mp h).imp hg).flip
  rwa [List.forall₂_eq_eq_eq] at heq

theorem mapM_err {f : β → Except ε γ} {xs : List β} (h : xs.mapM f = .error e) :
    ∃ x ∈ xs, f x = .error e := by
  induction xs with
  | nil => cases h
  | cons x xs ih =>
    rw [List.mapM_cons] at h
    rcases andThen_err.mp h with hx | ⟨c, _, h⟩
    · exact ⟨x, by simp, hx⟩
    rcases andThen_err.mp h with hxs | ⟨ds, _, h⟩
    · obtain ⟨y, hy, hfault⟩ := ih hxs
      exact ⟨y, by simp [hy], hfault⟩
    · cases h

end

/-! ## Values, rows and systems -/

/-- Every finite value has a text, unless fewer than no decimals are asked for, or too many. -/
theorem partText_ne_error {places : Int} (hplaces : 0 ≤ places ∧ places ≤ maxPlaces)
    {negative : Bool} {num den : Nat} {e : Fault} :
    partText places negative num den ≠ .error e := by
  unfold partText
  simp only [Int.not_lt.mpr hplaces.1, Int.not_lt.mpr hplaces.2, if_false]
  split
  · exact nofun
  · exact nofun

variable {α : Type} [Scalar α] {n : Nat} {e : Fault}

namespace Complex

variable {a : Complex α} {grouped : Bool} {places : Int}

theorem textWith_ok {t : String} (h : a.textWith grouped places = .ok t) :
    (∃ u, Scalar.text places a.re = .ok u) ∧ ∃ v, Scalar.text places a.im = .ok v := by
  obtain ⟨u, hu, h⟩ := andThen_ok.mp h
  obtain ⟨v, hv, _⟩ := andThen_ok.mp h
  exact ⟨⟨u, hu⟩, v, hv⟩

theorem textWith_err (h : a.textWith grouped places = .error e) :
    Scalar.text places a.re = .error e ∨ Scalar.text places a.im = .error e := by
  rcases andThen_err.mp h with hu | ⟨u, _, h⟩
  · exact .inl hu
  rcases andThen_err.mp h with hv | ⟨v, _, h⟩
  · exact .inr hv
  · cases h

end Complex

namespace Row

variable {r : Row α n}

theorem text_ok {t : String} (h : r.text = .ok t) (j : Fin (n + 1)) :
    ∃ u, (r.get j).text = .ok u := by
  obtain ⟨ts, hts, _⟩ := andThen_ok.mp h
  refine mapM_ok hts _ ?_
  rw [Vector.mem_toList_iff]
  exact Vector.getElem_mem j.isLt

theorem text_err (h : r.text = .error e) : ∃ j, (r.get j).text = .error e := by
  rcases andThen_err.mp h with hts | ⟨_, _, h⟩
  · obtain ⟨a, ha, hfault⟩ := mapM_err hts
    obtain ⟨j, hj, rfl⟩ := Vector.getElem_of_mem (Vector.mem_toList_iff.mp ha)
    exact ⟨⟨j, hj⟩, hfault⟩
  · cases h

end Row

namespace System

variable {m : System α n}

theorem text_ok {t : String} (h : m.text = .ok t) (i : Fin n) (j : Fin (n + 1)) :
    ∃ u, (m.term i j).text = .ok u := by
  obtain ⟨ts, hts, _⟩ := andThen_ok.mp h
  obtain ⟨u, hu⟩ := mapM_ok hts (m.row i) (by simp [toList_rows])
  exact Row.text_ok hu j

theorem text_err (h : m.text = .error e) : ∃ i j, (m.term i j).text = .error e := by
  rcases andThen_err.mp h with hts | ⟨_, _, h⟩
  · obtain ⟨r, hr, hfault⟩ := mapM_err hts
    rw [toList_rows] at hr
    obtain ⟨i, _, rfl⟩ := List.mem_map.mp hr
    exact ⟨i, Row.text_err hfault⟩
  · cases h

theorem constants_err (h : m.constants.toList.mapM Complex.text = .error e) :
    ∃ i, (m.term i (Fin.last n)).text = .error e := by
  obtain ⟨a, ha, hfault⟩ := mapM_err h
  obtain ⟨i, hi, rfl⟩ := Vector.getElem_of_mem (Vector.mem_toList_iff.mp ha)
  refine ⟨⟨i, hi⟩, ?_⟩
  rw [constants, Vector.getElem_map] at hfault
  exact hfault

end System

/-! ## Operations -/

/-- The factor by which an operation multiplies a row. -/
def Operation.factor? : Operation α n → Option (Complex α)
  | .scale factor _ => some factor
  | .addScaled factor _ _ => some factor
  | _ => none

theorem Operation.text_err {op : Operation α n} (h : op.text = .error e) :
    ∃ factor, op.factor? = some factor ∧ factor.factorText = .error e := by
  cases op with
  | swapRows i j => cases h
  | swapColumns i j => cases h
  | scale factor i =>
    rcases andThen_err.mp h with hf | ⟨_, _, h⟩
    · exact ⟨factor, rfl, hf⟩
    · cases h
  | addScaled factor i j =>
    rcases andThen_err.mp h with hf | ⟨_, _, h⟩
    · exact ⟨factor, rfl, hf⟩
    · cases h

/-! ## The check of a solution -/

variable {tol : α} {x : Vector (Complex α) n}

theorem verifyRow_ok {number : Nat} {r : Row α n} {step : Step}
    (h : verifyRow tol x number r = .ok step) : ∃ left, (r.leftSide x).text = .ok left := by
  obtain ⟨left, hleft, _⟩ := andThen_ok.mp h
  exact ⟨left, hleft⟩

theorem verifyRow_err {number : Nat} {r : Row α n} (h : verifyRow tol x number r = .error e) :
    (r.leftSide x).text = .error e ∨ ∃ j, (r.get j).text = .error e := by
  rcases andThen_err.mp h with hleft | ⟨_, _, h⟩
  · exact .inl hleft
  rcases andThen_err.mp h with hright | ⟨_, _, h⟩
  · exact .inr ⟨Fin.last n, hright⟩
  rcases andThen_err.mp h with hrow | ⟨_, _, h⟩
  · exact .inr (Row.text_err hrow)
  · cases h

namespace System

variable {m : System α n}

/-- A verdict is given only if every left-hand side can be written. -/
theorem verify_leftSide {verdict : Verdict} (h : m.verify tol x = .ok verdict) (i : Fin n) :
    ∃ left, ((m.row i).leftSide x).text = .ok left := by
  obtain ⟨steps, hsteps, _⟩ := andThen_ok.mp h
  have hrow : m.row i ∈ m.rows.toList := by simp [toList_rows]
  obtain ⟨k, hk, hi⟩ := List.getElem_of_mem hrow
  have hmem : (m.row i, 1 + k) ∈ m.rows.toList.zipIdx 1 := by
    rw [List.mk_add_mem_zipIdx_iff_getElem?, List.getElem?_eq_getElem hk, hi]
  obtain ⟨step, hstep⟩ := mapM_ok hsteps _ hmem
  exact verifyRow_ok hstep

theorem verify_err (h : m.verify tol x = .error e) :
    ∃ i, ((m.row i).leftSide x).text = .error e ∨ ∃ j, (m.term i j).text = .error e := by
  rcases andThen_err.mp h with hsteps | ⟨_, _, h⟩
  · obtain ⟨⟨r, k⟩, hmem, hfault⟩ := mapM_err hsteps
    have hr : r ∈ m.rows.toList := List.fst_mem_of_mem_zipIdx hmem
    rw [toList_rows] at hr
    obtain ⟨i, _, rfl⟩ := List.mem_map.mp hr
    exact ⟨i, verifyRow_err hfault⟩
  · cases h

end System

end GaussJordan
