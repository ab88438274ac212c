import GaussJordan.Proofs.Course
import GaussJordan.Proofs.ReducedForm

/-!
# GaussJordan.Proofs.FiniteRun

A run over binary64 numbers goes no further than the first infinity or NaN.

No part of the reduction asks whether a term is finite. But every operation is followed by a picture
of the system, and a picture shows finite terms only. So a state is left behind only if all its
terms are finite, the first one included (`Sound`). Where a term is not, the run raises with nothing
more recorded, and a report tells of finite values alone (`solve_states_finite`).
-/

namespace GaussJordan

variable {n : Nat}

theorem Operation.isFinite_factor {op : Operation Double n} {text : String}
    {factor : Complex Double} (h : op.text = .ok text) (hfactor : op.factor? = some factor) :
    factor.IsFinite := by
  cases op with
  | swapRows i j => cases hfactor
  | swapColumns i j => cases hfactor
  | scale f i =>
    cases hfactor
    obtain ⟨_, hf, _⟩ := andThen_ok.mp h
    exact Complex.isFinite_of_textWith hf
  | addScaled f i j =>
    cases hfactor
    obtain ⟨_, hf, _⟩ := andThen_ok.mp h
    exact Complex.isFinite_of_textWith hf

namespace Reduction

variable {m : System Double n} {s t : Reduction Double n} {e : Fault}

/-- Either the input is as it was given and has not been shown, or it is finite and so is what has
become of it. -/
inductive Sound (m : System Double n) (s : Reduction Double n) : Prop where
  | unshown : s.notes.size = 0 → s.system = m → s.recorded = [] → Sound m s
  | shown : 0 < s.notes.size → m.IsFinite → s.system.IsFinite → Sound m s

namespace Sound

theorem start (m : System Double n) : Sound m { system := m } := .unshown rfl rfl rfl

theorem isFinite (h : Sound m s) (hs : 0 < s.notes.size) : m.IsFinite ∧ s.system.IsFinite := by
  cases h with
  | unshown hzero _ _ => omega
  | shown _ hm hfinite => exact ⟨hm, hfinite⟩

theorem of_isFinite (h : Sound m s) (hm : m.IsFinite) : s.system.IsFinite := by
  cases h with
  | unshown _ hsystem _ =>
    rw [hsystem]
    exact hm
  | shown _ _ hfinite => exact hfinite

/-- A step leads on only from a finite system or to a picture of one. -/
theorem advance (h : Advance s t) (hs : Sound m s) : Sound m t := by
  cases h with
  | emit record _ =>
    cases hs with
    | unshown hzero hsystem hrecorded => exact .unshown hzero hsystem hrecorded
    | shown hpos hm hfinite => exact .shown hpos hm hfinite
  | enter stage hnoted _ _ =>
    obtain ⟨hm, hfinite⟩ := hs.isFinite hnoted
    exact .shown hnoted hm hfinite
  | note note _ hp =>
    have hfinite := System.isFinite_of_text hp
    have hm : m.IsFinite := by
      cases hs with
      | unshown _ hsystem _ =>
        rw [← hsystem]
        exact hfinite
      | shown _ hm _ => exact hm
    exact .shown (by simp) hm hfinite
  | perform op note hnoted _ _ hp =>
    exact .shown (by simp) (hs.isFinite hnoted).1 (System.isFinite_of_text hp)
  | undo entry rest hnoted _ _ =>
    obtain ⟨hm, hfinite⟩ := hs.isFinite hnoted
    refine .shown hnoted hm ?_
    cases entry with
    | own i j => exact System.isFinite_swapColumns hfinite i j
    | other text => exact hfinite

end Sound

/-- Before the input was shown, a run raises as it is. -/
theorem Halted.eq_of_unshown (h : Halted e s t) (hs : s.notes.size = 0) : t = s := by
  cases h with
  | between => rfl
  | unwritten op hnoted | unpictured op text hnoted => omega

/-- If a state has a term that is not finite, the run raises as it left that state. -/
theorem Passes.raises {us : List (Reduction Double n)} {β : Type} {result : Except Fault β}
    (h : Passes { system := m } us result t) (hshown : ∀ b, result = .ok b → 0 < t.notes.size)
    {u : Reduction Double n} (hu : u ∈ ({ system := m } : Reduction Double n) :: us)
    (hinfinite : ¬u.system.IsFinite) :
    (∃ e, result = .error e) ∧ t.recorded = u.recorded ∧ t.system = u.system := by
  have hsound : ∀ vs, List.IsChain Advance ({ system := m } :: vs) →
      ∀ v ∈ ({ system := m } : Reduction Double n) :: vs, Sound m v :=
    fun vs hvs => hvs.induction (Sound m) _ (fun _ _ => Sound.advance) fun _ => .start m
  cases h with
  | @returned us t b hchain hlast =>
    have ht := hsound _ hchain t (hlast ▸ List.getLast_mem _)
    exact absurd ((hsound _ hchain u hu).of_isFinite (ht.isFinite (hshown b rfl)).1) hinfinite
  | @raised us v t e hchain hlast hhalt =>
    refine ⟨⟨e, rfl⟩, ?_⟩
    rcases List.mem_append.mp (List.cons_append ▸ hu) with hu | hu
    · -- the input itself is not finite, so nothing was shown or done before the run raised
      have hm : ¬m.IsFinite := fun hm => hinfinite ((hsound _ hchain u hu).of_isFinite hm)
      have hunshown : ∀ v ∈ ({ system := m } : Reduction Double n) :: us,
          v.notes.size = 0 ∧ v.system = m ∧ v.recorded = [] := fun v hv => by
        cases hsound _ hchain v hv with
        | unshown hzero hsystem hrecorded => exact ⟨hzero, hsystem, hrecorded⟩
        | shown _ hfinite _ => exact absurd hfinite hm
      obtain ⟨hzero, hsystem, hrecorded⟩ := hunshown v (hlast ▸ List.getLast_mem _)
      obtain ⟨_, hsystem', hrecorded'⟩ := hunshown u hu
      rw [hhalt.eq_of_unshown hzero, hrecorded, hrecorded', hsystem, hsystem']
      exact ⟨rfl, rfl⟩
    · obtain rfl := List.mem_singleton.mp hu
      exact ⟨rfl, rfl⟩

end Reduction

/-- A run passes through finite states only, until it raises where it left the first one that is
not. So if it returns, the input, what became of it by every recorded operation, the factors and the
solution are all finite.

The states `us` are given by their steps. The last one fixes them, up to what is logged in between
and when a stage is entered: a step adds at most one operation to the record and one note to the
notes, and takes none away, and the stage at the end says which stages there were. -/
theorem System.solve_states_finite (m : System Double n) (verify : Bool)
    (verifyTolerance : Double) :
    ∃ us, ∃ (result : Except Fault (Report Double n)) (run : Reduction Double n),
      m.solve verify verifyTolerance = (result, run) ∧
      Reduction.Passes { system := m } us result run ∧
      (∀ ops, ops <+: run.recorded →
        ∃ u ∈ ({ system := m } : Reduction Double n) :: us, u.recorded = ops) ∧
      (∀ op ∈ run.recorded, ∀ factor, op.factor? = some factor → factor.IsFinite) ∧
      (∀ u ∈ ({ system := m } : Reduction Double n) :: us, ¬u.system.IsFinite →
        (∃ e, result = .error e) ∧ run.recorded = u.recorded ∧ run.system = u.system) ∧
      ∀ report, result = .ok report → m.IsFinite ∧
        (∀ u ∈ ({ system := m } : Reduction Double n) :: us, u.system.IsFinite) ∧
        ∀ x, report.solution = some x → ∀ a ∈ x, a.IsFinite := by
  obtain ⟨us, hpasses⟩ := m.solve_passes verify verifyTolerance
  have hlabelled := hpasses.invariant (fun _ _ => Reduction.Advance.labelled)
    (fun _ _ _ => Reduction.Halted.labelled) (by simp [Reduction.Labelled]) _ hpasses.final_mem
  have hconcluded : ∀ report, (m.solve verify verifyTolerance).1 = .ok report →
      Reduction.Concluded ⟨verify, verifyTolerance, m⟩ report (m.solve verify verifyTolerance).2 :=
    fun report hreport => System.solve_concluded (Prod.ext hreport rfl)
  have hraises := fun u => hpasses.raises (u := u) fun report h => (hconcluded report h).shown.noted
  refine ⟨us, _, _, rfl, hpasses, fun _ => hpasses.exists_recorded rfl, ?_, hraises, ?_⟩
  · intro op hop factor hfactor
    obtain ⟨entry, hentry, rfl⟩ := List.mem_map.mp hop
    exact Operation.isFinite_factor (hlabelled entry (Array.mem_toList_iff.mp hentry)) hfactor
  · intro report hreport
    have hall : ∀ u ∈ ({ system := m } : Reduction Double n) :: us, u.system.IsFinite := by
      intro u hu
      by_contra hinfinite
      obtain ⟨⟨e, herror⟩, _⟩ := hraises u hu hinfinite
      cases hreport.symm.trans herror
    refine ⟨hall { system := m } (by simp), hall, fun x hx a ha => ?_⟩
    have hanswer := (hconcluded report hreport).answer
    rw [hx] at hanswer
    rw [hanswer.eq_constants] at ha
    obtain ⟨i, hi, rfl⟩ := Vector.getElem_of_mem ha
    have hlast := hall _ hpasses.final_mem ⟨i, hi⟩ (Fin.last n)
    rw [System.constants, Vector.getElem_map]
    exact hlast

end GaussJordan
