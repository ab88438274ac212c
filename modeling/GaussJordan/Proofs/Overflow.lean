import GaussJordan.Proofs.DoubleRange
import GaussJordan.Proofs.Faults
import GaussJordan.System.Reading

/-!
# GaussJordan.Proofs.Overflow

The faults of a run over binary64 numbers, infinities and NaN among them.

Of the causes that a fault can have over any scalar type, only those remain that begin with a number
beyond the finite range: a term that cannot be written, or a pivot whose square overflows
(`Blocked.overflowed`). A division by zero is not among them: a pivot is one or not within the
tolerance, and then the sum of the squares of its parts is not zero, provided the square of the
tolerance is not (`Complex.div_fault`). So a run ends with a report or overflows (`solve_ends`).
-/

namespace GaussJordan

/-- An infinity or a NaN was to be written. -/
def Fault.Unwritable (e : Fault) : Prop := e = .infiniteText ∨ e = .nanText

/-- The tolerance is positive and so is its square, which may be rounded to zero. -/
structure Double.PositiveSquare (tol : Double) : Prop where
  pos : Double.lt .zero tol = true
  square_pos : Double.lt .zero (tol.mul tol) = true

theorem positiveSquare_defaultTolerance : defaultTolerance.PositiveSquare := by
  constructor <;> decide +kernel

variable {tol : Double} {e : Fault}

/-! ## Complex values -/

namespace Complex

variable {a b : Complex Double}

structure IsFinite (a : Complex Double) : Prop where
  re : a.re.isFinite = true
  im : a.im.isFinite = true

instance (a : Complex Double) : Decidable a.IsFinite :=
  decidable_of_iff (a.re.isFinite = true ∧ a.im.isFinite = true)
    ⟨fun h => ⟨h.1, h.2⟩, fun h => ⟨h.re, h.im⟩⟩

/-- The square of a part is beyond the finite range, though the part is not. -/
def SquareOverflows (a : Complex Double) : Prop := a.re.SquareOverflows ∨ a.im.SquareOverflows

theorem isFinite_of_add (h : (a + b).IsFinite) : a.IsFinite ∧ b.IsFinite := by
  obtain ⟨har, hbr⟩ := Double.isFinite_of_add h.re
  obtain ⟨hai, hbi⟩ := Double.isFinite_of_add h.im
  exact ⟨⟨har, hai⟩, hbr, hbi⟩

/-- The real part of a product has products of the real parts and of the imaginary parts. -/
theorem isFinite_of_mul (h : (a * b).IsFinite) : a.IsFinite ∧ b.IsFinite := by
  obtain ⟨hre, him⟩ := Double.isFinite_of_sub h.re
  obtain ⟨har, hbr⟩ := Double.isFinite_of_mul hre
  obtain ⟨hai, hbi⟩ := Double.isFinite_of_mul him
  exact ⟨⟨har, hai⟩, hbr, hbi⟩

theorem isFinite_of_textWith {grouped : Bool} {places : Int} {t : String}
    (h : a.textWith grouped places = .ok t) : a.IsFinite := by
  obtain ⟨⟨_, hre⟩, _, him⟩ := textWith_ok h
  exact ⟨Double.text_ok hre, Double.text_ok him⟩

theorem textWith_fault {grouped : Bool} {places : Int} (hplaces : 0 ≤ places ∧ places ≤ maxPlaces)
    (h : a.textWith grouped places = .error e) : e.Unwritable ∧ ¬a.IsFinite := by
  rcases textWith_err h with hre | him
  · obtain ⟨he, hinf⟩ := Double.text_err hplaces hre
    exact ⟨he, fun ha => by simp [ha.re] at hinf⟩
  · obtain ⟨he, hinf⟩ := Double.text_err hplaces him
    exact ⟨he, fun ha => by simp [ha.im] at hinf⟩

theorem text_fault (h : a.text = .error e) : e.Unwritable ∧ ¬a.IsFinite :=
  textWith_fault (by decide) h

theorem isZero_of_squares (htol : tol.PositiveSquare)
    (hre : (a.re.mul a.re).eq .zero = true) (him : (a.im.mul a.im).eq .zero = true) :
    a.isZero tol = true := by
  have hre := Double.le_of_square_eq_zero hre htol.pos htol.square_pos
  have him := Double.le_of_square_eq_zero him htol.pos htol.square_pos
  exact Bool.and_eq_true_iff.mpr ⟨hre, him⟩

/-- What can go wrong in a division by any value. -/
theorem div_err (h : a.div b = .error e) :
    (e = .squareOverflow ∧ b.SquareOverflows) ∨
      ((b.re.mul b.re).eq .zero = true ∧ (b.im.mul b.im).eq .zero = true) := by
  rcases andThen_err.mp h with hre | ⟨p, hp, h⟩
  · obtain ⟨he, hover⟩ := Double.square_err hre
    exact .inl ⟨he, .inl hover⟩
  rcases andThen_err.mp h with him | ⟨q, hq, h⟩
  · obtain ⟨he, hover⟩ := Double.square_err him
    exact .inl ⟨he, .inr hover⟩
  · obtain rfl := Double.square_ok hp
    obtain rfl := Double.square_ok hq
    simp only at h
    split at h
    · rename_i hzero
      exact .inr (Double.eq_zero_of_add_squares hzero)
    · cases h

/-- A division by a pivot fails only if a square overflows. -/
theorem div_fault (htol : tol.PositiveSquare) (hb : b = .one ∨ b.isZero tol = false)
    (h : a.div b = .error e) : e = .squareOverflow ∧ b.SquareOverflows := by
  rcases div_err h with hover | ⟨hre, him⟩
  · exact hover
  · exfalso
    rcases hb with rfl | hb
    · have hone : (Double.one.mul Double.one).eq .zero = false := by decide +kernel
      exact absurd (hone.symm.trans hre) (by decide)
    · rw [isZero_of_squares htol hre him] at hb
      cases hb

theorem inverse_fault (htol : tol.PositiveSquare) (ha : a.isZero tol = false)
    (h : a.inverse = .error e) : e = .squareOverflow ∧ a.SquareOverflows := by
  simp only [inverse] at h
  split at h
  · rename_i hzero
    obtain ⟨hre, him⟩ := Bool.and_eq_true_iff.mp hzero
    rw [isZero_of_squares htol (Double.square_eq_zero hre) (Double.square_eq_zero him)] at ha
    cases ha
  · exact div_fault htol (.inr ha) h

end Complex

/-! ## Systems -/

variable {n : Nat}

namespace System

variable {m : System Double n}

/-- No term is an infinity or a NaN. -/
def IsFinite (m : System Double n) : Prop := ∀ i j, (m.term i j).IsFinite

instance (m : System Double n) : Decidable m.IsFinite :=
  inferInstanceAs (Decidable (∀ i j, (m.term i j).IsFinite))

theorem isFinite_of_text {t : String} (h : m.text = .ok t) : m.IsFinite := by
  intro i j
  obtain ⟨_, hu⟩ := text_ok h i j
  exact Complex.isFinite_of_textWith hu

theorem text_fault (h : m.text = .error e) : e.Unwritable ∧ ¬m.IsFinite := by
  obtain ⟨i, j, hij⟩ := text_err h
  obtain ⟨he, hinf⟩ := Complex.text_fault hij
  exact ⟨he, fun hm => hinf (hm i j)⟩

end System

/-- A factor that is not finite leaves a constant term that is not. -/
theorem Operation.isFinite_of_apply {op : Operation Double n} {m : System Double n}
    {factor : Complex Double} (hop : op.factor? = some factor) (h : (op.apply m).IsFinite) :
    factor.IsFinite := by
  have hconst : ∀ k, (((op.apply m).row k).constant).IsFinite := fun k => h k (Fin.last n)
  cases op with
  | swapRows i j => cases hop
  | swapColumns i j => cases hop
  | scale f i =>
    cases hop
    have hi := hconst i
    rw [constant_apply_scale, if_pos rfl] at hi
    exact (Complex.isFinite_of_mul hi).2
  | addScaled f i j =>
    cases hop
    have hj := hconst j
    rw [constant_apply_addScaled, if_pos rfl] at hj
    exact (Complex.isFinite_of_mul (Complex.isFinite_of_add hj).2).2

namespace Reduction

variable {s t : Reduction Double n}

/-! ## Runs -/

/-- A number left the finite range: a term of the system, or the square of a pivot. -/
inductive Overflowed (e : Fault) (t : Reduction Double n) : Prop where
  | term : e.Unwritable → ¬t.system.IsFinite → Overflowed e t
  | square {pivot : Fin n} : e = .squareOverflow → t.system.IsFinite →
      (t.system.coefficient pivot pivot).SquareOverflows → Overflowed e t

theorem Blocked.overflowed (htol : tol.PositiveSquare) (h : Blocked tol e t) : Overflowed e t := by
  cases h with
  | picture hp =>
    obtain ⟨he, hinf⟩ := System.text_fault hp
    exact .term he hinf
  | factor hsys hop =>
    obtain ⟨factor, hf, htext⟩ := Operation.text_err hop
    obtain ⟨he, hinf⟩ := Complex.textWith_fault (by decide) htext
    refine .term he fun ht => hinf ?_
    rw [hsys] at ht
    exact Operation.isFinite_of_apply hf ht
  | inverse hs hzero hinv =>
    obtain ⟨_, hp⟩ := hs.picture
    obtain ⟨he, hover⟩ := Complex.inverse_fault htol hzero hinv
    exact .square he (System.isFinite_of_text hp) hover
  | quotient hs hpivot hdiv =>
    obtain ⟨_, hp⟩ := hs.picture
    obtain ⟨he, hover⟩ := Complex.div_fault htol hpivot hdiv
    exact .square he (System.isFinite_of_text hp) hover

/-- A run ends with a report, unless the square of a pivot overflows or an infinity or a NaN is to
be written. So no division is by zero, and a column brought in always has a row for the pivot. -/
theorem solve_ends (check : Check Double n) (s : Reduction Double n)
    (htol : s.system.tolerance.PositiveSquare) :
    (∃ report t, solve check s = .ok report t) ∨
      ∃ e t, solve check s = .error e t ∧
        ((e = .squareOverflow ∧ ∃ pivot, (t.system.coefficient pivot pivot).SquareOverflows) ∨
          e = .infiniteText ∨ e = .nanText) := by
  cases h : solve check s with
  | ok report t => exact .inl ⟨report, t, rfl⟩
  | error e t =>
    refine .inr ⟨e, t, rfl, ?_⟩
    rcases (solve_err h).blocked_or_text with hblocked | ⟨_, htext⟩
    · cases hblocked.overflowed htol with
      | term hunwritable _ => exact .inr hunwritable
      | square he _ hover => exact .inl ⟨he, _, hover⟩
    · exact .inr (Complex.text_fault htext).1

/-- `10 ^ 200 x = 1`, with a finite pivot whose square is not. -/
def hugePivot : System Double 1 where
  tolerance := defaultTolerance
  rows := #v[#v[.ofReal (.ofRatio false (Nat.pow 10 200) 1), .one]]

theorem solve_ends_hugePivot :
    hugePivot.tolerance.PositiveSquare ∧
      ∃ t, solve ⟨true, defaultVerifyTolerance, hugePivot⟩ { system := hugePivot } =
          .error .squareOverflow t ∧
        ∃ pivot, (t.system.coefficient pivot pivot).SquareOverflows := by
  have htol : hugePivot.tolerance.PositiveSquare := by
    simp only [hugePivot]
    exact positiveSquare_defaultTolerance
  have hrun : faultOf (solve ⟨true, defaultVerifyTolerance, hugePivot⟩) { system := hugePivot } =
      some .squareOverflow := by
    decide +kernel
  obtain ⟨t, h⟩ := faultOf_eq_some hrun
  refine ⟨htol, t, h, ?_⟩
  rcases solve_ends ⟨true, defaultVerifyTolerance, hugePivot⟩ { system := hugePivot } htol with
    ⟨_, _, hok⟩ | ⟨_, _, herr, ⟨_, hover⟩ | hinf | hnan⟩
  · cases h.symm.trans hok
  · cases h.symm.trans herr
    exact hover
  · cases h.symm.trans herr
    cases hinf
  · cases h.symm.trans herr
    cases hnan

end Reduction

end GaussJordan
