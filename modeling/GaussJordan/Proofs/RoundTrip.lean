import GaussJordan.Proofs.Grids
import GaussJordan.Proofs.Overflow
import GaussJordan.Proofs.TickRounding

/-!
# GaussJordan.Proofs.RoundTrip

The text of a system of finite binary64 numbers, below its size, is read as a system whose parts
are at most `10 ^ -10` away from the ones that were written. Written again it gives the same text
(`System.text_reread`).
-/

namespace GaussJordan

open Decimal

/-! ## Parts -/

namespace Double

/-- Two finite numbers whose exact values are at most `bound` apart. -/
def Within (bound : Rat) (x y : Double) : Prop :=
  ∃ p q, x.toRat? = some p ∧ y.toRat? = some q ∧ |p - q| ≤ bound

end Double

theorem Quantity.ofTicks_signedUnits (s : Bool) (n : Nat) :
    ofTicks (Double.signedUnits s n) = if s then (ofSize n).neg else ofSize n := by
  by_cases h0 : n = 0
  · subst h0
    have hzero : ofSize 0 = .exact 0 := ofTicks_zero
    rw [Double.signedUnits_eq_zero_iff.mpr rfl, ofTicks_zero, hzero]
    cases s
    · rfl
    · rw [if_pos rfl, neg, neg_zero]
  · have hs := Double.signedUnits_neg_iff (s := s) h0
    rw [ofTicks, Double.natAbs_signedUnits]
    cases s with
    | false => rw [if_neg (of_decide_eq_false hs), if_neg Bool.false_ne_true]
    | true => rw [if_pos (of_decide_eq_true hs), if_pos rfl]

theorem Quantity.units?_ofTicks {s : Bool} {n j : Nat}
    (h : (ofSize n).toDouble.units? = some (j : Int)) :
    (ofTicks (Double.signedUnits s n)).toDouble.units? = some (Double.signedUnits s j) := by
  rw [ofTicks_signedUnits]
  cases s with
  | false =>
    rw [if_neg Bool.false_ne_true, h]
    rfl
  | true =>
    rw [if_pos rfl, units?_toDouble_neg, h]
    rfl

namespace Double

/-- The number that the text of a number is read as. -/
def reread (x : Double) : Double := (Quantity.ofTicks (ticks (x.units?.getD 0))).toDouble

variable {x : Double}

/-- It has the same text, and it is at most one tick away. -/
theorem reread_spec {i : Int} (h : x.units? = some i) :
    ∃ j, x.reread.units? = some j ∧ ticks j = ticks i ∧ Within (1 / 10 ^ 10) x.reread x := by
  obtain ⟨j, hj, hround⟩ := units?_ofSize (representable_of_units? h) rfl
  have hunits : x.reread.units? = some (signedUnits (decide (i < 0)) j) := by
    rw [reread, h, Option.getD_some, ticks]
    exact Quantity.units?_ofTicks hj
  refine ⟨_, hunits, ?_, _, _, toRat?_of_units? hunits, toRat?_of_units? h, ?_⟩
  · rw [ticks_signedUnits, hround, ticks]
  · have hticks : (1 : Rat) / ticksPerOne = 1 / 10 ^ 10 := by norm_num [ticksPerOne]
    have hdistance := abs_signedUnits_sub (decide (i < 0)) j i.natAbs unitsPerOne unitsPerOne
    rw [signedUnits_natAbs] at hdistance
    rw [hdistance, ← hticks]
    exact near_of_ticks_eq hround

theorem isFinite_reread (h : x.isFinite = true) : x.reread.isFinite = true := by
  obtain ⟨i, hi⟩ := isFinite_iff.mp h
  obtain ⟨j, hj, -⟩ := reread_spec hi
  exact isFinite_iff.mpr ⟨j, hj⟩

end Double

/-! ## Terms -/

namespace Complex

/-- The text of a finite value. -/
def token (a : Complex Double) : String :=
  String.ofList (joinParts false (ticksText (Double.ticks (a.re.units?.getD 0)))
    (ticksText (Double.ticks (a.im.units?.getD 0))))

/-- The value that the text of a value is read as. -/
def reread (a : Complex Double) : Complex Double := ⟨a.re.reread, a.im.reread⟩

theorem words_token (a : Complex Double) : Text.words a.token.toList = [a.token.toList] := by
  rw [token, String.toList_ofList, Text.words_of_word (Literal.isWord_joinParts _ _)]

variable {a : Complex Double} (h : a.IsFinite)
include h

theorem text_of_isFinite : a.text = .ok a.token := by
  obtain ⟨i, j, hi, hj⟩ := isFinite_iff.mp h
  have hre : Scalar.text 10 a.re = .ok (ticksText (Double.ticks i)) := Double.text_of_units? hi
  have him : Scalar.text 10 a.im = .ok (ticksText (Double.ticks j)) := Double.text_of_units? hj
  rw [text, textWith, hre, him, token, hi, hj]
  rfl

theorem isFinite_reread : a.reread.IsFinite := by
  constructor
  · simp only [reread, Double.isFinite_reread h.re]
  · simp only [reread, Double.isFinite_reread h.im]

theorem token_reread : a.reread.token = a.token := by
  obtain ⟨i, j, hi, hj⟩ := isFinite_iff.mp h
  obtain ⟨i', hi', hre, -⟩ := Double.reread_spec hi
  obtain ⟨j', hj', him, -⟩ := Double.reread_spec hj
  rw [token, token, reread, hi', hj', hi, hj]
  simp only [Option.getD_some, hre, him]

theorem readValue_token : readValue a.token = .ok a.reread := by
  obtain ⟨i, j, hi, hj⟩ := isFinite_iff.mp h
  have hlength : ∀ {x : Double} {k : Int}, x.units? = some k →
      (digits ((Double.ticks k).natAbs / ticksPerOne)).length ≤ Numeral.maxDigits := by
    intro x k hk
    rw [Double.ticks, Double.natAbs_signedUnits]
    exact length_digits_ones (Double.representable_of_units? hk)
  have hvalue : (Literal.ofTicks (Double.ticks i) (Double.ticks j)).value =
      .ok (a.re.reread, a.im.reread) := by
    have hre := Double.isFinite_reread h.re
    have him := Double.isFinite_reread h.im
    have hparts := Literal.parts_ofTicks (hlength hi) (hlength hj)
    rw [Double.reread, hi, Option.getD_some] at hre ⊢
    rw [Double.reread, hj, Option.getD_some] at him ⊢
    exact Literal.value_of_parts hparts hre him
  rw [token, hi, hj]
  exact Literal.readValue_joinParts hvalue

end Complex

/-! ## Systems -/

namespace System

variable {n : Nat}

/-- The texts of the terms of a finite system, row by row. -/
def tokens (m : System Double n) : List (List String) :=
  m.rows.toList.map fun r => r.toList.map Complex.token

/-- The system that the text of a system is read as. -/
def reread (tolerance : Double) (m : System Double n) : System Double n :=
  ⟨tolerance, m.rows.map fun r => r.map Complex.reread⟩

theorem term_reread (tolerance : Double) (m : System Double n) (i : Fin n) (j : Fin (n + 1)) :
    (m.reread tolerance).term i j = (m.term i j).reread := by
  simp [term, row, reread]

variable {m : System Double n} (h : m.IsFinite)
include h

theorem isFinite_of_mem {r : Row Double n} (hr : r ∈ m.rows.toList) {a : Complex Double}
    (ha : a ∈ r.toList) : a.IsFinite := by
  rw [toList_rows] at hr
  obtain ⟨i, -, rfl⟩ := List.mem_map.mp hr
  obtain ⟨j, hj, rfl⟩ := Vector.getElem_of_mem (Vector.mem_toList_iff.mp ha)
  exact h i ⟨j, hj⟩

theorem text_of_isFinite :
    m.text = .ok ("\n".intercalate (m.tokens.map (" ".intercalate ·))) := by
  have hrow : ∀ r ∈ m.rows.toList,
      r.text = .ok (" ".intercalate (r.toList.map Complex.token)) := by
    intro r hr
    rw [Row.text, mapM_of_ok fun a ha => Complex.text_of_isFinite (isFinite_of_mem h hr ha)]
    rfl
  rw [text, mapM_of_ok hrow, tokens, List.map_map]
  rfl

theorem tokens_reread (tolerance : Double) : (m.reread tolerance).tokens = m.tokens := by
  simp only [tokens, reread, Vector.toList_map, List.map_map]
  refine List.map_congr_left fun r hr => ?_
  simp only [Function.comp_apply, Vector.toList_map, List.map_map]
  exact List.map_congr_left fun a ha => Complex.token_reread (isFinite_of_mem h hr ha)

theorem isFinite_reread (tolerance : Double) : (m.reread tolerance).IsFinite := by
  intro i j
  rw [term_reread]
  exact Complex.isFinite_reread (h i j)

omit h in
theorem words_text (m : System Double n) :
    Text.words (digits n ++ '\n' :: ("\n".intercalate (m.tokens.map (" ".intercalate ·))).toList) =
      digits n :: m.tokens.flatten.map String.toList := by
  have hrow : ∀ ts ∈ m.tokens, Text.words (" ".intercalate ts).toList = ts.map String.toList := by
    intro ts hts
    obtain ⟨r, -, rfl⟩ := List.mem_map.mp hts
    rw [String.toList_intercalate, show " ".toList = [' '] from rfl,
      Text.words_intercalate (by decide), List.map_map, List.flatMap_map]
    simp only [Function.comp_apply, Complex.words_token]
    exact List.map_eq_flatMap.symm
  rw [Text.words_append_cons (by decide), Text.words_of_word (isWord_digits n),
    String.toList_intercalate, show "\n".toList = ['\n'] from rfl,
    Text.words_intercalate (by decide), List.map_map, List.flatMap_map, List.map_flatten,
    ← List.flatMap_def]
  exact congrArg (digits n :: ·) (List.flatMap_congr hrow)

/-- The text of a finite system below its size is read as a system. -/
theorem ofText_text (hpos : 1 ≤ n) (hsize : (digits n).length ≤ Numeral.maxDigits)
    (tolerance : Double) :
    SizedSystem.ofText
        (digits n ++ '\n' :: ("\n".intercalate (m.tokens.map (" ".intercalate ·))).toList)
        tolerance = (.ok ⟨n, m.reread tolerance⟩, []) := by
  have hcount : m.tokens.length = n := by simp [tokens]
  have hwidth : ∀ row ∈ m.tokens, row.length = n + 1 := by
    intro row hrow
    obtain ⟨r, -, rfl⟩ := List.mem_map.mp hrow
    simp
  have hvalues : (m.tokens.map SizedSystem.tokenRow).mapM SizedSystem.rowValues =
      .ok (m.rows.toList.map fun r => (r.map Complex.reread).toList) := by
    rw [tokens, List.map_map, List.mapM_map]
    refine mapM_of_ok fun r hr => ?_
    rw [Function.comp_apply, Function.comp_apply, SizedSystem.rowValues_tokenRow, List.mapM_map,
      Vector.toList_map]
    refine mapM_of_ok fun a ha => ?_
    rw [Function.comp_apply, Complex.readValue_token (isFinite_of_mem h hr ha)]
  have hgrid : (m.rows.toList.map fun r => (r.map Complex.reread).toList) =
      (m.reread tolerance).rows.toList.map Vector.toList := by
    rw [reread, Vector.toList_map, List.map_map]
    rfl
  have hbuild : SizedSystem.build n (m.tokens.map SizedSystem.tokenRow) tolerance =
      .ok ⟨n, m.reread tolerance⟩ :=
    andThen_ok.mpr ⟨_, hvalues, SizedSystem.ofRows_ok_iff.mpr ⟨hpos, rfl, rfl, hgrid⟩⟩
  rw [SizedSystem.ofText_of_words hpos hsize hcount hwidth (words_text m), hbuild]

end System

/-- Writing a finite system and reading the text back is stable. The text, below the size, is read
without a warning as a system whose parts are at most `10 ^ -10` away from those written, and which
has the same text. The size has to be one that can be written: integers of more digits than
`Numeral.maxDigits` have no text. That is every size a system in memory has, since its rows are
fewer than `2 ^ 64`. -/
theorem System.text_reread {n : Nat} (hpos : 1 ≤ n)
    (hsize : (digits n).length ≤ Numeral.maxDigits) {m : System Double n} (hm : m.IsFinite)
    (tolerance : Double) :
    ∃ (t : String) (s : System Double n), m.text = .ok t ∧
      SizedSystem.ofText (digits n ++ '\n' :: t.toList) tolerance = (.ok ⟨n, s⟩, []) ∧
      (∀ i j, Double.Within (1 / 10 ^ 10) (s.term i j).re (m.term i j).re ∧
        Double.Within (1 / 10 ^ 10) (s.term i j).im (m.term i j).im) ∧
      s.text = .ok t := by
  refine ⟨_, m.reread tolerance, text_of_isFinite hm, ofText_text hm hpos hsize tolerance, ?_, ?_⟩
  · intro i j
    obtain ⟨k, l, hk, hl⟩ := Complex.isFinite_iff.mp (hm i j)
    obtain ⟨_, -, -, hre⟩ := Double.reread_spec hk
    obtain ⟨_, -, -, him⟩ := Double.reread_spec hl
    simp only [term_reread, Complex.reread]
    exact ⟨hre, him⟩
  · rw [text_of_isFinite (isFinite_reread hm tolerance), tokens_reread hm]

/-- `x / 3 = -1234567.8901 + i`. -/
def oneThird : System Double 1 where
  tolerance := defaultTolerance
  rows := #v[#v[⟨.ofRatio false 1 3, .zero⟩, ⟨.ofRatio true 12345678901 10000, .one⟩]]

theorem System.text_reread_oneThird :
    1 ≤ 1 ∧ (digits 1).length ≤ Numeral.maxDigits ∧ oneThird.IsFinite ∧
      ∃ (t : String) (s : System Double 1), oneThird.text = .ok t ∧
        SizedSystem.ofText (digits 1 ++ '\n' :: t.toList) defaultTolerance = (.ok ⟨1, s⟩, []) ∧
        (∀ i j, Double.Within (1 / 10 ^ 10) (s.term i j).re (oneThird.term i j).re ∧
          Double.Within (1 / 10 ^ 10) (s.term i j).im (oneThird.term i j).im) ∧
        s.text = .ok t := by
  have hfinite : oneThird.IsFinite := by decide +kernel
  have hsize : (digits 1).length ≤ Numeral.maxDigits := by decide
  exact ⟨le_rfl, hsize, hfinite, System.text_reread le_rfl hsize hfinite defaultTolerance⟩

end GaussJordan
