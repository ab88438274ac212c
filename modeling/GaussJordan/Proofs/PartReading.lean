import GaussJordan.Proofs.LiteralParts
import GaussJordan.Proofs.NearestDouble

/-!
# GaussJordan.Proofs.PartReading

The double that a literal of one part is read as.

A numeral with a point or an exponent is rounded to a precision that depends on how many digits it
has, and an exact quotient is cut off after 57 bits; only then the value becomes a double. So the
double is the nearest one to what the first step leaves. It is the nearest one to the value of the
literal too, unless the first step ends in the middle between two doubles and the other one is
nearer to the value (`readValue_decimal`, `readValue_quotient`).
-/

namespace GaussJordan

open Literal (tokenText)

/-- A value with the sign of a part. -/
def signed (negative : Bool) (q : Rat) : Rat := if negative then -q else q

section

variable {token : String} {negative imaginary : Bool} {q : Quotient} {size : Quantity} {v : Rat}

theorem Part.quantity_signed (h : q.quantity = .ok size) :
    (⟨negative, some q, imaginary⟩ : Part).quantity =
      .ok (if negative then size.neg else size) := by
  simp only [Part.quantity, h]
  rfl

theorem reachedBy_signed (hv : 0 ≤ v) (hrange : Double.InRange v)
    (hkept : SameSide 54 v size.kept ∨ size.kept = roundSignificant 53 v) :
    (if negative then size.neg else size).toDouble.isFinite = true ∧
      (if negative then size.neg else size).toDouble.ReachedBy (signed negative size.kept)
        (signed negative v) ∧
      (size.kept = roundSignificant 53 v →
        (if negative then size.neg else size).toDouble.IsNearest (signed negative v)) := by
  obtain ⟨u, hu, hreached, hexact⟩ := Quantity.reachedBy_toDouble hv hrange hkept
  cases negative with
  | false => exact ⟨Double.isFinite_iff.mpr ⟨u, hu⟩, hreached, hexact⟩
  | true =>
    have hneg : size.neg.toDouble.units? = some (-(u : Int)) := by
      rw [Quantity.units?_toDouble_neg, hu]
      rfl
    exact ⟨Double.isFinite_iff.mpr ⟨_, hneg⟩, hreached.neg hu hneg,
      fun h => (hexact h).neg hu hneg⟩

/-- A literal of one part is read, and the other part is zero. -/
theorem readValue_part
    (h : LiteralText (tokenText token) ⟨⟨negative, some q, imaginary⟩, none⟩)
    (hsize : q.quantity = .ok size) (hv : 0 ≤ v) (hrange : Double.InRange v)
    (hkept : SameSide 54 v size.kept ∨ size.kept = roundSignificant 53 v) :
    ∃ x, readValue token = .ok (if imaginary then ⟨.zero, x⟩ else ⟨x, .zero⟩) ∧
      x.ReachedBy (signed negative size.kept) (signed negative v) ∧
      (size.kept = roundSignificant 53 v → x.IsNearest (signed negative v)) := by
  have hreached := @reachedBy_signed negative size v hv hrange hkept
  generalize hx : (if negative then size.neg else size).toDouble = x at hreached
  obtain ⟨hfinite, hreached⟩ := hreached
  refine ⟨x, ?_, hreached⟩
  rw [readValue_eq_ok_iff h]
  cases imaginary with
  | false =>
    exact (Literal.value_real_iff rfl).mpr ⟨_, Part.quantity_signed hsize, hx, hfinite, rfl⟩
  | true =>
    exact (Literal.value_imaginary_iff rfl).mpr ⟨_, Part.quantity_signed hsize, hx, hfinite, rfl⟩

end

/-- A real literal of one part is read as the double of its quantity. -/
theorem readValue_of_quantity {token : String} {x : Part} {size : Quantity} {d : Rat}
    (h : LiteralText (tokenText token) ⟨x, none⟩) (hreal : x.imaginary = false)
    (hsize : x.quantity = .ok size) (hd : size.toDouble.toRat? = some d) :
    readValue token = .ok ⟨size.toDouble, .zero⟩ := by
  obtain ⟨i, hi, -⟩ := Double.toRat?_eq_some_iff.mp hd
  generalize hy : size.toDouble = y at hi
  rw [readValue_eq_ok_iff h]
  exact (Literal.value_real_iff hreal).mpr ⟨_, hsize, hy, Double.isFinite_iff.mpr ⟨i, hi⟩, rfl⟩

/-! ## Decimal numerals -/

namespace Numeral

theorem precisionBits_of_le {count : Nat} (h : count ≤ 15) : precisionBits count = 53 := by
  rw [precisionBits, Nat.max_eq_left h]
  decide

theorem le_precisionBits {count : Nat} (h : 15 < count) : 56 ≤ precisionBits count := by
  have hfirst : roundHalfEven (17 * 33219280948873626) (Nat.pow 10 16) = 56 := by decide
  have hten : 0 < Nat.pow 10 16 := Nat.pow_pos (by decide)
  rw [precisionBits, Nat.max_eq_right h.le, ← hfirst]
  refine roundHalfEven_mono hten hten (Nat.mul_le_mul_right _ (Nat.mul_le_mul_right _ ?_))
  omega

/-- The digits of the mantissa are scaled by the exponent, and by the digits behind the point. -/
theorem decimalValue_eq (x : Numeral) :
    x.decimalValue =
      natValue x.mantissa * 10 ^ (x.exponentValue - (x.fraction.getD []).length : Int) := by
  simp only [decimalValue]
  generalize x.exponentValue - ((x.fraction.getD []).length : Int) = shift
  generalize natValue x.mantissa = n
  split
  · rename_i h
    obtain ⟨k, rfl⟩ := Int.eq_ofNat_of_zero_le h
    rw [Int.toNat_natCast, Nat.pow_eq, zpow_natCast]
    push_cast
    rfl
  · rename_i h
    obtain ⟨k, hk⟩ := Int.eq_ofNat_of_zero_le (show 0 ≤ -shift by omega)
    rw [hk, Int.toNat_natCast, Rat.mkRat_eq_div, Nat.pow_eq, show shift = -(k : Int) by omega,
      zpow_neg, zpow_natCast, div_eq_mul_inv]
    push_cast
    rfl

theorem decimalValue_nonneg (x : Numeral) : 0 ≤ x.decimalValue := by
  rw [decimalValue_eq]
  exact mul_nonneg (Nat.cast_nonneg _) (zpow_nonneg (by norm_num) _)

end Numeral

/-- The value that a numeral with a point or an exponent is rounded to first. -/
def Numeral.rounded (x : Numeral) : Rat :=
  roundSignificant (precisionBits x.precisionDigits) x.decimalValue

theorem Numeral.quantity_of_not_isInteger {x : Numeral} (h : x.isInteger = false) :
    x.quantity = .ok (.rounded (precisionBits x.precisionDigits) x.rounded) := by
  rw [quantity, h]
  rfl

/-- A numeral with a point or an exponent is read as the double nearest to its rounded value. It is
the nearest one to the exact value unless another one is as near to the rounded value and nearer to
the exact one. That does not happen with up to fifteen digits. -/
theorem readValue_decimal {token : String} {negative : Bool} {n : Numeral}
    (h : LiteralText (tokenText token) ⟨⟨negative, some ⟨n, none⟩, false⟩, none⟩)
    (hpoint : n.isInteger = false) (hrange : Double.InRange n.decimalValue) :
    ∃ x, readValue token = .ok ⟨x, .zero⟩ ∧ x.IsNearest (signed negative n.rounded) ∧
      (x.IsNearest (signed negative n.decimalValue) ↔
        ¬x.Overtaken (signed negative n.rounded) (signed negative n.decimalValue)) ∧
      (n.precisionDigits ≤ 15 → x.IsNearest (signed negative n.decimalValue)) := by
  have hv := n.decimalValue_nonneg
  have hsize : (⟨n, none⟩ : Quotient).quantity = .ok (.rounded _ n.rounded) :=
    Numeral.quantity_of_not_isInteger hpoint
  have hfew : n.precisionDigits ≤ 15 → n.rounded = roundSignificant 53 n.decimalValue := by
    intro hcount
    rw [Numeral.rounded, Numeral.precisionBits_of_le hcount]
  have hkept : SameSide 54 n.decimalValue n.rounded ∨
      n.rounded = roundSignificant 53 n.decimalValue := by
    rcases Nat.lt_or_ge 15 n.precisionDigits with hmany | hcount
    · have hbits := Numeral.le_precisionBits hmany
      exact .inl ((sameSide_roundSignificant (by omega) hv).mono (by omega))
    · exact .inr (hfew hcount)
  obtain ⟨x, hread, hreached, hexact⟩ := readValue_part h hsize hv hrange hkept
  exact ⟨x, hread, hreached.nearest, hreached.nearest_iff, fun hcount => hexact (hfew hcount)⟩

/-- The numeral `.1234567890123456789`. -/
def nineteenDigits : Numeral :=
  ⟨[], some ['1', '2', '3', '4', '5', '6', '7', '8', '9', '0', '1', '2', '3', '4', '5', '6', '7',
    '8', '9'], none⟩

theorem readValue_decimal_nineteen :
    LiteralText (tokenText "-.1234567890123456789")
      ⟨⟨true, some ⟨nineteenDigits, none⟩, false⟩, none⟩ ∧
    nineteenDigits.isInteger = false ∧ Double.InRange nineteenDigits.decimalValue ∧
    ∃ x, readValue "-.1234567890123456789" = .ok ⟨x, .zero⟩ ∧
      x.IsNearest (signed true nineteenDigits.rounded) ∧
      (x.IsNearest (signed true nineteenDigits.decimalValue) ↔
        ¬x.Overtaken (signed true nineteenDigits.rounded)
          (signed true nineteenDigits.decimalValue)) ∧
      (nineteenDigits.precisionDigits ≤ 15 →
        x.IsNearest (signed true nineteenDigits.decimalValue)) := by
  have h : LiteralText (tokenText "-.1234567890123456789")
      ⟨⟨true, some ⟨nineteenDigits, none⟩, false⟩, none⟩ :=
    Literal.literalText_of_read? (by decide) rfl
  have hvalue : nineteenDigits.decimalValue = 1234567890123456789 / 10000000000000000000 := by
    decide +kernel
  have hrange : Double.InRange nineteenDigits.decimalValue := by
    rw [hvalue]
    refine Double.inRange_of_le (k := 4) (l := 1) (by decide) ?_ (by decide) ?_
    · norm_num
    · norm_num
  exact ⟨h, rfl, hrange, readValue_decimal h rfl hrange⟩

/-- The numeral `1.000000000000001`. -/
def sixteenDigits : Numeral :=
  ⟨['1'], some ['0', '0', '0', '0', '0', '0', '0', '0', '0', '0', '0', '0', '0', '0', '1'], none⟩

/-- Sixteen digits can be too many: rounded to 56 bits, the value is in the middle between two
doubles, of which the even one is taken and the other one is nearer to the value. -/
theorem readValue_decimal_overtaken :
    ∃ x : Double,
      LiteralText (tokenText "1.000000000000001")
        ⟨⟨false, some ⟨sixteenDigits, none⟩, false⟩, none⟩ ∧
      sixteenDigits.isInteger = false ∧ Double.InRange sixteenDigits.decimalValue ∧
      readValue "1.000000000000001" = .ok ⟨x, .zero⟩ ∧
      ¬x.IsNearest sixteenDigits.decimalValue := by
  have h : LiteralText (tokenText "1.000000000000001")
      ⟨⟨false, some ⟨sixteenDigits, none⟩, false⟩, none⟩ :=
    Literal.literalText_of_read? (by decide) rfl
  have hvalue : sixteenDigits.decimalValue = 1000000000000001 / 1000000000000000 := by
    decide +kernel
  have hround : roundSignificant 53 sixteenDigits.rounded = (4503599627370500 : Nat) / 2 ^ 52 := by
    decide +kernel
  have hbits : Numeral.precisionBits sixteenDigits.precisionDigits = 56 := by decide +kernel
  have hsize : (⟨sixteenDigits, none⟩ : Quotient).quantity =
      .ok (.rounded 56 sixteenDigits.rounded) := by
    rw [← hbits]
    exact Numeral.quantity_of_not_isInteger rfl
  have hd : (Quantity.rounded 56 sixteenDigits.rounded).toDouble.toRat? =
      some (((4503599627370500 : Nat) : Rat) / 2 ^ 52) :=
    Quantity.toRat?_toDouble hround (by decide +kernel) (by decide) (by norm_num)
  rw [hvalue]
  refine ⟨_, h, rfl, ?_, readValue_of_quantity h rfl (Part.quantity_signed hsize) hd, ?_⟩
  · refine Double.inRange_of_le (k := 0) (l := 2) (by decide) ?_ (by decide) ?_
    · norm_num
    · norm_num
  · refine Double.not_isNearest (l := 4503599627370501) (t := 52) hd (by decide +kernel)
      (by decide) (by norm_num) ?_
    rw [abs_of_pos (by norm_num), abs_of_neg (by norm_num)]
    norm_num

/-! ## Runs of digits -/

/-- Digits only, not too many of them, and no zeros in front of another digit. -/
structure Numeral.IsRun (x : Numeral) : Prop where
  isInteger : x.isInteger = true
  length_le : x.whole.length ≤ maxDigits
  plain : x.whole.head? = some '0' → natValue x.whole = 0

theorem Numeral.IsRun.quantity {x : Numeral} (h : x.IsRun) :
    x.quantity = .ok (.exact (natValue x.whole)) := by
  have hshort : (x.whole.dropWhile (· == '0')).length ≤ maxDigits :=
    Nat.le_trans (List.dropWhile_suffix _).length_le h.length_le
  rw [Numeral.quantity, h.isInteger]
  simp only [if_true, if_neg (Nat.not_lt.mpr hshort)]
  split
  · rename_i hzero
    rw [h.plain hzero, Nat.cast_zero]
  · rfl

/-- The value of a run of digits over another one. -/
def Quotient.ratio (x : Quotient) : Rat :=
  match x.denominator with
  | none => Numeral.natValue x.numerator.whole
  | some d => Numeral.natValue x.numerator.whole / Numeral.natValue d.whole

/-- Runs of digits, the second one not zero. -/
structure Quotient.IsFraction (x : Quotient) : Prop where
  numerator : x.numerator.IsRun
  denominator : ∀ d ∈ x.denominator, d.IsRun ∧ Numeral.natValue d.whole ≠ 0

theorem Quotient.isFraction_of_isRun {x y : Numeral} (hx : x.IsRun) (hy : y.IsRun)
    (hne : Numeral.natValue y.whole ≠ 0) : (⟨x, some y⟩ : Quotient).IsFraction := by
  refine ⟨hx, fun d hd => ?_⟩
  obtain rfl : y = d := Option.some.inj hd
  exact ⟨hy, hne⟩

theorem Quotient.ratio_nonneg (x : Quotient) : 0 ≤ x.ratio := by
  rw [ratio]
  split
  · exact Nat.cast_nonneg _
  · exact div_nonneg (Nat.cast_nonneg _) (Nat.cast_nonneg _)

theorem Quotient.IsFraction.quantity {x : Quotient} (h : x.IsFraction) :
    x.quantity = .ok (.exact x.ratio) := by
  obtain ⟨numerator, denominator⟩ := x
  have hnumerator := h.numerator.quantity
  cases denominator with
  | none => exact hnumerator
  | some d =>
    obtain ⟨hrun, hne⟩ := h.denominator d rfl
    have hdenominator := hrun.quantity
    simp only [Quotient.quantity, hnumerator, hdenominator]
    have hdiv : (Quantity.exact (Numeral.natValue numerator.whole)).div
        (.exact (Numeral.natValue d.whole)) =
        .ok (.exact (Numeral.natValue numerator.whole / Numeral.natValue d.whole)) := by
      rw [Quantity.div, if_neg (Nat.cast_ne_zero.mpr hne)]
    exact hdiv

/-- A run of digits, or one over another, is read as the double nearest to what is left of its value
after 57 bits. It is the nearest one to the value itself unless another one is as near to what is
left and nearer to the value. -/
theorem readValue_quotient {token : String} {negative imaginary : Bool} {q : Quotient}
    (h : LiteralText (tokenText token) ⟨⟨negative, some q, imaginary⟩, none⟩)
    (hq : q.IsFraction) (hrange : Double.InRange q.ratio) :
    ∃ x, readValue token = .ok (if imaginary then ⟨.zero, x⟩ else ⟨x, .zero⟩) ∧
      x.IsNearest (signed negative (truncateSignificant 57 q.ratio)) ∧
      (x.IsNearest (signed negative q.ratio) ↔
        ¬x.Overtaken (signed negative (truncateSignificant 57 q.ratio))
          (signed negative q.ratio)) := by
  have hv := q.ratio_nonneg
  have hkept : SameSide 54 q.ratio (truncateSignificant 57 q.ratio) :=
    (sameSide_truncateSignificant (by decide) hv).mono (by decide)
  obtain ⟨x, hread, hreached, -⟩ := readValue_part h hq.quantity hv hrange (.inl hkept)
  exact ⟨x, hread, hreached.nearest, hreached.nearest_iff⟩

/-- The fraction `1234567890123456789/9876543210`. -/
def longFraction : Quotient :=
  ⟨⟨['1', '2', '3', '4', '5', '6', '7', '8', '9', '0', '1', '2', '3', '4', '5', '6', '7', '8', '9'],
    none, none⟩, some ⟨['9', '8', '7', '6', '5', '4', '3', '2', '1', '0'], none, none⟩⟩

theorem readValue_quotient_long :
    LiteralText (tokenText "-1234567890123456789/9876543210i")
      ⟨⟨true, some longFraction, true⟩, none⟩ ∧
    longFraction.IsFraction ∧ Double.InRange longFraction.ratio ∧
    ∃ x, readValue "-1234567890123456789/9876543210i" = .ok ⟨.zero, x⟩ ∧
      x.IsNearest (signed true (truncateSignificant 57 longFraction.ratio)) ∧
      (x.IsNearest (signed true longFraction.ratio) ↔
        ¬x.Overtaken (signed true (truncateSignificant 57 longFraction.ratio))
          (signed true longFraction.ratio)) := by
  have h : LiteralText (tokenText "-1234567890123456789/9876543210i")
      ⟨⟨true, some longFraction, true⟩, none⟩ :=
    Literal.literalText_of_read? (by decide) rfl
  have hfraction : longFraction.IsFraction :=
    Quotient.isFraction_of_isRun ⟨rfl, by decide, nofun⟩ ⟨rfl, by decide, nofun⟩ (by decide)
  have hvalue : longFraction.ratio = 1234567890123456789 / 9876543210 := by decide +kernel
  have hrange : Double.InRange longFraction.ratio := by
    rw [hvalue]
    refine Double.inRange_of_le (k := 0) (l := 1000000000) (by decide) ?_ (by decide) ?_
    · norm_num
    · norm_num
  exact ⟨h, hfraction, hrange, readValue_quotient h hfraction hrange⟩

/-- The fraction `9/11`. -/
def nineElevenths : Quotient := ⟨⟨['9'], none, none⟩, some ⟨['1', '1'], none, none⟩⟩

/-- What is left of `9/11` is in the middle between two doubles, of which the even one is taken and
the other one is nearer to the value. And a zero in front of other digits is a factor. -/
theorem readValue_quotient_overtaken :
    (∃ x : Double,
      LiteralText (tokenText "9/11") ⟨⟨false, some nineElevenths, false⟩, none⟩ ∧
      nineElevenths.IsFraction ∧ Double.InRange nineElevenths.ratio ∧
      readValue "9/11" = .ok ⟨x, .zero⟩ ∧ ¬x.IsNearest nineElevenths.ratio) ∧
    LiteralText (tokenText "010")
      ⟨⟨false, some ⟨⟨['0', '1', '0'], none, none⟩, none⟩, false⟩, none⟩ ∧
    Numeral.natValue ['0', '1', '0'] = 10 ∧
    readValue "010" = .ok ⟨.zero, .zero⟩ ∧ ¬Double.zero.IsNearest 10 := by
  refine ⟨?_, ?_⟩
  · have h : LiteralText (tokenText "9/11") ⟨⟨false, some nineElevenths, false⟩, none⟩ :=
      Literal.literalText_of_read? (by decide) rfl
    have hfraction : nineElevenths.IsFraction :=
      Quotient.isFraction_of_isRun ⟨rfl, by decide, nofun⟩ ⟨rfl, by decide, nofun⟩ (by decide)
    have hvalue : nineElevenths.ratio = 9 / 11 := by decide +kernel
    have hround : roundSignificant 53 (Quantity.exact nineElevenths.ratio).kept =
        ((7369526662969902 : Nat) : Rat) / 2 ^ 53 := by decide +kernel
    have hd : (Quantity.exact nineElevenths.ratio).toDouble.toRat? =
        some (((7369526662969902 : Nat) : Rat) / 2 ^ 53) :=
      Quantity.toRat?_toDouble hround (by decide +kernel) (by decide) (by norm_num)
    refine ⟨_, h, hfraction, ?_,
      readValue_of_quantity h rfl (Part.quantity_signed hfraction.quantity) hd, ?_⟩
    · rw [hvalue]
      refine Double.inRange_of_le (k := 1) (l := 1) (by decide) ?_ (by decide) ?_
      · norm_num
      · norm_num
    · refine Double.not_isNearest (l := 7369526662969903) (t := 53) hd (by decide +kernel)
        (by decide) (by norm_num) ?_
      rw [hvalue, abs_of_pos (by norm_num), abs_of_neg (by norm_num)]
      norm_num
  · have h : LiteralText (tokenText "010")
        ⟨⟨false, some ⟨⟨['0', '1', '0'], none, none⟩, none⟩, false⟩, none⟩ :=
      Literal.literalText_of_read? (by decide) rfl
    have hsize : (⟨⟨['0', '1', '0'], none, none⟩, none⟩ : Quotient).quantity = .ok (.exact 0) := rfl
    have hzero : Double.zero.toRat? = some 0 := by
      rw [Double.toRat?_eq_some_iff]
      exact ⟨0, Double.units?_zero, by rw [Int.cast_zero, zero_div]⟩
    have hd : (Quantity.exact 0).toDouble.toRat? = some 0 := by
      rw [Quantity.toDouble_zero, hzero]
    have hread : readValue "010" = .ok ⟨(Quantity.exact 0).toDouble, .zero⟩ :=
      readValue_of_quantity h rfl (Part.quantity_signed hsize) hd
    rw [Quantity.toDouble_zero] at hread
    refine ⟨h, by decide, hread, ?_⟩
    · refine Double.not_isNearest (l := 10) (t := 0) hzero (by decide +kernel) (by decide)
        (by norm_num) ?_
      norm_num

end GaussJordan
