import GaussJordan.Proofs.DecimalText
import GaussJordan.Proofs.TokenReading

/-!
# GaussJordan.Proofs.LiteralText

The text of a complex value, read back as a literal.

The parts of a text are numbers of ticks. The grammar relates the digits of a part to the numeral
they were written from (`Literal.numeralText_ticksSize`), and a joined text to the literal of the
parts it was joined from (`Literal.literalText_joinParts`). A part that is zero, and a factor one
before `i`, are not written. The quantities of the parts are those of the ticks all the same
(`Literal.parts_ofTicks`).
-/

namespace GaussJordan

open Decimal

/-- The numeral that a number of ticks is written as. -/
def Numeral.ofTicks (n : Nat) : Numeral :=
  ⟨digits (n / ticksPerOne), if n % ticksPerOne = 0 then none else some (decimals n), none⟩

/-- The quantity of an unsigned number of ticks. -/
def Quantity.ofSize (n : Nat) : Quantity :=
  if n % ticksPerOne = 0 then .exact (n / ticksPerOne : Nat)
  else
    let bits := Numeral.precisionBits (Numeral.ofTicks n).precisionDigits
    .rounded bits (roundSignificant bits (n / ticksPerOne))

/-- The quantity of a number of ticks. -/
def Quantity.ofTicks (k : Int) : Quantity :=
  if k < 0 then (Quantity.ofSize k.natAbs).neg else .ofSize k.natAbs

theorem Quantity.ofTicks_zero : ofTicks 0 = .exact 0 := by
  rw [ofTicks, if_neg (by decide), Int.natAbs_zero, ofSize, Nat.zero_mod, if_pos rfl, Nat.zero_div,
    Nat.cast_zero]

/-- The part that a number of ticks is written as. -/
def Part.ofTicks (k : Int) (imaginary : Bool) : Part where
  negative := decide (k < 0)
  size := if imaginary ∧ ticksSize k.natAbs = ['1'] then none
    else some ⟨.ofTicks k.natAbs, none⟩
  imaginary := imaginary

/-- The literal that two numbers of ticks are written as. -/
def Literal.ofTicks (re im : Int) : Literal :=
  if im = 0 then ⟨.ofTicks re false, none⟩
  else if re = 0 then ⟨.ofTicks im true, none⟩
  else ⟨.ofTicks re false, some (.ofTicks im true)⟩

namespace Literal

/-! ## Texts of ticks -/

theorem numeralText_ticksSize (n : Nat) : NumeralText (ticksSize n) (.ofTicks n) := by
  have hwhole : DigitsText (digits (n / ticksPerOne)) :=
    ⟨Nat.toDigits_ne_nil, fun _ => isDigit_of_mem_digits⟩
  rw [ticksSize, Numeral.ofTicks]
  split
  · rw [List.append_nil]
    exact .plain (.whole hwhole)
  · exact .plain (.pointed hwhole fun _ => isDigit_of_mem_decimals)

/-- The text of an imaginary part without its sign. -/
def unitText (n : Nat) : List Char := (if ticksSize n = ['1'] then [] else ticksSize n) ++ ['i']

theorem ticksSize_eq_cons (n : Nat) : ∃ d ds, ticksSize n = d :: ds ∧ d.isDigit = true := by
  obtain ⟨d, ds, hdigits⟩ := List.exists_cons_of_ne_nil
    (Nat.toDigits_ne_nil (b := 10) (n := n / ticksPerOne))
  have hd : d.isDigit = true := by
    refine isDigit_of_mem_digits (n := n / ticksPerOne) ?_
    rw [digits, hdigits]
    exact List.mem_cons_self
  rw [ticksSize, digits, hdigits]
  exact ⟨d, _, rfl, hd⟩

theorem sizeText_real (k : Int) :
    SizeText (ticksSize k.natAbs) (Part.ofTicks k false).size false := by
  rw [Part.ofTicks, if_neg fun h => Bool.false_ne_true h.1]
  exact .real (.whole (numeralText_ticksSize _))

theorem sizeText_imaginary (k : Int) :
    SizeText (unitText k.natAbs) (Part.ofTicks k true).size true := by
  rw [unitText, Part.ofTicks]
  by_cases hone : ticksSize k.natAbs = ['1']
  · rw [if_pos hone, if_pos ⟨rfl, hone⟩]
    exact .unit
  · rw [if_neg hone, if_neg fun h => hone h.2]
    exact .imaginary (.whole (numeralText_ticksSize _))

/-! ## Joined texts -/

theorem ticksText_eq (k : Int) : ticksText k = sign (decide (k < 0)) ++ ticksSize k.natAbs := by
  by_cases h0 : k = 0
  · subst h0
    rfl
  · rw [ticksText, if_neg h0]

theorem ticksText_eq_zero_iff {k : Int} : ticksText k = ['0'] ↔ k = 0 := by
  refine ⟨fun h => ?_, fun h => if_pos h⟩
  rw [ticksText_eq, sign] at h
  split at h
  · cases (List.cons.inj h).1
  · have hn := eq_of_ticksSize_singleton h
    rw [show Numeral.natValue ['0'] = 0 from rfl, Nat.zero_mul] at hn
    exact Int.natAbs_eq_zero.mp hn

theorem joinParts_ticksText (re im : Int) :
    Complex.joinParts false (ticksText re) (ticksText im) =
      if im = 0 then ticksText re
      else if re = 0 then sign (decide (im < 0)) ++ unitText im.natAbs
      else ticksText re ++ (if im < 0 then '-' else '+') :: unitText im.natAbs := by
  obtain ⟨d, ds, hsize, hd⟩ := ticksSize_eq_cons im.natAbs
  have hne : d ≠ '-' := by
    rintro rfl
    exact absurd hd (by decide)
  have hunsigned : (ticksText im).dropWhile (· == '-') = ticksSize im.natAbs := by
    rw [ticksText_eq, hsize, sign]
    split <;> simp [hne]
  have hsign : ((ticksText im).head? == some '-') = decide (im < 0) := by
    rw [ticksText_eq, hsize, sign]
    split
    · rename_i hneg
      rw [hneg]
      rfl
    · rename_i hpos
      rw [Bool.eq_false_iff.mpr hpos]
      simpa using hne
  simp only [Complex.joinParts, ticksText_eq_zero_iff, hunsigned, hsign, unitText,
    Bool.false_eq_true, if_false, decide_eq_true_eq]

theorem optionalSignText_sign (s : Bool) : OptionalSignText (sign s) s := by
  cases s with
  | false => exact .absent
  | true => exact .present .minus

theorem signText_ite (k : Int) :
    SignText [if k < 0 then '-' else '+'] (decide (k < 0)) := by
  by_cases hneg : k < 0
  · rw [if_pos hneg, decide_eq_true hneg]
    exact .minus
  · rw [if_neg hneg, decide_eq_false hneg]
    exact .plus

/-- A joined text is the text of the literal of its parts. -/
theorem literalText_joinParts (re im : Int) :
    LiteralText (Complex.joinParts false (ticksText re) (ticksText im)) (.ofTicks re im) := by
  have hreal := sizeText_real re
  have himag := sizeText_imaginary im
  rw [joinParts_ticksText, Literal.ofTicks]
  split
  · rw [ticksText_eq]
    exact .single (.intro (optionalSignText_sign _) hreal)
  · split
    · exact .single (.intro (optionalSignText_sign _) himag)
    · rw [ticksText_eq]
      exact .pair (.intro (optionalSignText_sign _) hreal) (.intro (signText_ite im) himag) rfl

end Literal

/-! ## Quantities -/

namespace Decimal

/-- Only zero starts with a zero. -/
theorem head?_digits {n : Nat} (h : n ≠ 0) : (digits n).head? ≠ some '0' := by
  induction n using Nat.strongRecOn with
  | ind n ih =>
    rw [digits]
    by_cases hlt : n < 10
    · rw [Nat.toDigits_of_lt_base hlt]
      have hall : ∀ d < 10, d ≠ 0 → [Nat.digitChar d].head? ≠ some '0' := by decide
      exact hall n hlt h
    · rw [Nat.toDigits_of_base_le (by decide) (Nat.not_lt.mp hlt), List.head?_append_of_ne_nil]
      · exact ih (n / 10) (by omega) (by omega)
      · exact Nat.toDigits_ne_nil

end Decimal

namespace Numeral

variable {n : Nat}

/-- The digits of the numeral, followed by some zeros, give the ticks. -/
theorem natValue_mantissa (h : n % ticksPerOne ≠ 0) :
    ∃ zeros, (decimals n).length + zeros = 10 ∧
      natValue (ofTicks n).mantissa * 10 ^ zeros = n := by
  obtain ⟨zeros, hlen, hvalue⟩ := decimals_spec n
  refine ⟨zeros, hlen, ?_⟩
  have hten : 10 ^ (decimals n).length * 10 ^ zeros = ticksPerOne := by
    rw [← pow_add, hlen]
    rfl
  have hsplit := Nat.div_add_mod n ticksPerOne
  simp only [mantissa, ofTicks, if_neg h, Option.getD_some]
  rw [natValue_append, natValue_digits, Nat.add_mul, hvalue, Nat.mul_right_comm, hten, hsplit]

theorem decimalValue_ofTicks (h : n % ticksPerOne ≠ 0) :
    (ofTicks n).decimalValue = n / ticksPerOne := by
  obtain ⟨zeros, hlen, hvalue⟩ := natValue_mantissa h
  have hne : decimals n ≠ [] := fun hnil => h (decimals_eq_nil_iff.mp hnil)
  have hpos := List.length_pos_of_ne_nil hne
  have hfraction : ((ofTicks n).fraction.getD []).length = (decimals n).length := by
    rw [ofTicks, if_neg h]
    rfl
  have hexponent : (ofTicks n).exponentValue = 0 := rfl
  have hticks : (n : Rat) = natValue (ofTicks n).mantissa * 10 ^ zeros := by
    conv_lhs => rw [← hvalue]
    push_cast
    rfl
  have hten : (ticksPerOne : Rat) = 10 ^ (decimals n).length * 10 ^ zeros := by
    rw [← pow_add, hlen]
    norm_num [ticksPerOne]
  have hshift : ¬0 ≤ (0 : Int) - (decimals n).length := by omega
  have hplaces : (-((0 : Int) - (decimals n).length)).toNat = (decimals n).length := by omega
  simp only [decimalValue, hexponent, hfraction, if_neg hshift, hplaces]
  rw [Rat.mkRat_eq_div, Nat.pow_eq, hticks, hten]
  push_cast
  field_simp

theorem precisionDigits_ofTicks (h : n % ticksPerOne ≠ 0) {k : Nat} (hk : 0 < k)
    (hn : n < 10 ^ k) : (ofTicks n).precisionDigits ≤ k := by
  obtain ⟨zeros, -, hvalue⟩ := natValue_mantissa h
  have hfraction : (ofTicks n).fraction.isNone = false := by
    rw [ofTicks, if_neg h]
    rfl
  have hle : natValue (ofTicks n).mantissa ≤ n := by
    conv_rhs => rw [← hvalue]
    exact Nat.le_mul_of_pos_right _ (by positivity)
  simp only [precisionDigits, hfraction, Bool.false_and, Bool.false_eq_true, if_false]
  exact (Nat.length_toDigits_le_iff (by decide) hk).mpr (Nat.lt_of_le_of_lt hle hn)

/-- The numeral of a number of ticks has the quantity of these ticks. -/
theorem quantity_ofTicks (h : (digits (n / ticksPerOne)).length ≤ maxDigits) :
    (ofTicks n).quantity = .ok (.ofSize n) := by
  by_cases hr : n % ticksPerOne = 0
  · have hinteger : (ofTicks n).isInteger = true := by
      rw [isInteger, ofTicks, if_pos hr]
      rfl
    have hshort : ((digits (n / ticksPerOne)).dropWhile (· == '0')).length ≤ maxDigits :=
      Nat.le_trans (List.dropWhile_suffix _).length_le h
    have hwhole : (ofTicks n).whole = digits (n / ticksPerOne) := rfl
    rw [quantity, if_pos hinteger, hwhole, Quantity.ofSize, if_pos hr]
    simp only [if_neg (Nat.not_lt.mpr hshort), natValue_digits]
    by_cases h0 : n / ticksPerOne = 0
    · rw [h0]
      rfl
    · rw [if_neg (head?_digits h0)]
  · have hinteger : (ofTicks n).isInteger = false := by
      rw [isInteger, ofTicks, if_neg hr]
      rfl
    rw [quantity, hinteger, Quantity.ofSize, if_neg hr, decimalValue_ofTicks hr]
    rfl

end Numeral

namespace Part

variable {k : Int}

theorem quantity_ofTicks (imaginary : Bool)
    (h : (digits (k.natAbs / ticksPerOne)).length ≤ Numeral.maxDigits) :
    (ofTicks k imaginary).quantity = .ok (.ofTicks k) := by
  have hsign : (ofTicks k imaginary).negative = decide (k < 0) := rfl
  by_cases hone : imaginary = true ∧ ticksSize k.natAbs = ['1']
  · have hsize : (ofTicks k imaginary).size = none := if_pos hone
    have hk := eq_of_ticksSize_singleton hone.2
    rw [show Numeral.natValue ['1'] = 1 from rfl, Nat.one_mul] at hk
    have hunit : Quantity.ofSize k.natAbs = .exact 1 := by
      rw [hk, Quantity.ofSize, if_pos (Nat.mod_self _), Nat.div_self ticksPerOne_pos, Nat.cast_one]
    rw [Part.quantity, hsize, hsign, Quantity.ofTicks, hunit]
    simp only [decide_eq_true_eq]
    rfl
  · have hsize : (ofTicks k imaginary).size = some ⟨.ofTicks k.natAbs, none⟩ := if_neg hone
    rw [Part.quantity, hsize, hsign, Quantity.ofTicks]
    simp only [Quotient.quantity, Numeral.quantity_ofTicks h, decide_eq_true_eq]
    rfl

end Part

namespace Literal

theorem parts_ofTicks {re im : Int}
    (hre : (digits (re.natAbs / ticksPerOne)).length ≤ Numeral.maxDigits)
    (him : (digits (im.natAbs / ticksPerOne)).length ≤ Numeral.maxDigits) :
    (ofTicks re im).parts = .ok (.ofTicks re, .ofTicks im) := by
  have hreal := Part.quantity_ofTicks false hre
  have himag := Part.quantity_ofTicks true him
  have hzero : Quantity.ofTicks 0 = .exact 0 := Quantity.ofTicks_zero
  rw [ofTicks]
  split
  · rename_i h0
    subst h0
    rw [parts]
    simp only [hreal, hzero]
    rfl
  · split
    · rename_i h0
      subst h0
      rw [parts]
      simp only [himag, hzero]
      rfl
    · rw [parts]
      simp only [hreal, himag]
      rfl

/-! ## Tokens -/

/-- A joined text is one word. -/
theorem isWord_joinParts (re im : Int) :
    Text.IsWord (Complex.joinParts false (ticksText re) (ticksText im)) :=
  ⟨(literalText_joinParts re im).ne_nil,
    fun c hc => isBlank_of_mem_alphabet c ((literalText_joinParts re im).mem_alphabet c hc)⟩

/-- A joined text is read as the value of its parts. -/
theorem readValue_joinParts {re im : Int} {x y : Double}
    (h : (ofTicks re im).value = .ok (x, y)) :
    readValue (String.ofList (Complex.joinParts false (ticksText re) (ticksText im))) =
      .ok ⟨x, y⟩ := by
  have htext := literalText_joinParts re im
  rw [← tokenText_of_alphabet htext.mem_alphabet] at htext
  exact (readValue_eq_ok_iff htext).mpr h

end Literal

end GaussJordan
