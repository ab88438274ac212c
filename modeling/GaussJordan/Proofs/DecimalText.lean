import GaussJordan.Proofs.DoubleUnits
import GaussJordan.Proofs.Reading
import Mathlib.Data.List.TakeWhile

/-!
# GaussJordan.Proofs.DecimalText

What the text of a part says. With at least one decimal it is that of the value rounded to the last
decimal, without zeros at the end (`trimmedText_eq`), and up to eleven decimals nearly whole values
are no exception (`partText_eq`).

The parts of a term are written with ten decimals at most, so their text is that of a whole number
of *ticks* of `10 ^ -10`: the value rounded to ticks, half to even (`partText_ten`). The text of a
binary64 number depends only on its value (`Double.text_of_units?`).
-/

namespace GaussJordan

theorem roundHalfEven_zero (den : Nat) : roundHalfEven 0 den = 0 := by
  simp [roundHalfEven]

namespace Decimal

/-! ## Zeros at the end -/

theorem dropTrailing_append_replicate (c : Char) (cs : List Char) :
    ∃ m, cs = dropTrailing c cs ++ List.replicate m c := by
  have hrun : cs.reverse.takeWhile (· == c) =
      List.replicate (cs.reverse.takeWhile (· == c)).length c := by
    refine List.eq_replicate_iff.mpr ⟨rfl, fun b hb => ?_⟩
    exact eq_of_beq (List.mem_takeWhile_imp (p := (· == c)) hb)
  refine ⟨(cs.reverse.takeWhile (· == c)).length, ?_⟩
  have h := List.takeWhile_append_dropWhile (p := (· == c)) (l := cs.reverse)
  rw [hrun] at h
  have hrev := congrArg List.reverse h
  rw [List.reverse_append, List.reverse_reverse, List.reverse_replicate] at hrev
  exact hrev.symm

theorem mem_of_mem_dropTrailing {c d : Char} {cs : List Char} (h : d ∈ dropTrailing c cs) :
    d ∈ cs := by
  obtain ⟨m, hsplit⟩ := dropTrailing_append_replicate c cs
  rw [hsplit]
  exact List.mem_append_left _ h

/-- Only what comes after the last other character can be dropped. -/
theorem dropTrailing_append_cons {c d : Char} (h : d ≠ c) (xs ys : List Char) :
    dropTrailing c (xs ++ d :: ys) = xs ++ d :: dropTrailing c ys := by
  have hd : (d == c) = false := beq_eq_false_iff_ne.mpr h
  have hend : (d :: xs.reverse).dropWhile (· == c) = d :: xs.reverse := by
    rw [List.dropWhile_cons_of_neg]
    simp [hd]
  simp only [dropTrailing, List.reverse_append, List.reverse_cons, List.append_assoc,
    List.singleton_append, List.dropWhile_append, hend]
  split
  · rename_i hnil
    simp [List.isEmpty_iff.mp hnil]
  · simp

theorem dropTrailing_append {c : Char} {ys : List Char} (h : dropTrailing c ys ≠ [])
    (xs : List Char) : dropTrailing c (xs ++ ys) = xs ++ dropTrailing c ys := by
  have hkept : ¬(ys.reverse.dropWhile (· == c)).isEmpty = true := by
    rwa [List.isEmpty_iff, ← List.reverse_eq_nil_iff]
  simp only [dropTrailing, List.reverse_append, List.dropWhile_append, if_neg hkept,
    List.reverse_reverse]

theorem dropTrailing_append_singleton (c : Char) (xs : List Char) :
    dropTrailing c (xs ++ [c]) = dropTrailing c xs := by
  simp [dropTrailing]

theorem dropTrailing_replicate (c : Char) (m : Nat) : dropTrailing c (List.replicate m c) = [] := by
  simp [dropTrailing]

theorem getLast?_dropTrailing (c : Char) (cs : List Char) :
    (dropTrailing c cs).getLast? ≠ some c := by
  rw [dropTrailing, List.getLast?_reverse]
  intro h
  have hhead := List.head?_dropWhile_not (· == c) cs.reverse
  rw [h] at hhead
  simp at hhead

theorem dropTrailing_of_not_mem {c : Char} {xs : List Char} (h : c ∉ xs) :
    dropTrailing c xs = xs := by
  rcases List.eq_nil_or_concat xs with rfl | ⟨ys, d, rfl⟩
  · rfl
  · have hd : d ≠ c := by
      rintro rfl
      exact h (by simp)
    rw [List.concat_eq_append, dropTrailing_append_cons hd]
    rfl

/-! ## The digits after the point -/

theorem natValue_digits (n : Nat) : Numeral.natValue (digits n) = n := Nat.ofDigitChars_ten_toDigits

theorem natValue_append (cs ds : List Char) :
    Numeral.natValue (cs ++ ds) =
      10 ^ ds.length * Numeral.natValue cs + Numeral.natValue ds := by
  rw [Numeral.natValue, Nat.ofDigitChars_append, Nat.ofDigitChars_eq_ofDigitChars_zero]
  rfl

theorem natValue_zeros (k : Nat) : Numeral.natValue (List.replicate k '0') = 0 := by
  rw [Numeral.natValue, Nat.ofDigitChars_replicate_zero, Nat.mul_zero]

theorem natValue_padded (width n : Nat) : Numeral.natValue (padded width n) = n := by
  rw [padded, natValue_append, natValue_zeros, natValue_digits, Nat.mul_zero, Nat.zero_add]

theorem length_padded {width n : Nat} (hw : 0 < width) (h : n < 10 ^ width) :
    (padded width n).length = width := by
  have hlen : (digits n).length ≤ width := (Nat.length_toDigits_le_iff (by decide) hw).mpr h
  rw [padded, List.length_append, List.length_replicate, Nat.sub_add_cancel hlen]

theorem padded_zero {width : Nat} (hw : 0 < width) : padded width 0 = List.replicate width '0' := by
  have hdigits : digits 0 = List.replicate 1 '0' := rfl
  rw [padded, hdigits, List.length_replicate, List.replicate_append_replicate,
    Nat.sub_add_cancel hw]

theorem isDigit_of_mem_padded {width n : Nat} {c : Char} (h : c ∈ padded width n) :
    c.isDigit = true := by
  rcases List.mem_append.mp h with h | h
  · rw [List.eq_of_mem_replicate h]
    rfl
  · exact isDigit_of_mem_digits h

/-- The digits after the point of `n / 10 ^ places`, less the zeros at the end. -/
def decimalsAt (places n : Nat) : List Char :=
  dropTrailing '0' (padded places (n % Nat.pow 10 places))

theorem isDigit_of_mem_decimalsAt {places n : Nat} {c : Char} (h : c ∈ decimalsAt places n) :
    c.isDigit = true :=
  isDigit_of_mem_padded (mem_of_mem_dropTrailing h)

/-- The digits after the point, followed by some zeros, give what is beyond the last whole one. -/
theorem decimalsAt_spec (places n : Nat) :
    ∃ zeros, (decimalsAt places n).length + zeros = places ∧
      Numeral.natValue (decimalsAt places n) * 10 ^ zeros = n % Nat.pow 10 places := by
  rcases Nat.eq_zero_or_pos places with rfl | hp
  · have hmod : n % Nat.pow 10 0 = 0 := Nat.mod_one n
    rw [decimalsAt, hmod]
    exact ⟨0, rfl, rfl⟩
  · obtain ⟨zeros, h⟩ := dropTrailing_append_replicate '0' (padded places (n % Nat.pow 10 places))
    have hlen := congrArg List.length h
    have hvalue := congrArg Numeral.natValue h
    have hfull : (padded places (n % Nat.pow 10 places)).length = places :=
      length_padded hp (Nat.mod_lt n (Nat.pow_pos (by decide)))
    rw [hfull, List.length_append, List.length_replicate] at hlen
    rw [natValue_padded, natValue_append, natValue_zeros, List.length_replicate] at hvalue
    refine ⟨zeros, hlen.symm, ?_⟩
    rw [hvalue, Nat.add_zero, Nat.mul_comm]
    rfl

theorem decimalsAt_eq_nil_iff {places n : Nat} (hp : 0 < places) :
    decimalsAt places n = [] ↔ n % Nat.pow 10 places = 0 := by
  constructor
  · intro h
    obtain ⟨zeros, _, hvalue⟩ := decimalsAt_spec places n
    rw [h] at hvalue
    rw [← hvalue]
    exact Nat.zero_mul _
  · intro h
    rw [decimalsAt, h, padded_zero hp, dropTrailing_replicate]

/-! ## The text of a scaled number -/

/-- The text of `n / 10 ^ places` without zeros at the end. -/
def decimalSize (places n : Nat) : List Char :=
  digits (n / Nat.pow 10 places) ++
    if n % Nat.pow 10 places = 0 then [] else '.' :: decimalsAt places n

theorem mem_decimalSize {places n : Nat} {c : Char} (h : c ∈ decimalSize places n) :
    c.isDigit = true ∨ c = '.' := by
  rw [decimalSize] at h
  rcases List.mem_append.mp h with h | h
  · exact .inl (isDigit_of_mem_digits h)
  · split at h
    · cases h
    · rcases List.mem_cons.mp h with rfl | h
      · exact .inr rfl
      · exact .inl (isDigit_of_mem_decimalsAt h)

theorem decimalSize_ne_nil (places n : Nat) : decimalSize places n ≠ [] :=
  List.append_ne_nil_of_left_ne_nil Nat.toDigits_ne_nil _

/-- Only whole values have a text of one digit. -/
theorem eq_of_decimalSize_singleton {places n : Nat} {d : Char} (h : decimalSize places n = [d]) :
    n = Numeral.natValue [d] * Nat.pow 10 places := by
  have hdigits : digits (n / Nat.pow 10 places) ≠ [] := Nat.toDigits_ne_nil
  have hlen := List.length_pos_of_ne_nil hdigits
  rw [decimalSize] at h
  split at h
  · rename_i hr
    rw [List.append_nil] at h
    rw [← h, natValue_digits]
    exact (Nat.div_mul_cancel (Nat.dvd_of_mod_eq_zero hr)).symm
  · have hlength := congrArg List.length h
    rw [List.length_append, List.length_cons, List.length_singleton] at hlength
    omega

/-- A whole number is written bare. -/
theorem decimalSize_mul (places whole : Nat) :
    decimalSize places (whole * Nat.pow 10 places) = digits whole := by
  have hpos : 0 < Nat.pow 10 places := Nat.pow_pos (by decide)
  rw [decimalSize, Nat.mul_div_cancel _ hpos, if_pos (Nat.mul_mod_left _ _), List.append_nil]

theorem decimalSize_zero (places : Nat) : decimalSize places 0 = ['0'] := by
  have hmul := decimalSize_mul places 0
  rwa [Nat.zero_mul] at hmul

theorem decimalSize_noDecimals (n : Nat) : decimalSize 0 n = digits n := by
  have hmul := decimalSize_mul 0 n
  rwa [show Nat.pow 10 0 = 1 from rfl, Nat.mul_one] at hmul

/-- A text that starts with a sign is not that of zero. -/
theorem sign_append_decimalSize_ne {negative : Bool} {places n : Nat} (hn : n ≠ 0) :
    sign negative ++ decimalSize places n ≠ ['-', '0'] := by
  intro h
  cases negative with
  | false =>
    have hmem : '-' ∈ decimalSize places n := by
      rw [sign, if_neg (by decide), List.nil_append] at h
      simp [h]
    rcases mem_decimalSize hmem with h | h
    · exact absurd h (by decide)
    · exact absurd h (by decide)
  | true =>
    rw [sign, if_pos rfl, List.singleton_append] at h
    have hzero := eq_of_decimalSize_singleton (List.cons.inj h).2
    rw [show Numeral.natValue ['0'] = 0 from rfl, Nat.zero_mul] at hzero
    exact hn hzero

theorem point_not_mem_digits (n : Nat) : '.' ∉ digits n :=
  fun h => absurd (isDigit_of_mem_digits h) (by decide)

theorem point_not_mem_sign (negative : Bool) : '.' ∉ sign negative := by
  cases negative <;> decide

/-- Without the zeros at the end, and the point if nothing is left after it. -/
theorem dropTrailing_pointed {places : Nat} (hp : 0 < places) (negative : Bool) (n : Nat) :
    dropTrailing '.' (dropTrailing '0' (sign negative ++ pointed places n)) =
      sign negative ++ decimalSize places n := by
  have hzeros : dropTrailing '0' (sign negative ++ pointed places n) =
      (sign negative ++ digits (n / Nat.pow 10 places)) ++ '.' :: decimalsAt places n := by
    rw [pointed, if_neg (Nat.ne_of_gt hp), ← List.append_assoc,
      dropTrailing_append_cons (by decide)]
    rfl
  rw [hzeros, decimalSize]
  split
  · rename_i hr
    rw [(decimalsAt_eq_nil_iff hp).mpr hr, dropTrailing_append_singleton, List.append_nil,
      dropTrailing_of_not_mem]
    simp only [List.mem_append, not_or]
    exact ⟨point_not_mem_sign negative, point_not_mem_digits _⟩
  · rename_i hr
    have hne : decimalsAt places n ≠ [] := fun h => hr ((decimalsAt_eq_nil_iff hp).mp h)
    obtain ⟨ds, d, hlast⟩ := (List.eq_nil_or_concat (decimalsAt places n)).resolve_left hne
    rw [List.concat_eq_append] at hlast
    have hd : d ≠ '.' := by
      rintro rfl
      have hmem : '.' ∈ decimalsAt places n := by simp [hlast]
      exact absurd (isDigit_of_mem_decimalsAt hmem) (by decide)
    rw [hlast, ← List.cons_append, ← List.append_assoc, dropTrailing_append_cons hd]
    simp [dropTrailing]

/-- With a decimal at least, only decimals are dropped from the rounded value. -/
theorem trimmedText_eq {places : Nat} (hp : 0 < places) (negative : Bool) (num den : Nat) :
    trimmedText negative num den places =
      sign (negative && roundHalfEven (num * Nat.pow 10 places) den != 0) ++
        decimalSize places (roundHalfEven (num * Nat.pow 10 places) den) := by
  simp only [trimmedText, fixedText, dropTrailing_pointed hp]
  generalize roundHalfEven (num * Nat.pow 10 places) den = n
  by_cases hn : n = 0
  · rw [hn, decimalSize_zero]
    cases negative <;> rfl
  · rw [bne_iff_ne.mpr hn, Bool.and_true, if_neg]
    rintro (hnil | hzero)
    · exact decimalSize_ne_nil places n (List.append_eq_nil_iff.mp hnil).2
    · exact sign_append_decimalSize_ne hn hzero

/-! ## Ticks -/

/-- The ticks in one. -/
def ticksPerOne : Nat := Nat.pow 10 10

theorem ticksPerOne_pos : 0 < ticksPerOne := by decide

/-- The digits after the point of a number of ticks. -/
def decimals (n : Nat) : List Char := dropTrailing '0' (padded 10 (n % ticksPerOne))

theorem decimals_spec (n : Nat) :
    ∃ zeros, (decimals n).length + zeros = 10 ∧
      Numeral.natValue (decimals n) * 10 ^ zeros = n % ticksPerOne :=
  decimalsAt_spec 10 n

theorem isDigit_of_mem_decimals {n : Nat} {c : Char} (h : c ∈ decimals n) : c.isDigit = true :=
  @isDigit_of_mem_decimalsAt 10 n c h

theorem decimals_eq_nil_iff {n : Nat} : decimals n = [] ↔ n % ticksPerOne = 0 :=
  decimalsAt_eq_nil_iff (by decide : 0 < 10)

/-- The text of a number of ticks without its sign. -/
def ticksSize (n : Nat) : List Char :=
  digits (n / ticksPerOne) ++ if n % ticksPerOne = 0 then [] else '.' :: decimals n

/-- The text of a number of ticks. Zero has no sign. -/
def ticksText (k : Int) : List Char :=
  if k = 0 then ['0'] else sign (decide (k < 0)) ++ ticksSize k.natAbs

theorem eq_of_ticksSize_singleton {n : Nat} {d : Char} (h : ticksSize n = [d]) :
    n = Numeral.natValue [d] * ticksPerOne :=
  @eq_of_decimalSize_singleton 10 n d h

end Decimal

open Decimal

/-! ## Nearly whole values -/

/-- A value is rounded to a whole one if it is less than half a step of the grid away from it. -/
theorem roundHalfEven_scaled {num den whole scale : Nat}
    (h : 2 * (wholeDistance num den whole * scale) < den) :
    roundHalfEven (num * scale) den = whole * scale := by
  have hscaled : den * (whole * scale) = whole * den * scale := by ring
  rw [wholeDistance, Nat.add_mul, Nat.sub_mul, Nat.sub_mul] at h
  apply roundHalfEven_of_near <;> rw [hscaled] <;> omega

theorem NearlyWhole.distance_lt {num den : Nat} (h : NearlyWhole num den) :
    wholeDistance num den (roundHalfEven num den) * 10 ^ 12 < den := by
  have hmargin : wholeMargin.1 * 10 ^ 12 ≤ wholeMargin.2 := by decide
  rw [NearlyWhole] at h
  generalize wholeDistance num den (roundHalfEven num den) = distance at *
  have hlt : wholeMargin.1 * (distance * 10 ^ 12) < wholeMargin.1 * den :=
    calc wholeMargin.1 * (distance * 10 ^ 12) = distance * (wholeMargin.1 * 10 ^ 12) :=
          Nat.mul_left_comm _ _ _
      _ ≤ distance * wholeMargin.2 := Nat.mul_le_mul_left distance hmargin
      _ < wholeMargin.1 * den := h
  exact Nat.lt_of_mul_lt_mul_left hlt

/-- Up to eleven decimals, a value less than `10 ^ -12` away from a whole one is rounded to it. -/
theorem trimmedText_of_distance_lt {num den whole places : Nat} (hlow : 1 ≤ places)
    (hhigh : places ≤ 11) (h : wholeDistance num den whole * 10 ^ 12 < den) (negative : Bool) :
    trimmedText negative num den places = wholeText negative whole := by
  have hpow : Nat.pow 10 places ≤ Nat.pow 10 11 := Nat.pow_le_pow_right (by decide) hhigh
  have hpos : Nat.pow 10 places ≠ 0 := Nat.ne_of_gt (Nat.pow_pos (by decide))
  have hhalf : 2 * (wholeDistance num den whole * Nat.pow 10 places) < den := by
    have hmul := Nat.mul_le_mul_left (wholeDistance num den whole) hpow
    rw [show Nat.pow 10 11 = 100000000000 from rfl] at hmul
    omega
  have hsign : (whole * Nat.pow 10 places != 0) = (whole != 0) := by
    rw [Bool.eq_iff_iff, bne_iff_ne, bne_iff_ne, ne_eq, Nat.mul_eq_zero, or_iff_left hpos]
  rw [trimmedText_eq hlow, roundHalfEven_scaled hhalf, hsign, decimalSize_mul, wholeText]

section

variable {num den : Nat}

theorem partText_of_nearlyWhole (h : NearlyWhole num den) (places : Int) (negative : Bool) :
    partText places negative num den = .ok (wholeText negative (roundHalfEven num den)) :=
  if_pos h

theorem partText_of_not_nearlyWhole (h : ¬NearlyWhole num den) {places : Nat}
    (hmax : (places : Int) ≤ maxPlaces) (negative : Bool) :
    partText places negative num den = .ok (trimmedText negative num den places) := by
  have hnonneg : ¬(places : Int) < 0 := by omega
  rw [partText, if_neg h, if_neg hnonneg, if_neg (Int.not_lt.mpr hmax), Int.toNat_natCast]

theorem partText_manyPlaces (h : ¬NearlyWhole num den) {places : Nat}
    (hmax : maxPlaces < (places : Int)) (negative : Bool) :
    partText places negative num den = .error .manyPlaces := by
  have hnonneg : ¬(places : Int) < 0 := by omega
  rw [partText, if_neg h, if_neg hnonneg, if_pos hmax]

end

/-- Up to eleven decimals, a nearly whole value is written as it would be without the rule for such
values. -/
theorem partText_eq {places : Nat} (hlow : 1 ≤ places) (hhigh : places ≤ 11) (negative : Bool)
    (num den : Nat) :
    partText places negative num den = .ok (trimmedText negative num den places) := by
  by_cases hnear : NearlyWhole num den
  · rw [partText_of_nearlyWhole hnear, trimmedText_of_distance_lt hlow hhigh hnear.distance_lt]
  · refine partText_of_not_nearlyWhole hnear ?_ negative
    rw [maxPlaces]
    omega

/-! ## The text in ticks -/

namespace Double

theorem signedUnits_eq_zero_iff {s : Bool} {n : Nat} : signedUnits s n = 0 ↔ n = 0 := by
  rw [← Int.natAbs_eq_zero, natAbs_signedUnits]

theorem signedUnits_neg_iff {s : Bool} {n : Nat} (hn : n ≠ 0) :
    decide (signedUnits s n < 0) = s := by
  cases s with
  | false => simp [signedUnits]
  | true => simpa [signedUnits] using Nat.pos_of_ne_zero hn

end Double

theorem ticksText_signedUnits (s : Bool) (n : Nat) :
    ticksText (Double.signedUnits s n) = sign (s && n != 0) ++ decimalSize 10 n := by
  by_cases hn : n = 0
  · rw [ticksText, if_pos (Double.signedUnits_eq_zero_iff.mpr hn), hn]
    cases s <;> rfl
  · rw [ticksText, if_neg (mt Double.signedUnits_eq_zero_iff.mp hn), Double.signedUnits_neg_iff hn,
      Double.natAbs_signedUnits, bne_iff_ne.mpr hn, Bool.and_true]
    rfl

/-- The text of a part is that of its value in ticks. -/
theorem partText_ten (s : Bool) (num den : Nat) :
    partText 10 s num den =
      .ok (ticksText (Double.signedUnits s (roundHalfEven (num * ticksPerOne) den))) := by
  have heq := partText_eq (by decide : 1 ≤ 10) (by decide) s num den
  rw [Nat.cast_ofNat] at heq
  rw [heq, trimmedText_eq (by decide), ticksText_signedUnits, ticksPerOne]

namespace Double

/-- A value in units as a whole number of ticks, half to even. -/
def ticks (i : Int) : Int :=
  signedUnits (decide (i < 0)) (roundHalfEven (i.natAbs * ticksPerOne) unitsPerOne)

theorem ticks_signedUnits (s : Bool) (u : Nat) :
    ticks (signedUnits s u) = signedUnits s (roundHalfEven (u * ticksPerOne) unitsPerOne) := by
  rw [ticks, natAbs_signedUnits]
  by_cases h0 : u = 0
  · subst h0
    rw [Nat.zero_mul, roundHalfEven_zero, signedUnits_eq_zero_iff.mpr rfl,
      signedUnits_eq_zero_iff.mpr rfl]
  · rw [signedUnits_neg_iff h0]

theorem text_of_units? {x : Double} {i : Int} (h : x.units? = some i) :
    x.text 10 = .ok (ticksText (ticks i)) := by
  cases x with
  | finite s u hu =>
    obtain rfl : signedUnits s u = i := Option.some.inj h
    rw [ticks_signedUnits, text, partText_ten]
  | infinite s => cases h
  | nan => cases h

example : ((ofRatio true 1 3).text 10).toOption = some "-0.3333333333".toList := by decide +kernel

end Double

end GaussJordan
