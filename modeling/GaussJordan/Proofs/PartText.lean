import GaussJordan.Proofs.TickRounding

/-!
# GaussJordan.Proofs.PartText

How a part is written.

* `PlainNumeral`: a decimal numeral without an exponent and without zeros after its last decimal,
  and the number that it denotes.
* `Renders places q text`: the text is such a numeral with at most `places` decimals, no negative
  zero, and as near to `q` as half a unit of the last decimal or `10 ^ -12`.

With one decimal or more the text of a finite number renders it. Without decimals it is the whole
part that loses zeros, so the text renders the number only if the whole part has none to lose
(`renders_noDecimals_iff`, `Double.text_renders_iff`). The rule for nearly whole values says nothing
of its own up to eleven decimals (`Double.text_of_near_whole`).
-/

namespace GaussJordan

open Decimal

/-! ## Plain numerals -/

structure PlainNumeral where
  negative : Bool
  whole : List Char
  fraction : List Char
  whole_ne_nil : whole ≠ []
  isDigit_whole : ∀ c ∈ whole, c.isDigit = true
  isDigit_fraction : ∀ c ∈ fraction, c.isDigit = true
  getLast?_fraction : fraction.getLast? ≠ some '0'

namespace PlainNumeral

/-- A point is written only if decimals follow. -/
def text (x : PlainNumeral) : List Char :=
  sign x.negative ++ (x.whole ++ if x.fraction = [] then [] else '.' :: x.fraction)

def size (x : PlainNumeral) : Rat :=
  Numeral.natValue x.whole + Numeral.natValue x.fraction / 10 ^ x.fraction.length

def value (x : PlainNumeral) : Rat := if x.negative then -x.size else x.size

/-- The numeral of `n / 10 ^ places`. -/
def ofScaled (negative : Bool) (places n : Nat) : PlainNumeral where
  negative := negative && n != 0
  whole := digits (n / Nat.pow 10 places)
  fraction := decimalsAt places n
  whole_ne_nil := Nat.toDigits_ne_nil
  isDigit_whole _ := isDigit_of_mem_digits
  isDigit_fraction _ := isDigit_of_mem_decimalsAt
  getLast?_fraction := getLast?_dropTrailing '0' _

variable (negative : Bool) (places n : Nat)

theorem length_fraction_ofScaled : (ofScaled negative places n).fraction.length ≤ places := by
  obtain ⟨zeros, hlen, -⟩ := decimalsAt_spec places n
  exact Nat.le.intro hlen

theorem text_ofScaled :
    (ofScaled negative places n).text = sign (negative && n != 0) ++ decimalSize places n := by
  rcases Nat.eq_zero_or_pos places with rfl | hp
  · have hmod : n % Nat.pow 10 0 = 0 := Nat.mod_one n
    have hnil : decimalsAt 0 n = [] := by
      rw [decimalsAt, hmod]
      rfl
    simp only [text, ofScaled, decimalSize, hnil, hmod, if_true]
  · simp only [text, ofScaled, decimalSize, decimalsAt_eq_nil_iff hp]

theorem size_ofScaled : (ofScaled negative places n).size = (n : Rat) / 10 ^ places := by
  obtain ⟨zeros, hlen, hvalue⟩ := decimalsAt_spec places n
  have hsplit : (10 : Rat) ^ places = 10 ^ (decimalsAt places n).length * 10 ^ zeros := by
    rw [← pow_add, hlen]
  have hn : (n : Rat) = 10 ^ places * (n / Nat.pow 10 places : Nat) +
      Numeral.natValue (decimalsAt places n) * 10 ^ zeros := by
    have hdiv := Nat.div_add_mod n (Nat.pow 10 places)
    rw [← hvalue] at hdiv
    have hcast := congrArg (Nat.cast (R := Rat)) hdiv
    push_cast at hcast
    rw [← hcast, Nat.pow_eq]
    push_cast
    rfl
  simp only [size, ofScaled, natValue_digits]
  rw [hn, hsplit]
  field_simp

theorem value_ofScaled :
    (ofScaled negative places n).value = (Double.signedUnits negative n : Rat) / 10 ^ places := by
  rw [value, size_ofScaled]
  by_cases hn : n = 0
  · subst hn
    cases negative <;> simp [ofScaled, Double.signedUnits]
  · cases negative with
    | false => rfl
    | true =>
      simp only [ofScaled, bne_iff_ne.mpr hn, Bool.and_self, if_true, Double.signedUnits]
      push_cast
      rw [neg_div]

theorem text_ofScaled_ne : (ofScaled negative places n).text ≠ ['-', '0'] := by
  rw [text_ofScaled]
  by_cases hn : n = 0
  · rw [hn, decimalSize_zero, bne_self_eq_false, Bool.and_false]
    decide
  · exact sign_append_decimalSize_ne hn

/-- The sign and the digits of a numeral without decimals can be read off its text. -/
theorem eq_of_text {x : PlainNumeral} {ds : List Char} (hx : x.fraction.length ≤ 0)
    (hds : ∀ d ∈ ds, d.isDigit = true) (h : x.text = sign negative ++ ds) :
    x.negative = negative ∧ x.whole = ds ∧ x.fraction = [] := by
  have hnil : x.fraction = [] := List.length_eq_zero_iff.mp (Nat.le_zero.mp hx)
  have hminus : ∀ {cs : List Char}, (∀ c ∈ cs, c.isDigit = true) → '-' ∉ cs :=
    fun hcs hmem => absurd (hcs '-' hmem) (by decide)
  rw [text, if_pos hnil, List.append_nil] at h
  -- a minus is no digit, so it stands on both sides or on none
  cases hs : x.negative <;> cases negative <;>
    simp only [hs, sign, if_true, Bool.false_eq_true, if_false, List.nil_append, List.cons_append,
      List.cons.injEq, true_and] at h
  · exact ⟨rfl, h, hnil⟩
  · exact absurd (by simp [h]) (hminus x.isDigit_whole)
  · exact absurd (by simp [← h]) (hminus hds)
  · exact ⟨rfl, h, hnil⟩

end PlainNumeral

/-! ## Texts that render a number -/

/-- Half a unit of the last decimal is allowed, and `10 ^ -12` where that is more. -/
structure Renders (places : Nat) (q : Rat) (text : List Char) : Prop where
  ne_negativeZero : text ≠ ['-', '0']
  numeral : ∃ x : PlainNumeral, x.text = text ∧ x.fraction.length ≤ places ∧
    |x.value - q| ≤ max (1 / 10 ^ places / 2) (1 / 10 ^ 12)

section

variable (negative : Bool) {num den : Nat}

/-- The numeral of a scaled number renders what it is near to. -/
theorem renders_ofScaled {places p n : Nat} (hp : p ≤ places)
    (hnear : |(n : Rat) / 10 ^ p - num / den| ≤ max (1 / 10 ^ places / 2) (1 / 10 ^ 12)) :
    Renders places (Double.signedUnits negative num / den)
      (sign (negative && n != 0) ++ decimalSize p n) := by
  rw [← PlainNumeral.text_ofScaled]
  refine ⟨PlainNumeral.text_ofScaled_ne _ _ _, _, rfl, ?_, ?_⟩
  · exact (PlainNumeral.length_fraction_ofScaled _ _ _).trans hp
  · rwa [PlainNumeral.value_ofScaled, Double.abs_signedUnits_sub]

theorem abs_div_sub_whole (hd : 0 < den) (whole : Nat) :
    |(num : Rat) / den - whole| = wholeDistance num den whole / den := by
  have hden : (0 : Rat) < den := Nat.cast_pos.mpr hd
  have hsplit : (num : Rat) / den - whole = (num - whole * den) / den := by field_simp
  have hdistance : wholeDistance num den whole = ((num : Int) - (whole * den : Nat)).natAbs := by
    rw [wholeDistance]
    omega
  rw [hsplit, abs_div, abs_of_pos hden, hdistance, Nat.cast_natAbs, Int.cast_abs]
  push_cast
  rfl

theorem nearlyWhole_iff (hd : 0 < den) : NearlyWhole num den ↔
    |(num : Rat) / den - roundHalfEven num den| < wholeMargin.1 / wholeMargin.2 := by
  have hden : (0 : Rat) < den := Nat.cast_pos.mpr hd
  have hmargin : (0 : Rat) < (wholeMargin.2 : Nat) := Nat.cast_pos.mpr (by decide)
  rw [abs_div_sub_whole hd, div_lt_div_iff₀ hden hmargin, NearlyWhole]
  exact_mod_cast Iff.rfl

theorem distance_lt_iff (hd : 0 < den) (whole : Nat) :
    wholeDistance num den whole * 10 ^ 12 < den ↔ |(num : Rat) / den - whole| < 1 / 10 ^ 12 := by
  have hden : (0 : Rat) < den := Nat.cast_pos.mpr hd
  rw [abs_div_sub_whole hd, div_lt_div_iff₀ hden (by positivity), one_mul]
  exact_mod_cast Iff.rfl

/-- A nearly whole value is rendered by the whole number, whatever the number of decimals. -/
theorem renders_wholeText (hd : 0 < den) (hnear : NearlyWhole num den) (places : Nat) :
    Renders places (Double.signedUnits negative num / den)
      (wholeText negative (roundHalfEven num den)) := by
  have hdistance := (distance_lt_iff hd _).mp hnear.distance_lt
  rw [wholeText, ← decimalSize_noDecimals]
  refine renders_ofScaled negative (Nat.zero_le places) ?_
  rw [pow_zero, div_one, abs_sub_comm]
  exact hdistance.le.trans (le_max_right _ _)

/-- With one decimal or more, the text renders the value. -/
theorem renders_trimmedText (hd : 0 < den) {places : Nat} (hp : 0 < places) :
    Renders places (Double.signedUnits negative num / den)
      (trimmedText negative num den places) := by
  have hpow : 0 < Nat.pow 10 places := Nat.pow_pos (by decide)
  have hnear := roundHalfEven_scaled_near num hd hpow
  rw [Nat.pow_eq, Nat.cast_pow, Nat.cast_ofNat] at hnear
  rw [trimmedText_eq hp]
  refine renders_ofScaled negative le_rfl (hnear.trans (le_max_of_le_left ?_))
  rw [div_div, mul_comm]

end

/-! ## No decimals -/

namespace Decimal

theorem digits_ten_mul {m : Nat} (hm : 0 < m) : digits (10 * m) = digits m ++ ['0'] :=
  (Nat.toDigits_append_toDigits (by decide) hm (by decide : 0 < 10)).symm

theorem dropTrailing_digits_of_not_dvd {n : Nat} (h : ¬10 ∣ n) :
    dropTrailing '0' (digits n) = digits n := by
  have hlast : ∃ cs, digits n = cs ++ [(n % 10).digitChar] := by
    rcases Nat.lt_or_ge n 10 with hlt | hge
    · refine ⟨[], ?_⟩
      rw [digits, Nat.toDigits_of_lt_base hlt, Nat.mod_eq_of_lt hlt]
      rfl
    · exact ⟨_, Nat.toDigits_of_base_le (by decide) hge⟩
  have hdigit : ∀ r < 10, r ≠ 0 → Nat.digitChar r ≠ '0' := by decide
  obtain ⟨cs, hcs⟩ := hlast
  have hne := hdigit (n % 10) (Nat.mod_lt n (by decide)) fun h0 => h (Nat.dvd_of_mod_eq_zero h0)
  rw [hcs, dropTrailing_append_cons hne]
  rfl

theorem dropTrailing_digits_ne_nil {n : Nat} (hn : n ≠ 0) : dropTrailing '0' (digits n) ≠ [] := by
  intro h
  obtain ⟨zeros, hsplit⟩ := dropTrailing_append_replicate '0' (digits n)
  rw [h, List.nil_append] at hsplit
  have hvalue := natValue_digits n
  rw [hsplit, natValue_zeros] at hvalue
  exact hn hvalue.symm

theorem natValue_dropTrailing_le (cs : List Char) :
    Numeral.natValue (dropTrailing '0' cs) ≤ Numeral.natValue cs := by
  obtain ⟨zeros, hsplit⟩ := dropTrailing_append_replicate '0' cs
  have hvalue := congrArg Numeral.natValue hsplit
  rw [natValue_append, natValue_zeros, Nat.add_zero] at hvalue
  rw [hvalue]
  exact Nat.le_mul_of_pos_left _ (Nat.pow_pos (by decide))

theorem isDigit_of_mem_dropTrailing {n : Nat} {c : Char} (h : c ∈ dropTrailing '0' (digits n)) :
    c.isDigit = true :=
  isDigit_of_mem_digits (mem_of_mem_dropTrailing h)

section

variable (negative : Bool) {num den : Nat}

theorem fixedText_noDecimals :
    fixedText negative num den 0 = sign negative ++ digits (roundHalfEven num den) := by
  rw [fixedText, pointed, if_pos rfl, show Nat.pow 10 0 = 1 from rfl, Nat.mul_one]

/-- A value that is rounded to zero keeps its sign only. -/
theorem trimmedText_noDecimals_zero (h : roundHalfEven num den = 0) :
    trimmedText negative num den 0 = if negative then ['-'] else ['0'] := by
  rw [trimmedText, fixedText_noDecimals, h]
  cases negative <;> rfl

/-- Any other one loses the zeros at the end of its whole part. -/
theorem trimmedText_noDecimals (h : roundHalfEven num den ≠ 0) :
    trimmedText negative num den 0 =
      sign negative ++ dropTrailing '0' (digits (roundHalfEven num den)) := by
  have hne := dropTrailing_digits_ne_nil h
  have hpoint : '.' ∉ sign negative ++ dropTrailing '0' (digits (roundHalfEven num den)) := by
    simp only [List.mem_append, not_or]
    exact ⟨point_not_mem_sign negative,
      fun hmem => absurd (isDigit_of_mem_dropTrailing hmem) (by decide)⟩
  simp only [trimmedText, fixedText_noDecimals, dropTrailing_append hne,
    dropTrailing_of_not_mem hpoint]
  rw [if_neg]
  rintro (hnil | hzero)
  · exact hne (List.append_eq_nil_iff.mp hnil).2
  · have hlast := getLast?_dropTrailing '0' (sign negative ++ digits (roundHalfEven num den))
    rw [dropTrailing_append hne, hzero] at hlast
    exact hlast rfl

end

end Decimal

section

variable (negative : Bool) {num den : Nat}

theorem renders_digits (hd : 0 < den) :
    Renders 0 (Double.signedUnits negative num / den)
      (sign (negative && roundHalfEven num den != 0) ++ digits (roundHalfEven num den)) := by
  rw [← decimalSize_noDecimals]
  refine renders_ofScaled negative le_rfl (le_max_of_le_left ?_)
  rw [pow_zero, div_one, div_one]
  exact roundHalfEven_half hd

/-- A zero less at the end of the whole part is a number that is too far away. -/
theorem not_renders_dropTrailing (hd : 0 < den) (h0 : roundHalfEven num den ≠ 0)
    (hten : 10 ∣ roundHalfEven num den) :
    ¬Renders 0 (Double.signedUnits negative num / den)
      (sign negative ++ dropTrailing '0' (digits (roundHalfEven num den))) := by
  rintro ⟨-, x, htext, hfraction, hnear⟩
  obtain ⟨m, hm⟩ := hten
  have hpos : 0 < m := by omega
  obtain ⟨hsign, hwhole, hnil⟩ :=
    PlainNumeral.eq_of_text negative hfraction (fun _ => isDigit_of_mem_dropTrailing) htext
  rw [hm, digits_ten_mul hpos, dropTrailing_append_singleton] at hwhole
  have hvalue : x.value = (Double.signedUnits negative (Numeral.natValue x.whole) : Rat) / 1 := by
    rw [PlainNumeral.value, PlainNumeral.size, hnil, hsign]
    cases negative <;> simp [Double.signedUnits, Numeral.natValue]
  have hsmall : (Numeral.natValue x.whole : Rat) ≤ m := by
    rw [hwhole, Nat.cast_le]
    exact (natValue_dropTrailing_le _).trans_eq (natValue_digits m)
  have hhalf : |(roundHalfEven num den : Rat) - num / den| ≤ 1 / 2 := roundHalfEven_half hd
  have hone : (1 : Rat) ≤ m := by exact_mod_cast hpos
  rw [hvalue, Double.abs_signedUnits_sub, div_one, pow_zero, div_one,
    max_eq_left (by norm_num)] at hnear
  rw [hm] at hhalf
  push_cast at hhalf
  -- the value is near `10 m`, and what is left of the digits denotes no more than `m`
  have hlow := (abs_le.mp hhalf).2
  have hhigh := (abs_le.mp hnear).1
  linarith

/-- Without decimals, a text renders the value unless it is short of zeros, or a sign alone. -/
theorem renders_noDecimals_iff (hd : 0 < den) :
    Renders 0 (Double.signedUnits negative num / den) (trimmedText negative num den 0) ↔
      ¬10 ∣ roundHalfEven num den ∨ roundHalfEven num den = 0 ∧ negative = false := by
  have hdigits := @renders_digits negative num den hd
  by_cases h0 : roundHalfEven num den = 0
  · rw [trimmedText_noDecimals_zero negative h0, h0]
    rw [h0] at hdigits
    cases negative with
    | false => exact iff_of_true hdigits (.inr ⟨rfl, rfl⟩)
    | true =>
      refine iff_of_false ?_ (by decide)
      rintro ⟨-, x, htext, hfraction, -⟩
      have hwhole := (PlainNumeral.eq_of_text true hfraction (List.forall_mem_nil _) htext).2.1
      exact x.whole_ne_nil hwhole
  · rw [trimmedText_noDecimals negative h0]
    by_cases hten : 10 ∣ roundHalfEven num den
    · refine iff_of_false (not_renders_dropTrailing negative hd h0 hten) ?_
      rintro (hnot | ⟨hzero, -⟩)
      · exact hnot hten
      · exact h0 hzero
    · rw [bne_iff_ne.mpr h0, Bool.and_true] at hdigits
      rw [dropTrailing_digits_of_not_dvd hten]
      exact iff_of_true hdigits (.inl hten)

end

/-! ## Numbers -/

theorem nearlyWhole_zero {den : Nat} (hd : 0 < den) : NearlyWhole 0 den := by
  have hmargin : 0 < wholeMargin.1 := by decide
  rw [NearlyWhole, wholeDistance, roundHalfEven_zero, Nat.zero_mul, Nat.zero_mul]
  exact Nat.mul_pos hmargin hd

/-- A whole number as a text. -/
def Decimal.integerText (k : Int) : List Char := sign (decide (k < 0)) ++ digits k.natAbs

theorem wholeText_eq (s : Bool) (n : Nat) :
    wholeText s n = integerText (Double.signedUnits s n) := by
  rw [wholeText, integerText, Double.natAbs_signedUnits]
  by_cases hn : n = 0
  · subst hn
    cases s <;> rfl
  · rw [Double.signedUnits_neg_iff hn, bne_iff_ne.mpr hn, Bool.and_true]

namespace Double

/-- A finite number rounded to a whole one, half to even. -/
def rounded? : Double → Option Int
  | .finite s u _ => some (signedUnits s (roundHalfEven u unitsPerOne))
  | _ => none

/-- The text of a finite number without zeros at the end, whether it is nearly whole or not. -/
def trimmed? (places : Nat) : Double → Option (List Char)
  | .finite s u _ => some (trimmedText s u unitsPerOne places)
  | _ => none

variable {v : Double} {q : Rat} {k : Int}

theorem exists_finite (hv : v.toRat? = some q) (hk : v.rounded? = some k) :
    ∃ s u hu, v = .finite s u hu ∧ (signedUnits s u : Rat) / unitsPerOne = q ∧
      signedUnits s (roundHalfEven u unitsPerOne) = k := by
  cases v with
  | finite s u hu =>
    obtain ⟨i, hi, hq⟩ := toRat?_eq_some_iff.mp hv
    obtain rfl : signedUnits s u = i := Option.some.inj hi
    exact ⟨s, u, hu, rfl, hq.symm, Option.some.inj hk⟩
  | infinite s => cases hk
  | nan => cases hk

theorem abs_sub_rounded (s : Bool) (u whole : Nat) :
    |(signedUnits s u : Rat) / unitsPerOne - signedUnits s whole| =
      |(u : Rat) / unitsPerOne - whole| := by
  have habs := abs_signedUnits_sub s u whole unitsPerOne 1
  rwa [div_one, div_one] at habs

theorem ten_dvd_signedUnits {s : Bool} {n : Nat} : (10 : Int) ∣ signedUnits s n ↔ 10 ∣ n := by
  have hdvd : ((10 : Nat) : Int) ∣ signedUnits s n ↔ 10 ∣ (signedUnits s n).natAbs :=
    Int.natCast_dvd
  rwa [natAbs_signedUnits] at hdvd

theorem div_units_pos_iff {s : Bool} {u : Nat} (hu : u ≠ 0) :
    0 < (signedUnits s u : Rat) / unitsPerOne ↔ s = false := by
  have hone : (0 : Rat) < unitsPerOne := Nat.cast_pos.mpr unitsPerOne_pos
  rw [div_pos_iff_of_pos_right hone, Int.cast_pos]
  cases s with
  | false => simpa [signedUnits] using Nat.pos_of_ne_zero hu
  | true => simp [signedUnits]

/-- A nearly whole number is rendered, whatever the number of decimals. -/
theorem exists_renders_of_near (hv : v.toRat? = some q) (hk : v.rounded? = some k)
    (hnear : |q - k| < wholeMargin.1 / wholeMargin.2) (places : Nat) :
    ∃ text, v.text places = .ok text ∧ Renders places q text := by
  obtain ⟨s, u, hu, rfl, rfl, rfl⟩ := exists_finite hv hk
  rw [abs_sub_rounded, ← nearlyWhole_iff unitsPerOne_pos] at hnear
  refine ⟨wholeText s (roundHalfEven u unitsPerOne), ?_, ?_⟩
  · exact partText_of_nearlyWhole hnear places s
  · exact renders_wholeText s unitsPerOne_pos hnear places

section

variable (hv : v.toRat? = some q) (hk : v.rounded? = some k)
  (hfar : ¬|q - k| < wholeMargin.1 / wholeMargin.2)
include hv hk hfar

/-- Any other one is rendered if decimals are asked for, and no more than a number can have. -/
theorem exists_renders_decimals_iff {places : Nat} (hp : 0 < places) :
    (∃ text, v.text places = .ok text ∧ Renders places q text) ↔ places ≤ maxPlaces := by
  obtain ⟨s, u, hu, rfl, rfl, rfl⟩ := exists_finite hv hk
  rw [abs_sub_rounded, ← nearlyWhole_iff unitsPerOne_pos] at hfar
  constructor
  · rintro ⟨text, htext, -⟩
    by_contra hmax
    have herror := partText_manyPlaces hfar (Int.not_le.mp hmax) s
    cases herror.symm.trans htext
  · intro hmax
    refine ⟨trimmedText s u unitsPerOne places, ?_, ?_⟩
    · exact partText_of_not_nearlyWhole hfar hmax s
    · exact renders_trimmedText s unitsPerOne_pos hp

/-- Without decimals it is rendered only if the whole part has no zeros to lose and, if it is zero,
no sign. -/
theorem exists_renders_noDecimals_iff :
    (∃ text, v.text 0 = .ok text ∧ Renders 0 q text) ↔ ¬(10 : Int) ∣ k ∨ k = 0 ∧ 0 < q := by
  obtain ⟨s, u, hu, rfl, rfl, rfl⟩ := exists_finite hv hk
  rw [abs_sub_rounded, ← nearlyWhole_iff unitsPerOne_pos] at hfar
  have htext : (finite s u hu).text 0 = .ok (trimmedText s u unitsPerOne 0) :=
    @partText_of_not_nearlyWhole u unitsPerOne hfar 0 (by decide) s
  have hne : u ≠ 0 := by
    rintro rfl
    exact hfar (nearlyWhole_zero unitsPerOne_pos)
  rw [ten_dvd_signedUnits, signedUnits_eq_zero_iff, div_units_pos_iff hne,
    ← renders_noDecimals_iff s unitsPerOne_pos, htext]
  constructor
  · rintro ⟨text, heq, hrenders⟩
    cases heq
    exact hrenders
  · exact fun hrenders => ⟨_, rfl, hrenders⟩

end

/-- When the text of a finite number renders it: if the number is nearly whole, or at least one
decimal is asked for and no more than a number can have, or none is and the number is rounded to a
whole one that does not end in a zero, or to zero from above. -/
theorem text_renders_iff (hv : v.toRat? = some q) (hk : v.rounded? = some k) (places : Nat) :
    (∃ text, v.text places = .ok text ∧ Renders places q text) ↔
      |q - k| < wholeMargin.1 / wholeMargin.2 ∨ (1 ≤ places ∧ places ≤ maxPlaces) ∨
        places = 0 ∧ (¬(10 : Int) ∣ k ∨ k = 0 ∧ 0 < q) := by
  by_cases hnear : |q - k| < wholeMargin.1 / wholeMargin.2
  · exact iff_of_true (exists_renders_of_near hv hk hnear places) (.inl hnear)
  · rw [or_iff_right hnear]
    rcases Nat.eq_zero_or_pos places with rfl | hp
    · rw [or_iff_right (by decide), and_iff_right rfl]
      exact exists_renders_noDecimals_iff hv hk hnear
    · rw [or_iff_left (fun h => hp.ne' h.1), and_iff_right (Nat.succ_le_of_lt hp)]
      exact exists_renders_decimals_iff hv hk hnear hp

theorem text_renders_iff_third :
    (ofRatio true 1 3).toRat? = some (-6004799503160661 / 18014398509481984) ∧
      (ofRatio true 1 3).rounded? = some 0 ∧
      ∃ text, (ofRatio true 1 3).text 4 = .ok text ∧
        Renders 4 (-6004799503160661 / 18014398509481984) text := by
  have hv : (ofRatio true 1 3).toRat? = some (-6004799503160661 / 18014398509481984) := by
    decide +kernel
  have hk : (ofRatio true 1 3).rounded? = some 0 := by decide +kernel
  exact ⟨hv, hk, (text_renders_iff hv hk 4).mpr (.inr (.inl (by decide)))⟩

/-- Without decimals, `10.25` is written as `1` and `-0.25` as a sign alone. -/
theorem text_noDecimals_fails :
    ((ofRatio false 41 4).toRat? = some (41 / 4) ∧
      ((ofRatio false 41 4).text 0).toOption = some ['1'] ∧
      ¬∃ text, (ofRatio false 41 4).text 0 = .ok text ∧ Renders 0 (41 / 4) text) ∧
    (ofRatio true 1 4).toRat? = some (-1 / 4) ∧
      ((ofRatio true 1 4).text 0).toOption = some ['-'] ∧
      ¬∃ text, (ofRatio true 1 4).text 0 = .ok text ∧ Renders 0 (-1 / 4) text := by
  have hten : (ofRatio false 41 4).toRat? = some (41 / 4) := by decide +kernel
  have htenWhole : (ofRatio false 41 4).rounded? = some 10 := by decide +kernel
  have hminus : (ofRatio true 1 4).toRat? = some (-1 / 4) := by decide +kernel
  have hminusWhole : (ofRatio true 1 4).rounded? = some 0 := by decide +kernel
  refine ⟨⟨hten, by decide +kernel, ?_⟩, hminus, by decide +kernel, ?_⟩
  · rw [exists_renders_noDecimals_iff hten htenWhole (by decide +kernel)]
    decide +kernel
  · rw [exists_renders_noDecimals_iff hminus hminusWhole (by decide +kernel)]
    decide +kernel

/-- The rule for nearly whole numbers agrees with the general one. A number less than `10 ^ -12`
away from the whole number that it is rounded to is written as that, with the rule or without it, if
at least one and at most eleven decimals are asked for. -/
theorem text_of_near_whole (hv : v.toRat? = some q) (hk : v.rounded? = some k)
    (hnear : |q - k| < 1 / 10 ^ 12) {places : Nat} (hlow : 1 ≤ places) (hhigh : places ≤ 11) :
    v.trimmed? places = some (integerText k) ∧ v.text places = .ok (integerText k) := by
  obtain ⟨s, u, hu, rfl, rfl, rfl⟩ := exists_finite hv hk
  rw [abs_sub_rounded, ← distance_lt_iff unitsPerOne_pos] at hnear
  have htrimmed := trimmedText_of_distance_lt hlow hhigh hnear s
  rw [wholeText_eq] at htrimmed
  have htext : (finite s u hu).text places = .ok (trimmedText s u unitsPerOne places) :=
    partText_eq hlow hhigh s u unitsPerOne
  exact ⟨congrArg some htrimmed, htext.trans (congrArg _ htrimmed)⟩

/-- `-(3 + 2 ^ -40)` is nearly whole. -/
theorem text_of_near_whole_three :
    (ofRatio true 3298534883329 (Nat.pow 2 40)).toRat? = some (-3298534883329 / 1099511627776) ∧
      (ofRatio true 3298534883329 (Nat.pow 2 40)).rounded? = some (-3) ∧
      |(-3298534883329 / 1099511627776 : Rat) - (-3 : Int)| < 1 / 10 ^ 12 ∧
      (ofRatio true 3298534883329 (Nat.pow 2 40)).trimmed? 11 = some ['-', '3'] ∧
      (ofRatio true 3298534883329 (Nat.pow 2 40)).text 11 = .ok ['-', '3'] := by
  have hv : (ofRatio true 3298534883329 (Nat.pow 2 40)).toRat? =
      some (-3298534883329 / 1099511627776) := by decide +kernel
  have hk : (ofRatio true 3298534883329 (Nat.pow 2 40)).rounded? = some (-3) := by decide +kernel
  have hnear : |(-3298534883329 / 1099511627776 : Rat) - (-3 : Int)| < 1 / 10 ^ 12 := by
    decide +kernel
  exact ⟨hv, hk, hnear, text_of_near_whole hv hk hnear (by decide) (by decide)⟩

-- from twelve decimals on the rule makes a difference
example : (ofRatio true 3298534883329 (Nat.pow 2 40)).trimmed? 12 =
    some "-3.000000000001".toList := by decide +kernel

end Double

end GaussJordan
