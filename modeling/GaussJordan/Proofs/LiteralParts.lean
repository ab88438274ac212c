import GaussJordan.Proofs.TickRounding

/-!
# GaussJordan.Proofs.LiteralParts

The parts of a literal on their own, and with opposite signs.

* `Literal.value_pair_iff`: a real and an imaginary part next to each other have a value exactly if
  each of them has one alone, and the parts of the value are theirs.
* `LiteralText.flipped`: the text with flipped signs is the text of the negated literal.
* `Literal.parts_neg`: no step of the arithmetic prefers a sign, so the quantities of a negated
  literal are the negated quantities.

`readValue_parts` says the same of tokens.
-/

namespace GaussJordan

open Literal (tokenText)

/-! ## Texts with opposite signs -/

def flipSign : Char → Char
  | '+' => '-'
  | '-' => '+'
  | c => c

/-- Flips the signs in a text. What stands behind an `e` stays: a sign there is the exponent's. -/
def flipInner : List Char → List Char
  | 'e' :: c :: rest => 'e' :: c :: flipInner rest
  | c :: rest => flipSign c :: flipInner rest
  | [] => []

/-- Flips the sign of every part of a text. A leading sign that is absent becomes a minus. -/
def flipSigns : List Char → List Char
  | '+' :: rest => '-' :: flipInner rest
  | '-' :: rest => '+' :: flipInner rest
  | rest => '-' :: flipInner rest

/-- A piece in which there is nothing to flip. -/
def Unflipped (cs : List Char) : Prop := ∀ rest, flipInner (cs ++ rest) = cs ++ flipInner rest

section

variable {cs ds : List Char}

theorem unflipped_nil : Unflipped [] := fun _ => rfl

theorem Unflipped.eq (h : Unflipped cs) : flipInner cs = cs := by
  have hcs := h []
  rwa [show flipInner [] = [] from rfl, List.append_nil] at hcs

theorem Unflipped.append (hcs : Unflipped cs) (hds : Unflipped ds) : Unflipped (cs ++ ds) := by
  intro rest
  rw [List.append_assoc, hcs, hds, List.append_assoc]

theorem Unflipped.cons {c : Char} (he : c ≠ 'e') (hplus : c ≠ '+') (hminus : c ≠ '-')
    (hcs : Unflipped cs) : Unflipped (c :: cs) := by
  intro rest
  have hc : flipSign c = c := by
    unfold flipSign
    split
    · exact absurd rfl hplus
    · exact absurd rfl hminus
    · rfl
  rw [List.cons_append, flipInner.eq_2 _ _ fun _ _ heq _ => he heq, hc, hcs]
  rfl

theorem unflipped_of_isDigit (h : ∀ c ∈ cs, c.isDigit = true) : Unflipped cs := by
  induction cs with
  | nil => exact unflipped_nil
  | cons c cs ih =>
    have hc := h c List.mem_cons_self
    have he : c ≠ 'e' := by
      rintro rfl
      exact absurd hc (by decide)
    have hsign := ne_sign_of_isDigit hc
    exact .cons he hsign.1 hsign.2 (ih fun d hd => h d (List.mem_cons_of_mem c hd))

theorem unflipped_exponent {sign : List Char} {negative : Bool}
    (hsign : OptionalSignText sign negative) (hds : DigitsText ds) :
    Unflipped ('e' :: (sign ++ ds)) := by
  have hdigits := unflipped_of_isDigit hds.isDigit
  intro rest
  cases hsign with
  | absent =>
    obtain ⟨d, ds, rfl⟩ := List.exists_cons_of_ne_nil hds.ne_nil
    have htail : Unflipped ds :=
      unflipped_of_isDigit fun c hc => hds.isDigit c (List.mem_cons_of_mem d hc)
    exact congrArg ('e' :: d :: ·) (htail rest)
  | present h =>
    cases h with
    | plus => exact congrArg ('e' :: '+' :: ·) (hdigits rest)
    | minus => exact congrArg ('e' :: '-' :: ·) (hdigits rest)

theorem MantissaText.unflipped {whole : List Char} {fraction : Option (List Char)}
    (h : MantissaText cs whole fraction) : Unflipped cs := by
  have hpoint : ∀ {es : List Char}, (∀ c ∈ es, c.isDigit = true) → Unflipped ('.' :: es) :=
    fun hes => .cons (by decide) (by decide) (by decide) (unflipped_of_isDigit hes)
  cases h with
  | whole hds => exact unflipped_of_isDigit hds.isDigit
  | pointed hds hes => exact (unflipped_of_isDigit hds.isDigit).append (hpoint hes)
  | bare hes => exact hpoint hes.isDigit

theorem NumeralText.unflipped {x : Numeral} (h : NumeralText cs x) : Unflipped cs := by
  cases h with
  | plain hmantissa => exact hmantissa.unflipped
  | scaled hmantissa hsign hds => exact hmantissa.unflipped.append (unflipped_exponent hsign hds)

theorem QuotientText.unflipped {q : Quotient} (h : QuotientText cs q) : Unflipped cs := by
  cases h with
  | whole hx => exact hx.unflipped
  | divided hx hy =>
    exact hx.unflipped.append (.cons (by decide) (by decide) (by decide) hy.unflipped)

theorem SizeText.unflipped {size : Option Quotient} {imaginary : Bool}
    (h : SizeText cs size imaginary) : Unflipped cs := by
  have hunit : Unflipped ['i'] := .cons (by decide) (by decide) (by decide) unflipped_nil
  cases h with
  | unit => exact hunit
  | real hq => exact hq.unflipped
  | imaginary hq => exact hq.unflipped.append hunit

end

def Part.neg (x : Part) : Part := { x with negative := !x.negative }

def Literal.neg (x : Literal) : Literal := ⟨x.first.neg, x.second.map Part.neg⟩

section

variable {cs ds : List Char}

theorem SignedPartText.flipped {x : Part} (h : SignedPartText cs x) :
    SignedPartText (flipInner cs) x.neg := by
  obtain ⟨hsign, hsize⟩ := h
  rename_i size _ _ _
  have hkept := hsize.unflipped.eq
  cases hsign with
  | plus =>
    have heq : flipInner (['+'] ++ size) = '-' :: size := congrArg ('-' :: ·) hkept
    rw [heq]
    exact .intro .minus hsize
  | minus =>
    have heq : flipInner (['-'] ++ size) = '+' :: size := congrArg ('+' :: ·) hkept
    rw [heq]
    exact .intro .plus hsize

theorem PartText.flipped_append {x : Part} (h : PartText cs x) (rest : List Char) :
    ∃ ds, PartText ds x.neg ∧ flipSigns (cs ++ rest) = ds ++ flipInner rest := by
  obtain ⟨hsign, hsize⟩ := h
  rename_i size _ _ _
  cases hsign with
  | absent =>
    refine ⟨'-' :: size, .intro (.present .minus) hsize, ?_⟩
    have hhead := hsize.head rest
    rw [List.nil_append, List.cons_append, ← hsize.unflipped rest]
    generalize size ++ rest = text at *
    unfold flipSigns
    split
    · exact absurd rfl (hhead '+' rfl).1
    · exact absurd rfl (hhead '-' rfl).2
    · rfl
  | present hsign =>
    cases hsign with
    | plus => exact ⟨'-' :: size, .intro (.present .minus) hsize,
        congrArg ('-' :: ·) (hsize.unflipped rest)⟩
    | minus => exact ⟨'+' :: size, .intro (.present .plus) hsize,
        congrArg ('+' :: ·) (hsize.unflipped rest)⟩

/-- Flipping the signs of a text gives the text of the negated literal. -/
theorem LiteralText.flipped {x : Literal} (h : LiteralText cs x) :
    LiteralText (flipSigns cs) x.neg := by
  cases h with
  | single h =>
    obtain ⟨ds, hds, heq⟩ := h.flipped_append []
    rw [List.append_nil, show flipInner [] = [] from rfl, List.append_nil] at heq
    rw [heq]
    exact .single hds
  | pair h h' himaginary =>
    obtain ⟨ds, hds, heq⟩ := h.flipped_append _
    rw [heq]
    exact .pair hds h'.flipped himaginary

end

/-! ## Negated quantities -/

namespace Quantity

theorem value_neg (x : Quantity) : x.neg.value = -x.value := by
  cases x <;> rfl

theorem addNonzero_neg (a b : Quantity) : a.neg.addNonzero b.neg = (a.addNonzero b).neg := by
  cases a with
  | exact a =>
    cases b with
    | exact b => exact congrArg exact (neg_add a b).symm
    | rounded bits b =>
      simp only [neg, addNonzero, roundSignificant_neg, ← neg_add]
  | rounded bits a =>
    cases b with
    | exact b => simp only [neg, addNonzero, roundSignificant_neg, ← neg_add]
    | rounded bits' b => simp only [neg, addNonzero, roundSignificant_neg, ← neg_add]

theorem add_neg (a b : Quantity) : a.neg.add b.neg = (a.add b).neg := by
  simp only [add, value_neg, neg_eq_zero, addNonzero_neg]
  split
  · rfl
  · split <;> rfl

theorem neg_twice (x : Quantity) : x.neg.neg = x := by
  cases x with
  | exact q => exact congrArg exact (neg_neg q)
  | rounded bits q => exact congrArg (rounded bits) (neg_neg q)

end Quantity

theorem bothValued_map {α β : Type} (f : α → β) (a b : Except Unvalued α) :
    bothValued (a.map f) (b.map f) = (bothValued a b).map fun p => (f p.1, f p.2) := by
  cases a with
  | ok a =>
    cases b with
    | ok b => rfl
    | error e => cases e <;> rfl
  | error e =>
    cases b with
    | ok b => cases e <;> rfl
    | error e' => cases e <;> cases e' <;> rfl

theorem bothValued_eq_ok_iff {α β : Type} {a : Except Unvalued α} {b : Except Unvalued β} {x : α}
    {y : β} : bothValued a b = .ok (x, y) ↔ a = .ok x ∧ b = .ok y := by
  cases a with
  | ok a =>
    cases b with
    | ok b => simp [bothValued]
    | error e => cases e <;> simp [bothValued]
  | error e =>
    cases b with
    | ok b => cases e <;> simp [bothValued]
    | error e' => cases e <;> cases e' <;> simp [bothValued]

theorem Part.quantity_neg (x : Part) : x.neg.quantity = x.quantity.map Quantity.neg := by
  obtain ⟨negative, size, imaginary⟩ := x
  have hsize : ∀ q : Except Unvalued Quantity,
      (q.bind fun q => .ok (if !negative then q.neg else q)) =
        (q.bind fun q => .ok (if negative then q.neg else q)).map Quantity.neg := by
    intro q
    cases q with
    | error e => rfl
    | ok q =>
      cases negative with
      | false => rfl
      | true => exact congrArg Except.ok q.neg_twice.symm
  cases size with
  | none => exact hsize (.ok (.exact 1))
  | some size => exact hsize size.quantity

theorem Literal.parts_neg (x : Literal) :
    x.neg.parts = x.parts.map fun p => (p.1.neg, p.2.neg) := by
  have hzero : (Quantity.exact 0).neg = .exact 0 := congrArg Quantity.exact neg_zero
  obtain ⟨first, second⟩ := x
  have himaginary : first.neg.imaginary = first.imaginary := rfl
  cases second with
  | none =>
    rw [Literal.neg, Option.map_none, parts, parts]
    simp only [Part.quantity_neg, himaginary]
    cases first.quantity with
    | error e => rfl
    | ok q =>
      cases first.imaginary with
      | false => exact congrArg (fun z => Except.ok (q.neg, z)) hzero.symm
      | true => exact congrArg (fun z => Except.ok (z, q.neg)) hzero.symm
  | some second =>
    rw [Literal.neg, Option.map_some, parts, parts]
    simp only [Part.quantity_neg, himaginary, bothValued_map]
    cases bothValued first.quantity second.quantity with
    | error e => rfl
    | ok p =>
      cases first.imaginary with
      | false => rfl
      | true =>
        change Except.ok (Quantity.exact 0, p.1.neg.add p.2.neg) =
          .ok ((Quantity.exact 0).neg, (p.1.add p.2).neg)
        rw [hzero, Quantity.add_neg]

/-! ## Values -/

namespace Quantity

theorem toDouble_zero : (exact 0).toDouble = .zero := by
  have hround : roundSignificant 53 (truncateSignificant exactBits 0) = 0 := by
    rw [truncateSignificant_zero, roundSignificant_zero]
  have hzero : (Double.ofRat 0).eq .zero = true :=
    (Double.eq_iff Double.units?_zero).mpr Double.units?_ofRat_zero
  simp only [toDouble, hround, hzero, if_true]

theorem isFinite_toDouble_neg (x : Quantity) :
    x.neg.toDouble.isFinite = true ↔ x.toDouble.isFinite = true := by
  rw [Double.isFinite_iff, Double.isFinite_iff, units?_toDouble_neg]
  cases x.toDouble.units? with
  | none => simp
  | some i => simp

/-- The double of a negated quantity compares equal to the negated double. -/
theorem eq_toDouble_neg (x : Quantity) (h : x.toDouble.isFinite = true) :
    x.neg.toDouble.eq x.toDouble.neg = true := by
  obtain ⟨i, hi⟩ := Double.isFinite_iff.mp h
  rw [Double.eq_iff (Double.units?_neg hi), units?_toDouble_neg, hi]
  rfl

end Quantity

namespace Literal

variable {a b : Part} {re im : Double}

theorem parts_single (a : Part) : (⟨a, none⟩ : Literal).parts = a.quantity.map fun q =>
    if a.imaginary then (.exact 0, q) else (q, .exact 0) := by
  rw [parts]
  cases a.quantity <;> rfl

theorem parts_pair (ha : a.imaginary = false) (b : Part) :
    (⟨a, some b⟩ : Literal).parts = bothValued a.quantity b.quantity := by
  rw [parts]
  simp only [ha, Bool.false_eq_true, if_false]
  cases bothValued a.quantity b.quantity <;> rfl

theorem value_real_iff (ha : a.imaginary = false) :
    (⟨a, none⟩ : Literal).value = .ok (re, im) ↔
      ∃ q, a.quantity = .ok q ∧ q.toDouble = re ∧ re.isFinite = true ∧ im = .zero := by
  rw [value_eq_ok_iff, parts_single, ha]
  constructor
  · rintro ⟨q, z, hparts, hre, him, hfinite, -⟩
    cases hq : a.quantity with
    | error e =>
      rw [hq] at hparts
      cases hparts
    | ok q' =>
      rw [hq] at hparts
      obtain ⟨rfl, rfl⟩ := Prod.mk.inj (Except.ok.inj hparts)
      exact ⟨q', rfl, hre, hfinite, him ▸ Quantity.toDouble_zero⟩
  · rintro ⟨q, hq, hre, hfinite, rfl⟩
    rw [hq]
    exact ⟨q, .exact 0, rfl, hre, Quantity.toDouble_zero, hfinite, rfl⟩

theorem value_imaginary_iff (hb : b.imaginary = true) :
    (⟨b, none⟩ : Literal).value = .ok (re, im) ↔
      ∃ q, b.quantity = .ok q ∧ q.toDouble = im ∧ im.isFinite = true ∧ re = .zero := by
  rw [value_eq_ok_iff, parts_single, hb]
  constructor
  · rintro ⟨z, q, hparts, hre, him, -, hfinite⟩
    cases hq : b.quantity with
    | error e =>
      rw [hq] at hparts
      cases hparts
    | ok q' =>
      rw [hq] at hparts
      obtain ⟨rfl, rfl⟩ := Prod.mk.inj (Except.ok.inj hparts)
      exact ⟨q', rfl, him, hfinite, hre ▸ Quantity.toDouble_zero⟩
  · rintro ⟨q, hq, him, hfinite, rfl⟩
    rw [hq]
    exact ⟨.exact 0, q, rfl, Quantity.toDouble_zero, him, rfl, hfinite⟩

/-- A real and an imaginary part are valued each on its own. -/
theorem value_pair_iff (ha : a.imaginary = false) (hb : b.imaginary = true) :
    (⟨a, some b⟩ : Literal).value = .ok (re, im) ↔
      (⟨a, none⟩ : Literal).value = .ok (re, .zero) ∧
        (⟨b, none⟩ : Literal).value = .ok (.zero, im) := by
  rw [value_eq_ok_iff, parts_pair ha, value_real_iff ha, value_imaginary_iff hb]
  constructor
  · rintro ⟨x, y, hparts, hre, him, hreFinite, himFinite⟩
    obtain ⟨hx, hy⟩ := bothValued_eq_ok_iff.mp hparts
    exact ⟨⟨x, hx, hre, hreFinite, rfl⟩, y, hy, him, himFinite, rfl⟩
  · rintro ⟨⟨x, hx, hre, hreFinite, -⟩, y, hy, him, himFinite, -⟩
    exact ⟨x, y, bothValued_eq_ok_iff.mpr ⟨hx, hy⟩, hre, him, hreFinite, himFinite⟩

theorem neg_twice (x : Literal) : x.neg.neg = x := by
  have hpart : ∀ y : Part, y.neg.neg = y := by
    intro y
    rw [Part.neg, Part.neg, Bool.not_not]
  obtain ⟨first, second⟩ := x
  cases second with
  | none => exact congrArg (Literal.mk · none) (hpart first)
  | some second => exact congrArg₂ (fun y z => Literal.mk y (some z)) (hpart first) (hpart second)

/-- The negated literal has the negated value. -/
theorem exists_value_neg {x : Literal} (h : x.value = .ok (re, im)) :
    ∃ re' im', x.neg.value = .ok (re', im') ∧ re'.eq re.neg = true ∧ im'.eq im.neg = true := by
  obtain ⟨a, b, hparts, rfl, rfl, hre, him⟩ := value_eq_ok_iff.mp h
  have hneg : x.neg.parts = .ok (a.neg, b.neg) := by
    rw [parts_neg, hparts]
    rfl
  refine ⟨a.neg.toDouble, b.neg.toDouble, ?_, a.eq_toDouble_neg hre, b.eq_toDouble_neg him⟩
  exact value_of_parts hneg (a.isFinite_toDouble_neg.mpr hre) (b.isFinite_toDouble_neg.mpr him)

end Literal

/-! ## Tokens -/

section

variable {token : String}

theorem readValue_pair_iff {f s : String} {a b : Part} (hf : PartText (tokenText f) a)
    (ha : a.imaginary = false) (hs : SignedPartText (tokenText s) b) (hb : b.imaginary = true)
    (htoken : tokenText token = tokenText f ++ tokenText s) {z : Complex Double} :
    readValue token = .ok z ↔
      ∃ u v, readValue f = .ok u ∧ readValue s = .ok v ∧ z.re = u.re ∧ z.im = v.im := by
  have hpair : LiteralText (tokenText token) ⟨a, some b⟩ := by
    rw [htoken]
    exact .pair hf hs hb
  have hreal := @readValue_eq_ok_iff f _ (.single hf)
  have himag := @readValue_eq_ok_iff s _ (.single hs.partText)
  rw [readValue_eq_ok_iff hpair, Literal.value_pair_iff ha hb]
  constructor
  · rintro ⟨hre, him⟩
    exact ⟨⟨z.re, .zero⟩, ⟨.zero, z.im⟩, hreal.mpr hre, himag.mpr him, rfl, rfl⟩
  · rintro ⟨u, v, hu, hv, hre, him⟩
    obtain ⟨q, hq, hre', hfinite, -⟩ := (Literal.value_real_iff ha).mp (hreal.mp hu)
    obtain ⟨r, hr, him', hfinite', -⟩ := (Literal.value_imaginary_iff hb).mp (himag.mp hv)
    rw [hre, him]
    exact ⟨(Literal.value_real_iff ha).mpr ⟨q, hq, hre', hfinite, rfl⟩,
      (Literal.value_imaginary_iff hb).mpr ⟨r, hr, him', hfinite', rfl⟩⟩

/-- The token with flipped signs is read as the negated value. -/
theorem exists_readValue_flipped {flipped : String} {x : Literal} {z : Complex Double}
    (h : LiteralText (tokenText token) x) (h' : LiteralText (tokenText flipped) x.neg)
    (hread : readValue token = .ok z) :
    ∃ w, readValue flipped = .ok w ∧ w.eq (-z) = true := by
  obtain ⟨re, im, hvalue, hre, him⟩ := Literal.exists_value_neg ((readValue_eq_ok_iff h).mp hread)
  exact ⟨⟨re, im⟩, (readValue_eq_ok_iff h').mpr hvalue, Bool.and_eq_true_iff.mpr ⟨hre, him⟩⟩

/-- A real part and a signed imaginary part behind it are read together exactly if each of them is
read, as the real part of the one and the imaginary part of the other. A token with the signs of all
parts flipped is read exactly if the token is, as the negated value. -/
theorem readValue_parts {x : Literal} (h : LiteralText (tokenText token) x) :
    (∀ (f s : String) (a b : Part), PartText (tokenText f) a → a.imaginary = false →
      SignedPartText (tokenText s) b → b.imaginary = true →
      tokenText token = tokenText f ++ tokenText s → ∀ z, readValue token = .ok z ↔
        ∃ u v, readValue f = .ok u ∧ readValue s = .ok v ∧ z.re = u.re ∧ z.im = v.im) ∧
    ∀ flipped : String, tokenText flipped = flipSigns (tokenText token) →
      ((∃ z, readValue token = .ok z) ↔ ∃ w, readValue flipped = .ok w) ∧
      ∀ z w, readValue token = .ok z → readValue flipped = .ok w → w.eq (-z) = true := by
  refine ⟨fun f s a b hf ha hs hb htoken z => readValue_pair_iff hf ha hs hb htoken, ?_⟩
  intro flipped hflipped
  have h' : LiteralText (tokenText flipped) x.neg := hflipped ▸ h.flipped
  refine ⟨⟨?_, ?_⟩, ?_⟩
  · rintro ⟨z, hz⟩
    obtain ⟨w, hw, -⟩ := exists_readValue_flipped h h' hz
    exact ⟨w, hw⟩
  · rintro ⟨w, hw⟩
    obtain ⟨z, hz, -⟩ := exists_readValue_flipped h' (x.neg_twice.symm ▸ h) hw
    exact ⟨z, hz⟩
  · intro z w hz hw
    obtain ⟨w', hw', heq⟩ := exists_readValue_flipped h h' hz
    obtain rfl : w' = w := Except.ok.inj (hw'.symm.trans hw)
    exact heq

end

/-- `-1e2+1/3i`: a floating-point real part and a fraction before the unit. -/
def mixedLiteral : Literal :=
  ⟨⟨true, some ⟨⟨['1'], none, some (false, ['2'])⟩, none⟩, false⟩,
    some ⟨false, some ⟨⟨['1'], none, none⟩, some ⟨['3'], none, none⟩⟩, true⟩⟩

theorem value_mixedLiteral : ∃ re im, mixedLiteral.value = .ok (re, im) ∧
    Complex.eq ⟨re, im⟩ ⟨.ofRatio true 100 1, .ofRatio false 1 3⟩ = true := by
  have hvalue : mixedLiteral.value.toOption.any (fun p =>
      Complex.eq ⟨p.1, p.2⟩ ⟨.ofRatio true 100 1, .ofRatio false 1 3⟩) = true := by
    decide +kernel
  have hisOk : mixedLiteral.value.isOk = true := by decide +kernel
  obtain ⟨⟨re, im⟩, hok⟩ := exists_ok_of_isOk hisOk
  rw [hok] at hvalue
  exact ⟨re, im, hok, hvalue⟩

/-- It is read as `-100` and a third of the unit, and with both signs flipped it is read as well. -/
theorem readValue_parts_mixed :
    LiteralText (tokenText "-1e2+1/3i") mixedLiteral ∧
    (∀ z, readValue "-1e2+1/3i" = .ok z ↔
      ∃ u v, readValue "-1e2" = .ok u ∧ readValue "+1/3i" = .ok v ∧ z.re = u.re ∧ z.im = v.im) ∧
    ((∃ z, readValue "-1e2+1/3i" = .ok z) ↔ ∃ w, readValue "+1e2-1/3i" = .ok w) ∧
    (∀ z w, readValue "-1e2+1/3i" = .ok z → readValue "+1e2-1/3i" = .ok w → w.eq (-z) = true) ∧
    ∃ z w, readValue "-1e2+1/3i" = .ok z ∧ readValue "+1e2-1/3i" = .ok w ∧
      z.eq ⟨.ofRatio true 100 1, .ofRatio false 1 3⟩ = true ∧ w.eq (-z) = true := by
  have htoken : tokenText "-1e2+1/3i" = ['-', '1', 'e', '2', '+', '1', '/', '3', 'i'] :=
    Literal.tokenText_of_all (by decide)
  have hfirst : tokenText "-1e2" = ['-', '1', 'e', '2'] :=
    Literal.tokenText_of_all (by decide)
  have hsecond : tokenText "+1/3i" = ['+', '1', '/', '3', 'i'] :=
    Literal.tokenText_of_all (by decide)
  have hflipped : tokenText "+1e2-1/3i" = ['+', '1', 'e', '2', '-', '1', '/', '3', 'i'] :=
    Literal.tokenText_of_all (by decide)
  have hdigit : ∀ {c : Char}, c.isDigit = true → DigitsText [c] := fun hc =>
    ⟨List.cons_ne_nil _ [], List.forall_mem_singleton.mpr hc⟩
  have hone : MantissaText ['1'] ['1'] none := .whole (hdigit (by decide))
  have hfirstText : PartText ['-', '1', 'e', '2']
      ⟨true, some ⟨⟨['1'], none, some (false, ['2'])⟩, none⟩, false⟩ :=
    .intro (.present .minus) (.real (.whole (.scaled hone .absent (hdigit (by decide)))))
  have hsecondText : SignedPartText ['+', '1', '/', '3', 'i']
      ⟨false, some ⟨⟨['1'], none, none⟩, some ⟨['3'], none, none⟩⟩, true⟩ :=
    .intro .plus (.imaginary (.divided (.plain hone) (.plain (.whole (hdigit (by decide))))))
  have h := LiteralText.pair hfirstText hsecondText rfl
  rw [← hfirst] at hfirstText
  rw [← hsecond] at hsecondText
  have happend : tokenText "-1e2+1/3i" = tokenText "-1e2" ++ tokenText "+1/3i" := by
    rw [htoken, hfirst, hsecond]
    rfl
  rw [show ['-', '1', 'e', '2'] ++ ['+', '1', '/', '3', 'i'] = _ from htoken.symm] at h
  obtain ⟨re, im, hok, hvalue⟩ := value_mixedLiteral
  have hz : readValue "-1e2+1/3i" = .ok ⟨re, im⟩ := (readValue_eq_ok_iff h).mpr hok
  obtain ⟨hfirstParts, hflippedParts⟩ := readValue_parts h
  obtain ⟨hiff, hneg⟩ := hflippedParts "+1e2-1/3i" (by rw [hflipped, htoken]; decide)
  obtain ⟨w, hw⟩ := hiff.mp ⟨_, hz⟩
  exact ⟨h, hfirstParts _ _ _ _ hfirstText rfl hsecondText rfl happend, hiff, hneg, _, w, hz, hw,
    hvalue, hneg _ w hz hw⟩

end GaussJordan
