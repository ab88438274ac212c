import GaussJordan.Literal.Basic

/-!
# GaussJordan.Proofs.LiteralGrammar

The grammar of literals, as relations between a text and what it stands for.

* `DigitsText`, `SignText`, `OptionalSignText`, `MantissaText`, `NumeralText`, `QuotientText`,
  `SizeText`: the pieces of a part.
* `PartText`, `SignedPartText`: `[sign] (quotient ['i'] | 'i')`, and the same with a sign.
* `LiteralText`: a part, maybe with a signed imaginary part behind it.

`Literal.read?_eq_some_iff`: reading a text gives a literal exactly if the grammar relates the two.
Each reader takes a piece of its own kind off the text, whatever follows (the `_sound` lemmas), and
takes all of it off where the piece cannot go on (the `_complete` lemmas): what follows is `Closed`
for it.
-/

namespace GaussJordan

/-- A run of at least one digit. -/
structure DigitsText (ds : List Char) : Prop where
  ne_nil : ds ≠ []
  isDigit : ∀ c ∈ ds, c.isDigit = true

inductive SignText : List Char → Bool → Prop where
  | plus : SignText ['+'] false
  | minus : SignText ['-'] true

inductive OptionalSignText : List Char → Bool → Prop where
  | absent : OptionalSignText [] false
  | present {cs : List Char} {negative : Bool} :
      SignText cs negative → OptionalSignText cs negative

/-- Digits, maybe a point, and maybe digits after it; or a point and digits. -/
inductive MantissaText : List Char → List Char → Option (List Char) → Prop where
  | whole {ds : List Char} : DigitsText ds → MantissaText ds ds none
  | pointed {ds es : List Char} :
      DigitsText ds → (∀ c ∈ es, c.isDigit = true) → MantissaText (ds ++ '.' :: es) ds (some es)
  | bare {es : List Char} : DigitsText es → MantissaText ('.' :: es) [] (some es)

/-- A mantissa, maybe with `e`, an optional sign and digits. -/
inductive NumeralText : List Char → Numeral → Prop where
  | plain {cs whole : List Char} {fraction : Option (List Char)} :
      MantissaText cs whole fraction → NumeralText cs ⟨whole, fraction, none⟩
  | scaled {cs whole sign ds : List Char} {fraction : Option (List Char)} {negative : Bool} :
      MantissaText cs whole fraction → OptionalSignText sign negative → DigitsText ds →
      NumeralText (cs ++ 'e' :: (sign ++ ds)) ⟨whole, fraction, some (negative, ds)⟩

inductive QuotientText : List Char → Quotient → Prop where
  | whole {cs : List Char} {x : Numeral} : NumeralText cs x → QuotientText cs ⟨x, none⟩
  | divided {cs ds : List Char} {x y : Numeral} :
      NumeralText cs x → NumeralText ds y → QuotientText (cs ++ '/' :: ds) ⟨x, some y⟩

/-- What stands behind the sign of a part. -/
inductive SizeText : List Char → Option Quotient → Bool → Prop where
  | unit : SizeText ['i'] none true
  | real {cs : List Char} {q : Quotient} : QuotientText cs q → SizeText cs (some q) false
  | imaginary {cs : List Char} {q : Quotient} :
      QuotientText cs q → SizeText (cs ++ ['i']) (some q) true

inductive PartText : List Char → Part → Prop where
  | intro {sign cs : List Char} {negative imaginary : Bool} {size : Option Quotient} :
      OptionalSignText sign negative → SizeText cs size imaginary →
      PartText (sign ++ cs) ⟨negative, size, imaginary⟩

/-- A part whose sign is there. -/
inductive SignedPartText : List Char → Part → Prop where
  | intro {sign cs : List Char} {negative imaginary : Bool} {size : Option Quotient} :
      SignText sign negative → SizeText cs size imaginary →
      SignedPartText (sign ++ cs) ⟨negative, size, imaginary⟩

theorem SignedPartText.partText {cs : List Char} {x : Part} (h : SignedPartText cs x) :
    PartText cs x := by
  obtain ⟨hsign, hsize⟩ := h
  exact .intro (.present hsign) hsize

/-- The first part may have a sign. The second one must have one, and it is imaginary. -/
inductive LiteralText : List Char → Literal → Prop where
  | single {cs : List Char} {x : Part} : PartText cs x → LiteralText cs ⟨x, none⟩
  | pair {cs ds : List Char} {x y : Part} :
      PartText cs x → SignedPartText ds y → y.imaginary = true →
      LiteralText (cs ++ ds) ⟨x, some y⟩

namespace Literal

/-! ## What a reader takes is of its kind -/

section

variable {cs rest : List Char}

theorem readDigits_sound {ds : List Char} (h : readDigits cs = (ds, rest)) (hne : ds ≠ []) :
    cs = ds ++ rest ∧ DigitsText ds := by
  have happend := readDigits_append cs
  have hdigits := readDigits_isDigit cs
  rw [h] at happend hdigits
  exact ⟨happend.symm, hne, hdigits⟩

theorem readSign?_sound {negative : Bool} (h : readSign? cs = some (negative, rest)) :
    ∃ sign, cs = sign ++ rest ∧ SignText sign negative := by
  unfold readSign? at h
  split at h
  · cases h
    exact ⟨['+'], rfl, .plus⟩
  · cases h
    exact ⟨['-'], rfl, .minus⟩
  · cases h

theorem readSign?_getD_sound {negative : Bool}
    (h : (readSign? cs).getD (false, cs) = (negative, rest)) :
    ∃ sign, cs = sign ++ rest ∧ OptionalSignText sign negative := by
  cases hsign : readSign? cs with
  | none =>
    rw [hsign] at h
    cases h
    exact ⟨[], rfl, .absent⟩
  | some read =>
    rw [hsign] at h
    obtain rfl : read = (negative, rest) := h
    obtain ⟨sign, hcs, htext⟩ := readSign?_sound hsign
    exact ⟨sign, hcs, .present htext⟩

theorem readExponent?_sound {negative : Bool} {ds : List Char}
    (h : readExponent? cs = some ((negative, ds), rest)) :
    ∃ sign, cs = 'e' :: (sign ++ ds) ++ rest ∧ OptionalSignText sign negative ∧
      DigitsText ds := by
  unfold readExponent? at h
  split at h
  · rename_i tail
    cases hsign : (readSign? tail).getD (false, tail) with
    | mk negative' signless =>
      cases hread : readDigits signless with
      | mk ds' rest' =>
        simp only [hsign, hread] at h
        split at h
        · cases h
        · rename_i hne heq
          cases heq
          cases h
          obtain ⟨sign, htail, hoptional⟩ := readSign?_getD_sound hsign
          obtain ⟨hsignless, hdigits⟩ := readDigits_sound hread hne
          refine ⟨sign, ?_, hoptional, hdigits⟩
          rw [htail, hsignless]
          simp
  · cases h

theorem readMantissa?_sound {whole : List Char} {fraction : Option (List Char)}
    (h : readMantissa? cs = some ((whole, fraction), rest)) :
    ∃ text, cs = text ++ rest ∧ MantissaText text whole fraction := by
  unfold readMantissa? at h
  split at h
  · rename_i tail hwhole
    have hcs := readDigits_append cs
    rw [hwhole] at hcs
    split at h
    · cases h
    · rename_i es rest' hne hfraction
      cases h
      obtain ⟨rfl, hdigits⟩ := readDigits_sound hfraction hne
      exact ⟨'.' :: es, hcs.symm, .bare hdigits⟩
  · cases h
  · rename_i tail hne hwhole
    have htail := readDigits_append tail
    have hisDigit := readDigits_isDigit tail
    cases h
    obtain ⟨rfl, hdigits⟩ := readDigits_sound hwhole hne
    refine ⟨whole ++ '.' :: (readDigits tail).1, ?_, .pointed hdigits hisDigit⟩
    rw [List.append_assoc, List.cons_append]
    exact congrArg (whole ++ '.' :: ·) htail.symm
  · rename_i tail hne _ hwhole
    cases h
    obtain ⟨rfl, hdigits⟩ := readDigits_sound hwhole hne
    exact ⟨whole, rfl, .whole hdigits⟩

theorem readNumeral?_sound {x : Numeral} (h : readNumeral? cs = some (x, rest)) :
    ∃ text, cs = text ++ rest ∧ NumeralText text x := by
  rw [readNumeral?, Option.bind_eq_bind, Option.bind_eq_some_iff] at h
  obtain ⟨⟨⟨whole, fraction⟩, tail⟩, hmantissa, h⟩ := h
  obtain ⟨text, rfl, htext⟩ := readMantissa?_sound hmantissa
  dsimp only at h
  split at h
  · rename_i exponent rest' hexponent
    obtain ⟨negative, ds⟩ := exponent
    cases h
    obtain ⟨sign, rfl, hsign, hdigits⟩ := readExponent?_sound hexponent
    exact ⟨text ++ 'e' :: (sign ++ ds), by simp, .scaled htext hsign hdigits⟩
  · cases h
    exact ⟨text, rfl, .plain htext⟩

theorem readQuotient?_sound {q : Quotient} (h : readQuotient? cs = some (q, rest)) :
    ∃ text, cs = text ++ rest ∧ QuotientText text q := by
  rw [readQuotient?, Option.bind_eq_bind, Option.bind_eq_some_iff] at h
  obtain ⟨⟨x, tail⟩, hnumerator, h⟩ := h
  obtain ⟨text, rfl, htext⟩ := readNumeral?_sound hnumerator
  dsimp only at h
  split at h
  · rename_i tail
    rw [Option.bind_eq_some_iff] at h
    obtain ⟨⟨y, rest'⟩, hdenominator, h⟩ := h
    obtain ⟨text', rfl, htext'⟩ := readNumeral?_sound hdenominator
    cases h
    exact ⟨text ++ '/' :: text', by simp, .divided htext htext'⟩
  · cases h
    exact ⟨text, rfl, .whole htext⟩

theorem readPart?_sound {negative : Bool} {x : Part} (h : readPart? negative cs = some (x, rest)) :
    x.negative = negative ∧ ∃ text, cs = text ++ rest ∧ SizeText text x.size x.imaginary := by
  unfold readPart? at h
  split at h
  · cases h
    exact ⟨rfl, ['i'], rfl, .unit⟩
  · rw [Option.bind_eq_bind, Option.bind_eq_some_iff] at h
    obtain ⟨⟨q, tail⟩, hquotient, h⟩ := h
    obtain ⟨text, rfl, htext⟩ := readQuotient?_sound hquotient
    dsimp only at h
    split at h
    · cases h
      exact ⟨rfl, text ++ ['i'], by simp, .imaginary htext⟩
    · cases h
      exact ⟨rfl, text, rfl, .real htext⟩

theorem read?_sound {x : Literal} (h : read? cs = some x) : LiteralText cs x := by
  unfold read? at h
  cases hsign : (readSign? cs).getD (false, cs) with
  | mk negative signless =>
    obtain ⟨sign, rfl, hoptional⟩ := readSign?_getD_sound hsign
    simp only [hsign] at h
    rw [Option.bind_eq_bind, Option.bind_eq_some_iff] at h
    obtain ⟨⟨first, tail⟩, hfirst, h⟩ := h
    obtain ⟨rfl, text, rfl, htext⟩ := readPart?_sound hfirst
    dsimp only at h
    split at h
    · cases h
      rw [List.append_nil]
      exact .single (.intro hoptional htext)
    · rw [Option.bind_eq_bind, Option.bind_eq_some_iff] at h
      obtain ⟨⟨negative', signless'⟩, hsign', h⟩ := h
      obtain ⟨sign', rfl, hsecond⟩ := readSign?_sound hsign'
      rw [Option.bind_eq_some_iff] at h
      obtain ⟨⟨second, tail'⟩, hpart, h⟩ := h
      obtain ⟨rfl, text', rfl, htext'⟩ := readPart?_sound hpart
      dsimp only at h
      split at h
      · rename_i hend
        rw [Bool.and_eq_true, List.isEmpty_iff] at hend
        obtain ⟨himaginary, rfl⟩ := hend
        cases h
        rw [List.append_nil, ← List.append_assoc]
        exact .pair (.intro hoptional htext) (.intro hsecond htext') himaginary
      · cases h

end

/-! ## A reader takes all of a piece -/

/-- What follows a piece does not go on with it: it starts neither with a digit nor with one of the
given marks. -/
def Closed (marks rest : List Char) : Prop :=
  ∀ c ∈ rest.head?, c.isDigit = false ∧ c ∉ marks

theorem closed_nil (marks : List Char) : Closed marks [] := nofun

theorem closed_cons {marks : List Char} {c : Char} (rest : List Char) (hdigit : c.isDigit = false)
    (hmark : c ∉ marks) : Closed marks (c :: rest) := by
  intro d hd
  obtain rfl : c = d := Option.some.inj hd
  exact ⟨hdigit, hmark⟩

theorem Closed.mono {marks marks' rest : List Char} (h : Closed marks' rest)
    (hsub : marks ⊆ marks') : Closed marks rest :=
  fun c hc => ⟨(h c hc).1, fun hmark => (h c hc).2 (hsub hmark)⟩

theorem readDigits_of_isDigit {ds rest : List Char} (hds : ∀ c ∈ ds, c.isDigit = true)
    (hrest : Closed [] rest) : readDigits (ds ++ rest) = (ds, rest) := by
  rw [readDigits, List.takeWhile_append_of_pos hds, List.dropWhile_append_of_pos hds]
  cases rest with
  | nil => simp
  | cons c rest =>
    have hc : c.isDigit = false := (hrest c rfl).1
    rw [List.takeWhile_cons_of_neg (by simp [hc]), List.dropWhile_cons_of_neg (by simp [hc]),
      List.append_nil]

end Literal

/-! ## How a piece starts -/

section

variable {cs ds : List Char} {c : Char}

theorem ne_sign_of_isDigit (h : c.isDigit = true) : c ≠ '+' ∧ c ≠ '-' := by
  constructor <;> rintro rfl <;> exact absurd h (by decide)

theorem DigitsText.head (hds : DigitsText ds) (rest : List Char) :
    ∀ c ∈ (ds ++ rest).head?, c.isDigit = true := by
  obtain ⟨d, ds, rfl⟩ := List.exists_cons_of_ne_nil hds.ne_nil
  intro c hc
  obtain rfl : d = c := Option.some.inj hc
  exact hds.isDigit d List.mem_cons_self

theorem MantissaText.head {whole : List Char} {fraction : Option (List Char)}
    (h : MantissaText cs whole fraction) (rest : List Char) :
    ∀ c ∈ (cs ++ rest).head?, c.isDigit = true ∨ c = '.' := by
  intro c hc
  cases h with
  | whole hds => exact .inl (hds.head rest c hc)
  | pointed hds _ =>
    rw [List.append_assoc] at hc
    exact .inl (hds.head _ c hc)
  | bare _ => exact .inr (Option.some.inj hc).symm

theorem NumeralText.head {x : Numeral} (h : NumeralText cs x) (rest : List Char) :
    ∀ c ∈ (cs ++ rest).head?, c.isDigit = true ∨ c = '.' := by
  intro c hc
  cases h with
  | plain h => exact h.head rest c hc
  | scaled h _ _ =>
    rw [List.append_assoc] at hc
    exact h.head _ c hc

theorem QuotientText.head {q : Quotient} (h : QuotientText cs q) (rest : List Char) :
    ∀ c ∈ (cs ++ rest).head?, c.isDigit = true ∨ c = '.' := by
  intro c hc
  cases h with
  | whole h => exact h.head rest c hc
  | divided h _ =>
    rw [List.append_assoc] at hc
    exact h.head _ c hc

/-- Digits and points are neither signs nor the unit. -/
theorem QuotientText.ne_unit {q : Quotient} (h : QuotientText cs q) (rest : List Char) :
    ∀ tail, cs ++ rest = 'i' :: tail → False := by
  intro tail heq
  have hhead := h.head rest 'i'
  rw [heq] at hhead
  exact absurd (hhead rfl) (by decide)

theorem SizeText.head {size : Option Quotient} {imaginary : Bool} (h : SizeText cs size imaginary)
    (rest : List Char) : ∀ c ∈ (cs ++ rest).head?, c ≠ '+' ∧ c ≠ '-' := by
  have hquotient : ∀ c : Char, c.isDigit = true ∨ c = '.' → c ≠ '+' ∧ c ≠ '-' := by
    rintro c (hdigit | rfl)
    · exact ne_sign_of_isDigit hdigit
    · decide
  intro c hc
  cases h with
  | unit =>
    obtain rfl : 'i' = c := Option.some.inj hc
    decide
  | real h => exact hquotient c (h.head rest c hc)
  | imaginary h =>
    rw [List.append_assoc] at hc
    exact hquotient c (h.head _ c hc)

end

namespace Literal

section

variable {cs sign ds whole rest : List Char} {fraction : Option (List Char)}
  {negative imaginary : Bool}

theorem readSign?_complete (h : SignText sign negative) (rest : List Char) :
    readSign? (sign ++ rest) = some (negative, rest) := by
  cases h with
  | plus => rfl
  | minus => rfl

theorem readSign?_getD_complete (h : OptionalSignText sign negative)
    (hrest : ∀ c ∈ rest.head?, c ≠ '+' ∧ c ≠ '-') :
    (readSign? (sign ++ rest)).getD (false, sign ++ rest) = (negative, rest) := by
  cases h with
  | absent =>
    change (readSign? rest).getD (false, rest) = (false, rest)
    unfold readSign?
    split
    · exact absurd rfl (hrest '+' rfl).1
    · exact absurd rfl (hrest '-' rfl).2
    · rfl
  | present h => rw [readSign?_complete h, Option.getD_some]

theorem readExponent?_complete (hsign : OptionalSignText sign negative) (hds : DigitsText ds)
    (hrest : Closed [] rest) :
    readExponent? ('e' :: (sign ++ (ds ++ rest))) = some ((negative, ds), rest) := by
  have hsigned := readSign?_getD_complete hsign fun c hc => ne_sign_of_isDigit (hds.head rest c hc)
  simp only [readExponent?, hsigned, readDigits_of_isDigit hds.isDigit hrest]
  cases ds with
  | nil => exact absurd rfl hds.ne_nil
  | cons d ds => rfl

theorem readExponent?_of_closed (h : Closed ['e'] rest) : readExponent? rest = none := by
  unfold readExponent?
  split
  · exact absurd List.mem_cons_self (h 'e' rfl).2
  · rfl

theorem readMantissa?_complete (h : MantissaText cs whole fraction) (hrest : Closed ['.'] rest) :
    readMantissa? (cs ++ rest) = some ((whole, fraction), rest) := by
  have hclosed : Closed [] rest := hrest.mono (List.nil_subset _)
  have hpoint : ∀ tail, Closed [] ('.' :: tail) := fun tail => closed_cons tail rfl nofun
  cases h with
  | whole hds =>
    rw [readMantissa?, readDigits_of_isDigit hds.isDigit hclosed]
    split
    · rename_i hnil
      exact absurd (Prod.mk.inj hnil).1 hds.ne_nil
    · rename_i hnil
      exact absurd (Prod.mk.inj hnil).1 hds.ne_nil
    · rename_i hread
      rw [(Prod.mk.inj hread).2] at hrest
      exact absurd List.mem_cons_self (hrest '.' rfl).2
    · rename_i hread
      obtain ⟨rfl, rfl⟩ := Prod.mk.inj hread
      rfl
  | @pointed _ es hds hes =>
    rw [List.append_assoc, List.cons_append, readMantissa?,
      readDigits_of_isDigit hds.isDigit (hpoint (es ++ rest))]
    cases whole with
    | nil => exact absurd rfl hds.ne_nil
    | cons d whole =>
      change some ((d :: whole, some (readDigits (es ++ rest)).1), (readDigits (es ++ rest)).2) = _
      rw [readDigits_of_isDigit hes hclosed]
  | @bare es hes =>
    have hempty : ∀ c ∈ ([] : List Char), c.isDigit = true := nofun
    have hnone : readDigits ('.' :: (es ++ rest)) = ([], '.' :: (es ++ rest)) :=
      readDigits_of_isDigit hempty (hpoint (es ++ rest))
    rw [List.cons_append, readMantissa?, hnone]
    simp only [readDigits_of_isDigit hes.isDigit hclosed]
    cases es with
    | nil => exact absurd rfl hes.ne_nil
    | cons e es => rfl

theorem readNumeral?_complete {x : Numeral} (h : NumeralText cs x)
    (hrest : Closed ['.', 'e'] rest) : readNumeral? (cs ++ rest) = some (x, rest) := by
  cases h with
  | plain hmantissa =>
    have hexponent := readExponent?_of_closed (hrest.mono (by simp))
    rw [readNumeral?, readMantissa?_complete hmantissa (hrest.mono (by simp))]
    simp only [Option.bind_eq_bind, Option.bind_some, hexponent]
    rfl
  | @scaled cs whole sign ds _ _ hmantissa hsign hds =>
    have hclosed : Closed ['.'] ('e' :: (sign ++ (ds ++ rest))) :=
      closed_cons _ rfl (by decide)
    have hexponent := readExponent?_complete hsign hds (hrest.mono (List.nil_subset _))
    rw [List.append_assoc, List.cons_append, List.append_assoc, readNumeral?,
      readMantissa?_complete hmantissa hclosed]
    simp only [Option.bind_eq_bind, Option.bind_some, hexponent]
    rfl

theorem readQuotient?_complete {q : Quotient} (h : QuotientText cs q)
    (hrest : Closed ['.', 'e', '/'] rest) : readQuotient? (cs ++ rest) = some (q, rest) := by
  have hnumeral : Closed ['.', 'e'] rest := hrest.mono (by simp)
  cases h with
  | whole hx =>
    rw [readQuotient?, readNumeral?_complete hx hnumeral]
    simp only [Option.bind_eq_bind, Option.bind_some]
    split
    · exact absurd (by simp) (hrest '/' rfl).2
    · rfl
  | @divided cs ds _ _ hx hy =>
    have hclosed : Closed ['.', 'e'] ('/' :: (ds ++ rest)) := closed_cons _ rfl (by decide)
    rw [List.append_assoc, List.cons_append, readQuotient?, readNumeral?_complete hx hclosed]
    simp only [Option.bind_eq_bind, Option.bind_some, readNumeral?_complete hy hnumeral]
    rfl

theorem readPart?_complete {size : Option Quotient} (h : SizeText cs size imaginary)
    (hrest : Closed ['.', 'e', '/', 'i'] rest) (negative : Bool) :
    readPart? negative (cs ++ rest) = some (⟨negative, size, imaginary⟩, rest) := by
  cases h with
  | unit => rfl
  | @real cs q hq =>
    rw [readPart?.eq_2 _ _ (hq.ne_unit rest),
      readQuotient?_complete hq (hrest.mono (by simp))]
    simp only [Option.bind_eq_bind, Option.bind_some]
    split
    · exact absurd (by simp) (hrest 'i' rfl).2
    · rfl
  | @imaginary cs q hq =>
    have hclosed : Closed ['.', 'e', '/'] ('i' :: rest) := closed_cons _ rfl (by decide)
    rw [List.append_assoc, List.singleton_append,
      readPart?.eq_2 _ _ (hq.ne_unit ('i' :: rest)),
      readQuotient?_complete hq hclosed]
    rfl

theorem read?_complete {x : Literal} (h : LiteralText cs x) : read? cs = some x := by
  cases h with
  | single h =>
    obtain ⟨hsign, hsize⟩ := h
    rename_i negative _ _
    have hsigned := readSign?_getD_complete hsign (by simpa using hsize.head [])
    have hpart := readPart?_complete hsize (closed_nil _) negative
    rw [List.append_nil] at hpart
    rw [read?, hsigned]
    simp only [Option.bind_eq_bind, Option.bind_some, hpart]
    rfl
  | pair h h' himaginary =>
    obtain ⟨hsign, hsize⟩ := h
    obtain ⟨hsign', hsize'⟩ := h'
    rename_i sign' ds negative' imaginary' _
    obtain rfl : imaginary' = true := himaginary
    have hsigned := readSign?_getD_complete hsign (hsize.head (sign' ++ ds))
    have hsecond := readPart?_complete hsize' (closed_nil _) negative'
    rw [List.append_nil] at hsecond
    have hclosed : Closed ['.', 'e', '/', 'i'] (sign' ++ ds) := by
      cases hsign' with
      | plus => exact closed_cons _ rfl (by decide)
      | minus => exact closed_cons _ rfl (by decide)
    rw [List.append_assoc, read?, hsigned]
    simp only [Option.bind_eq_bind, Option.bind_some, readPart?_complete hsize hclosed]
    split
    · rename_i hnil
      cases hsign' <;> cases hnil
    · simp only [readSign?_complete hsign', Option.bind_some, hsecond]
      rfl

/-- Reading gives exactly what the grammar relates to a text. -/
theorem read?_eq_some_iff {x : Literal} : read? cs = some x ↔ LiteralText cs x :=
  ⟨read?_sound, read?_complete⟩

end

end Literal

end GaussJordan
