import GaussJordan.Literal.Token
import GaussJordan.Proofs.LiteralGrammar
import Mathlib.Data.List.Nodup

/-!
# GaussJordan.Proofs.TokenReading

What reading a token can answer.

A text is read as a literal exactly if the grammar derives it, and such a text is written with the
characters of the alphabet (`LiteralText.mem_alphabet`). So the three faults of a text that is no
literal exclude each other, each with a condition of its own on the text, and any other text is
read as two finite parts or has no value (`readValue_outcome`).
-/

namespace GaussJordan

open Literal (alphabet strangers tokenText)

/-! ## Strangers -/

theorem nodup_eraseDups (cs : List Char) : cs.eraseDups.Nodup := by
  induction hn : cs.length using Nat.strongRecOn generalizing cs with
  | ind n ih =>
    cases cs with
    | nil =>
      rw [List.eraseDups_nil]
      exact List.nodup_nil
    | cons c cs =>
      have hlt : (cs.filter fun d => !d == c).length < n := by
        rw [← hn, List.length_cons]
        exact Nat.lt_succ_of_le (List.length_filter_le _ _)
      rw [List.eraseDups_cons, List.nodup_cons]
      refine ⟨?_, ih _ hlt _ rfl⟩
      rw [List.mem_eraseDups, List.mem_filter]
      simp

namespace Literal

variable {cs : List Char}

theorem mem_strangers {c : Char} : c ∈ strangers cs ↔ c ∈ cs ∧ c ∉ alphabet := by
  rw [strangers, List.mem_mergeSort, List.mem_eraseDups, List.mem_filter]
  simp

theorem strangers_sorted (cs : List Char) :
    (strangers cs).Pairwise fun c d => c.toNat < d.toNat := by
  have hle : (strangers cs).Pairwise fun c d => decide (c.toNat ≤ d.toNat) = true := by
    refine List.pairwise_mergeSort ?_ ?_ _
    · intro a b c hab hbc
      rw [decide_eq_true_eq] at *
      exact Nat.le_trans hab hbc
    · intro a b
      simpa using Nat.le_total a.toNat b.toNat
  have hnodup : (strangers cs).Nodup :=
    (List.mergeSort_perm _ _).nodup_iff.mpr (nodup_eraseDups _)
  refine (hle.and hnodup).imp ?_
  rintro c d ⟨hle, hne⟩
  exact Nat.lt_of_le_of_ne (of_decide_eq_true hle) fun heq => hne (Char.toNat_inj.mp heq)

/-- The strangers are determined by what they are and by their order. -/
theorem eq_strangers {bad : List Char} (hsorted : bad.Pairwise fun c d => c.toNat < d.toNat)
    (hmem : ∀ c, c ∈ bad ↔ c ∈ cs ∧ c ∉ alphabet) : bad = strangers cs := by
  have hnodup : ∀ {ds : List Char}, ds.Pairwise (fun c d => c.toNat < d.toNat) → ds.Nodup :=
    fun h => h.imp fun hlt heq => absurd (congrArg Char.toNat heq) (Nat.ne_of_lt hlt)
  refine List.Perm.eq_of_pairwise ?_ hsorted (strangers_sorted cs) ?_
  · intro a b _ _ hab hba
    exact absurd hba (Nat.lt_asymm hab)
  · rw [List.perm_ext_iff_of_nodup (hnodup hsorted) (hnodup (strangers_sorted cs))]
    intro c
    rw [hmem, mem_strangers]

theorem strangers_eq_nil_iff : strangers cs = [] ↔ ∀ c ∈ cs, c ∈ alphabet := by
  rw [List.eq_nil_iff_forall_not_mem]
  simp only [mem_strangers, not_and, not_not]

theorem mem_alphabet_of_isDigit {c : Char} (h : c.isDigit = true) : c ∈ alphabet := by
  have hrange : 48 ≤ c.toNat ∧ c.toNat < 58 := by
    simp only [Char.isDigit, Bool.and_eq_true, decide_eq_true_eq, UInt32.le_iff_toNat_le] at h
    exact ⟨h.1, Nat.lt_succ_of_le h.2⟩
  have hall : ∀ k < 58, 48 ≤ k → k ∈ alphabet.map Char.toNat := by decide
  obtain ⟨d, hd, hk⟩ := List.mem_map.mp (hall c.toNat hrange.2 hrange.1)
  rwa [← Char.toNat_inj.mp hk]

theorem mem_alphabet_of_all {cs : List Char} (h : cs.all alphabet.contains = true) :
    ∀ c ∈ cs, c ∈ alphabet :=
  fun c hc => List.contains_iff_mem.mp (List.all_eq_true.mp h c hc)

/-- The characters of a literal that are not digits. -/
theorem mem_alphabet_of_mark : ∀ c ∈ ['+', '-', '.', '/', 'e', 'i'], c ∈ alphabet :=
  mem_alphabet_of_all (by decide)

end Literal

/-! ## The characters of a literal -/

section

variable {cs : List Char}

theorem DigitsText.mem_alphabet (h : DigitsText cs) : ∀ c ∈ cs, c ∈ alphabet :=
  fun c hc => Literal.mem_alphabet_of_isDigit (h.isDigit c hc)

theorem SignText.mem_alphabet {negative : Bool} (h : SignText cs negative) :
    ∀ c ∈ cs, c ∈ alphabet := by
  have hmark := Literal.mem_alphabet_of_mark
  cases h with
  | plus =>
    rw [List.forall_mem_singleton]
    exact hmark _ (by simp)
  | minus =>
    rw [List.forall_mem_singleton]
    exact hmark _ (by simp)

theorem OptionalSignText.mem_alphabet {negative : Bool} (h : OptionalSignText cs negative) :
    ∀ c ∈ cs, c ∈ alphabet := by
  cases h with
  | absent => nofun
  | present h => exact h.mem_alphabet

theorem MantissaText.mem_alphabet {whole : List Char} {fraction : Option (List Char)}
    (h : MantissaText cs whole fraction) : ∀ c ∈ cs, c ∈ alphabet := by
  have hpoint := Literal.mem_alphabet_of_mark '.' (by simp)
  cases h with
  | whole hds => exact hds.mem_alphabet
  | pointed hds hes =>
    rw [List.forall_mem_append, List.forall_mem_cons]
    exact ⟨hds.mem_alphabet, hpoint, fun c hc => Literal.mem_alphabet_of_isDigit (hes c hc)⟩
  | bare hes =>
    rw [List.forall_mem_cons]
    exact ⟨hpoint, hes.mem_alphabet⟩

theorem NumeralText.mem_alphabet {x : Numeral} (h : NumeralText cs x) : ∀ c ∈ cs, c ∈ alphabet := by
  cases h with
  | plain hmantissa => exact hmantissa.mem_alphabet
  | scaled hmantissa hsign hds =>
    rw [List.forall_mem_append, List.forall_mem_cons, List.forall_mem_append]
    exact ⟨hmantissa.mem_alphabet, Literal.mem_alphabet_of_mark 'e' (by simp), hsign.mem_alphabet,
      hds.mem_alphabet⟩

theorem QuotientText.mem_alphabet {q : Quotient} (h : QuotientText cs q) :
    ∀ c ∈ cs, c ∈ alphabet := by
  cases h with
  | whole hx => exact hx.mem_alphabet
  | divided hx hy =>
    rw [List.forall_mem_append, List.forall_mem_cons]
    exact ⟨hx.mem_alphabet, Literal.mem_alphabet_of_mark '/' (by simp), hy.mem_alphabet⟩

theorem SizeText.mem_alphabet {size : Option Quotient} {imaginary : Bool}
    (h : SizeText cs size imaginary) : ∀ c ∈ cs, c ∈ alphabet := by
  have hunit : ∀ c ∈ ['i'], c ∈ alphabet := by
    rw [List.forall_mem_singleton]
    exact Literal.mem_alphabet_of_mark 'i' (by simp)
  cases h with
  | unit => exact hunit
  | real hq => exact hq.mem_alphabet
  | imaginary hq =>
    rw [List.forall_mem_append]
    exact ⟨hq.mem_alphabet, hunit⟩

theorem PartText.mem_alphabet {x : Part} (h : PartText cs x) : ∀ c ∈ cs, c ∈ alphabet := by
  obtain ⟨hsign, hsize⟩ := h
  rw [List.forall_mem_append]
  exact ⟨hsign.mem_alphabet, hsize.mem_alphabet⟩

theorem LiteralText.mem_alphabet {x : Literal} (h : LiteralText cs x) :
    ∀ c ∈ cs, c ∈ alphabet := by
  cases h with
  | single h => exact h.mem_alphabet
  | pair h h' _ =>
    rw [List.forall_mem_append]
    exact ⟨h.mem_alphabet, h'.partText.mem_alphabet⟩

theorem LiteralText.ne_nil {x : Literal} (h : LiteralText cs x) : cs ≠ [] := by
  rintro rfl
  cases Literal.read?_complete h

end

/-! ## Tokens -/

namespace Literal

theorem isBlank_of_mem_alphabet : ∀ c ∈ alphabet, Text.isBlank c = false := by
  have hall : alphabet.all (fun c => !Text.isBlank c) = true := by decide
  simpa using hall

/-- What is written with the characters of literals is neither blank nor changed by the case. -/
theorem tokenText_of_alphabet {cs : List Char} (h : ∀ c ∈ cs, c ∈ alphabet) :
    tokenText (String.ofList cs) = cs := by
  have hplain : ∀ c ∈ alphabet, c ≠ 'Σ' ∧ c ≠ 'İ' ∧ Text.lowerChar c = c := by
    have hall : alphabet.all (fun c => c != 'Σ' && (c != 'İ' && Text.lowerChar c == c)) = true := by
      decide
    simpa using hall
  have hblank : ∀ ds : List Char, (∀ c ∈ ds, c ∈ alphabet) → ds.dropWhile Text.isBlank = ds := by
    intro ds hds
    cases ds with
    | nil => rfl
    | cons d ds =>
      rw [List.dropWhile_cons_of_neg (by simp [isBlank_of_mem_alphabet d (hds d (by simp))])]
  have hstrip : Text.strip cs = cs := by
    rw [Text.strip, hblank cs h, hblank cs.reverse fun c hc => h c (List.mem_reverse.mp hc),
      List.reverse_reverse]
  have hlower : ∀ before ds : List Char, (∀ c ∈ ds, c ∈ alphabet) →
      Text.lowerFrom before ds = ds := by
    intro before ds
    induction ds generalizing before with
    | nil => intro _; rfl
    | cons d ds ih =>
      intro hds
      obtain ⟨hsigma, hdotted, hlow⟩ := hplain d (hds d (by simp))
      rw [Text.lowerFrom, if_neg hsigma, if_neg hdotted, hlow,
        ih _ fun c hc => hds c (by simp [hc])]
      rfl
  rw [tokenText, String.toList_ofList, hstrip, Text.lowerCase, hlower [] cs h]

theorem tokenText_of_all {cs : List Char} (h : cs.all alphabet.contains = true) :
    tokenText (String.ofList cs) = cs :=
  tokenText_of_alphabet (mem_alphabet_of_all h)

theorem literalText_of_read? {cs : List Char} {x : Literal} (hcs : cs.all alphabet.contains = true)
    (h : read? cs = some x) : LiteralText (tokenText (String.ofList cs)) x := by
  rw [tokenText_of_all hcs]
  exact read?_sound h

theorem value_eq (x : Literal) : x.value = x.parts.bind fun p =>
    if p.1.toDouble.isFinite && p.2.toDouble.isFinite then .ok (p.1.toDouble, p.2.toDouble)
    else .error .notFinite := by
  rw [value]
  rfl

/-- A value has two finite parts. -/
theorem value_eq_ok_iff {x : Literal} {re im : Double} :
    x.value = .ok (re, im) ↔ ∃ a b, x.parts = .ok (a, b) ∧ a.toDouble = re ∧ b.toDouble = im ∧
      re.isFinite = true ∧ im.isFinite = true := by
  rw [value_eq]
  -- Any function would do: the rounding stays closed here.
  generalize Quantity.toDouble = f
  cases x.parts with
  | error e => simp [Except.bind]
  | ok parts =>
    obtain ⟨a, b⟩ := parts
    constructor
    · intro h
      rw [Except.bind] at h
      split at h
      · rename_i hfinite
        rw [Bool.and_eq_true] at hfinite
        obtain ⟨rfl, rfl⟩ := Prod.mk.inj (Except.ok.inj h)
        exact ⟨a, b, rfl, rfl, rfl, hfinite⟩
      · cases h
    · rintro ⟨a', b', heq, rfl, rfl, hre, him⟩
      obtain ⟨rfl, rfl⟩ := Prod.mk.inj (Except.ok.inj heq)
      rw [Except.bind, hre, him]
      rfl

theorem value_of_parts {literal : Literal} {a b : Quantity} (h : literal.parts = .ok (a, b))
    (ha : a.toDouble.isFinite = true) (hb : b.toDouble.isFinite = true) :
    literal.value = .ok (a.toDouble, b.toDouble) :=
  value_eq_ok_iff.mpr ⟨a, b, h, rfl, rfl, ha, hb⟩

end Literal

/-- What is wrong with a literal that has no value. -/
def Unvalued.malformed (token : String) : Unvalued → Malformed
  | .unreadable => .unreadable token
  | .notFinite => .notFinite token

section

variable {token : String} {x : Literal}

theorem readValue_of_value (h : LiteralText (tokenText token) x) :
    readValue token = match x.value with
      | .ok (re, im) => .ok ⟨re, im⟩
      | .error e => .error (.malformed (e.malformed token)) := by
  have hempty : (tokenText token).isEmpty = false := List.isEmpty_eq_false_iff.mpr h.ne_nil
  have hplain := Literal.strangers_eq_nil_iff.mpr h.mem_alphabet
  simp only [readValue, hempty, hplain, Literal.read?_complete h, Bool.false_eq_true, if_false]
  split
  · rename_i hvalue
    rw [hvalue]
  · rename_i hvalue
    rw [hvalue]
    rfl
  · rename_i hvalue
    rw [hvalue]
    rfl

theorem readValue_eq_ok_iff (h : LiteralText (tokenText token) x) {z : Complex Double} :
    readValue token = .ok z ↔ x.value = .ok (z.re, z.im) := by
  rw [readValue_of_value h]
  cases x.value with
  | error e => simp
  | ok parts =>
    obtain ⟨re, im⟩ := parts
    obtain ⟨zre, zim⟩ := z
    simp

theorem readValue_eq_error_iff (h : LiteralText (tokenText token) x) {e : Fault} :
    readValue token = .error e ↔ ∃ u, x.value = .error u ∧ e = .malformed (u.malformed token) := by
  rw [readValue_of_value h]
  cases x.value with
  | error u => simp [eq_comm]
  | ok parts => simp

end

/-! ## Outcomes -/

/-- What reading a token comes to, with the reason in its text. -/
inductive Outcome (token : String) : Except Fault (Complex Double) → Prop where
  | empty : tokenText token = [] → Outcome token (.error (.malformed .emptyToken))
  | strange : tokenText token ≠ [] → strangers (tokenText token) ≠ [] →
      Outcome token (.error (.malformed (.invalidCharacters token (strangers (tokenText token)))))
  | underived : tokenText token ≠ [] → strangers (tokenText token) = [] →
      (¬∃ x, LiteralText (tokenText token) x) →
      Outcome token (.error (.malformed (.notLiteral token)))
  | unreadable {x : Literal} : LiteralText (tokenText token) x →
      Outcome token (.error (.malformed (.unreadable token)))
  | notFinite {x : Literal} : LiteralText (tokenText token) x →
      Outcome token (.error (.malformed (.notFinite token)))
  | valued {x : Literal} {z : Complex Double} : LiteralText (tokenText token) x →
      z.re.isFinite = true → z.im.isFinite = true → Outcome token (.ok z)

section

variable {token : String}

theorem readValue_of_empty (h : tokenText token = []) :
    readValue token = .error (.malformed .emptyToken) := by
  rw [readValue, h]
  rfl

theorem readValue_of_strange (hnil : tokenText token ≠ [])
    (h : strangers (tokenText token) ≠ []) :
    readValue token =
      .error (.malformed (.invalidCharacters token (strangers (tokenText token)))) := by
  have hempty : (tokenText token).isEmpty = false := List.isEmpty_eq_false_iff.mpr hnil
  obtain ⟨c, bad, hbad⟩ := List.exists_cons_of_ne_nil h
  simp only [readValue, hempty, hbad, Bool.false_eq_true, if_false]

theorem readValue_of_underived (hnil : tokenText token ≠ [])
    (hplain : strangers (tokenText token) = [])
    (h : ¬∃ x, LiteralText (tokenText token) x) :
    readValue token = .error (.malformed (.notLiteral token)) := by
  have hempty : (tokenText token).isEmpty = false := List.isEmpty_eq_false_iff.mpr hnil
  have hnone : Literal.read? (tokenText token) = none := by
    cases hread : Literal.read? (tokenText token) with
    | none => rfl
    | some x => exact absurd ⟨x, Literal.read?_sound hread⟩ h
  simp only [readValue, hempty, hplain, hnone, Bool.false_eq_true, if_false]

theorem outcome_of_literalText {x : Literal} (h : LiteralText (tokenText token) x) :
    Outcome token (readValue token) := by
  cases hvalue : x.value with
  | ok value =>
    obtain ⟨re, im⟩ := value
    obtain ⟨_, _, _, _, _, hre, him⟩ := Literal.value_eq_ok_iff.mp hvalue
    rw [(readValue_eq_ok_iff h (z := ⟨re, im⟩)).mpr hvalue]
    exact .valued h hre him
  | error e =>
    rw [(readValue_eq_error_iff h).mpr ⟨e, hvalue, rfl⟩]
    cases e with
    | unreadable => exact .unreadable h
    | notFinite => exact .notFinite h

theorem outcome_readValue (token : String) : Outcome token (readValue token) := by
  by_cases hnil : tokenText token = []
  · rw [readValue_of_empty hnil]
    exact .empty hnil
  by_cases hplain : strangers (tokenText token) = []
  · by_cases hderived : ∃ x, LiteralText (tokenText token) x
    · obtain ⟨x, hx⟩ := hderived
      exact outcome_of_literalText hx
    · rw [readValue_of_underived hnil hplain hderived]
      exact .underived hnil hplain hderived
  · rw [readValue_of_strange hnil hplain]
    exact .strange hnil hplain

theorem readValue_eq_emptyToken_iff :
    readValue token = .error (.malformed .emptyToken) ↔ tokenText token = [] := by
  refine ⟨fun hread => ?_, readValue_of_empty⟩
  have houtcome := outcome_readValue token
  rw [hread] at houtcome
  cases houtcome with
  | empty hnil => exact hnil

theorem readValue_eq_invalidCharacters_iff {bad : List Char} :
    readValue token = .error (.malformed (.invalidCharacters token bad)) ↔
      tokenText token ≠ [] ∧ bad ≠ [] ∧ bad = strangers (tokenText token) := by
  constructor
  · intro hread
    have houtcome := outcome_readValue token
    rw [hread] at houtcome
    cases houtcome with
    | strange hnil hstrange => exact ⟨hnil, hstrange, rfl⟩
  · rintro ⟨hnil, hne, rfl⟩
    exact readValue_of_strange hnil hne

theorem readValue_eq_notLiteral_iff :
    readValue token = .error (.malformed (.notLiteral token)) ↔
      tokenText token ≠ [] ∧ strangers (tokenText token) = [] ∧
        ¬∃ x, LiteralText (tokenText token) x := by
  refine ⟨fun hread => ?_, fun ⟨hnil, hplain, h⟩ => readValue_of_underived hnil hplain h⟩
  have houtcome := outcome_readValue token
  rw [hread] at houtcome
  cases houtcome with
  | underived hnil hplain hnot => exact ⟨hnil, hplain, hnot⟩

theorem exists_literalText_iff :
    (∃ x, LiteralText (tokenText token) x) ↔
      (∃ z, readValue token = .ok z ∧ z.re.isFinite = true ∧ z.im.isFinite = true) ∨
      readValue token = .error (.malformed (.unreadable token)) ∨
      readValue token = .error (.malformed (.notFinite token)) := by
  constructor
  · rintro ⟨x, hx⟩
    have houtcome := outcome_of_literalText hx
    generalize readValue token = r at houtcome
    cases houtcome with
    | empty hnil => exact absurd hnil hx.ne_nil
    | strange _ h => exact absurd (Literal.strangers_eq_nil_iff.mpr hx.mem_alphabet) h
    | underived _ _ h => exact absurd ⟨x, hx⟩ h
    | unreadable _ => exact .inr (.inl rfl)
    | notFinite _ => exact .inr (.inr rfl)
    | valued _ hre him => exact .inl ⟨_, rfl, hre, him⟩
  · have houtcome := outcome_readValue token
    rintro (⟨z, hread, -⟩ | hread | hread)
    · rw [hread] at houtcome
      cases houtcome with
      | valued hx _ _ => exact ⟨_, hx⟩
    · rw [hread] at houtcome
      cases houtcome with
      | unreadable hx => exact ⟨_, hx⟩
    · rw [hread] at houtcome
      cases houtcome with
      | notFinite hx => exact ⟨_, hx⟩

end

/-- A token is refused for a cause, with the message that words it. -/
structure Refused (token : String) (cause : Malformed) (message : String) : Prop where
  fault : readValue token = .error (.malformed cause)
  message_eq : cause.message = message

theorem refused_iff {token message : String} {cause : Malformed} (h : cause.message = message) :
    Refused token cause message ↔ readValue token = .error (.malformed cause) :=
  ⟨Refused.fault, fun hfault => ⟨hfault, h⟩⟩

/-- What reading a token comes to. A text that is no literal is refused for exactly one of three
causes, each with its condition on the text. The literals are the other texts: they are read as two
finite parts, or have no value. -/
theorem readValue_outcome (token : String) :
    (Refused token .emptyToken "Empty numeric token" ↔ tokenText token = []) ∧
    (∀ bad, Refused token (.invalidCharacters token bad)
        ("Invalid character(s) in '" ++ token ++ "': " ++ " ".intercalate (bad.map Char.toString)) ↔
      tokenText token ≠ [] ∧ bad ≠ [] ∧ (bad.Pairwise fun c d => c.toNat < d.toNat) ∧
        ∀ c, c ∈ bad ↔ c ∈ tokenText token ∧ c ∉ alphabet) ∧
    (Refused token (.notLiteral token) ("Not a numeric literal: '" ++ token ++ "'") ↔
      tokenText token ≠ [] ∧ (∀ c ∈ tokenText token, c ∈ alphabet) ∧
        ¬∃ x, LiteralText (tokenText token) x) ∧
    ((∃ x, LiteralText (tokenText token) x) ↔
      (∃ z, readValue token = .ok z ∧ z.re.isFinite = true ∧ z.im.isFinite = true) ∨
      readValue token = .error (.malformed (.unreadable token)) ∨
      readValue token = .error (.malformed (.notFinite token))) := by
  refine ⟨?_, fun bad => ?_, ?_, exists_literalText_iff⟩
  · exact (refused_iff rfl).trans readValue_eq_emptyToken_iff
  · have hbad : bad = strangers (tokenText token) ↔
        (bad.Pairwise fun c d => c.toNat < d.toNat) ∧
          ∀ c, c ∈ bad ↔ c ∈ tokenText token ∧ c ∉ alphabet := by
      constructor
      · rintro rfl
        exact ⟨Literal.strangers_sorted _, fun c => Literal.mem_strangers⟩
      · rintro ⟨hsorted, hmem⟩
        exact Literal.eq_strangers hsorted hmem
    rw [← hbad]
    exact (refused_iff rfl).trans readValue_eq_invalidCharacters_iff
  · rw [← Literal.strangers_eq_nil_iff]
    exact (refused_iff rfl).trans readValue_eq_notLiteral_iff

end GaussJordan
