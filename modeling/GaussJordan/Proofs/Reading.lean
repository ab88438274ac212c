import GaussJordan.Proofs.Texts
import GaussJordan.Proofs.Words

/-!
# GaussJordan.Proofs.Reading

A system read from a text is the system built from the rows of its words.

A text gives its words in one row, and they are cut into rows of the width that the size asks for
(`pieces_flatten`). So a text of a size `n` and `n` rows of `n + 1` words is read as the list of the
rows is, with the same system or the same fault, and without a word left over (`ofText_of_words`).
-/

namespace GaussJordan

/-! ## The size -/

theorem Text.toNat_of_isDigit {c : Char} (h : c.isDigit = true) :
    48 ≤ c.toNat ∧ c.toNat ≤ 57 := by
  simpa [Char.isDigit, UInt32.le_iff_toNat_le] using h

theorem Text.isBlank_of_isDigit {c : Char} (h : c.isDigit = true) : isBlank c = false := by
  have hrange := toNat_of_isDigit h
  simp [isBlank]
  omega

theorem Text.digitValue?_of_isDigit {c : Char} (h : c.isDigit = true) :
    digitValue? c = some (c.toNat - 48) := by
  have hrange := toNat_of_isDigit h
  have hfirst : digitZeros.find? (fun first => first ≤ c.toNat && c.toNat < first + 10) =
      some 48 := by
    rw [← Array.find?_toList]
    refine List.find?_cons_of_pos ?_
    simp only [Bool.and_eq_true, decide_eq_true_eq]
    omega
  rw [digitValue?, hfirst]
  rfl

theorem integerDigits?_of_isDigit {cs : List Char} (hne : cs ≠ [])
    (h : ∀ c ∈ cs, c.isDigit = true) : integerDigits? cs = some (cs.map fun c => c.toNat - 48) := by
  induction cs with
  | nil => exact absurd rfl hne
  | cons c cs ih =>
    have hc := Text.digitValue?_of_isDigit (h c (by simp))
    cases cs with
    | nil =>
      rw [integerDigits?, hc]
      rfl
    | cons d cs =>
      have htail := ih (by simp) fun e he => h e (by simp [he])
      have hd : d ≠ '_' := by
        rintro rfl
        exact absurd (h '_' (by simp)) (by decide)
      rw [integerDigits?, hc, htail]
      · rfl
      · simp
      · exact fun _ he => hd (List.cons.inj he).1

namespace Decimal

theorem isDigit_of_mem_digits {n : Nat} {c : Char} (h : c ∈ digits n) : c.isDigit = true :=
  Nat.isDigit_of_mem_toDigits (by decide) (by decide) h

theorem isWord_digits (n : Nat) : Text.IsWord (digits n) :=
  ⟨Nat.toDigits_ne_nil, fun _ hc => Text.isBlank_of_isDigit (isDigit_of_mem_digits hc)⟩

end Decimal

theorem readSign?_of_isDigit {cs : List Char} (h : ∀ c ∈ cs, c.isDigit = true) :
    Literal.readSign? cs = none := by
  unfold Literal.readSign?
  split
  · exact absurd (h '+' (by simp)) (by decide)
  · exact absurd (h '-' (by simp)) (by decide)
  · rfl

/-- The digits of a number are read as the number, unless they are too many. -/
theorem readInteger?_digits {n : Nat} (hn : (Decimal.digits n).length ≤ Numeral.maxDigits) :
    readInteger? (Decimal.digits n) = some (n : Int) := by
  have hdigit : ∀ c ∈ Decimal.digits n, c.isDigit = true := fun _ => Decimal.isDigit_of_mem_digits
  have hne : Decimal.digits n ≠ [] := Nat.toDigits_ne_nil
  have hdigits := integerDigits?_of_isDigit hne hdigit
  have hvalue : ((Decimal.digits n).map fun c => c.toNat - 48).foldl (fun n d => 10 * n + d) 0 =
      n := by
    rw [List.foldl_map]
    refine Eq.trans ?_ (Nat.ofDigitChars_ten_toDigits (n := n))
    exact Nat.ofDigitChars_eq_foldl.symm
  rw [readInteger?, readSign?_of_isDigit hdigit]
  simp only [Option.getD_none, hdigits, List.length_map, Nat.not_lt.mpr hn, if_false, hvalue,
    Bool.false_eq_true]

/-! ## Rows -/

/-- Rows of one width, written one after the other, are cut where they were joined. -/
theorem pieces_flatten {β : Type} {width : Nat} (rows : List (List β))
    (h : ∀ row ∈ rows, row.length = width) : pieces width rows.length rows.flatten = rows := by
  induction rows with
  | nil => rfl
  | cons row rows ih =>
    have hrow : row.length = width := h row (by simp)
    rw [List.length_cons, pieces, List.flatten_cons, List.take_left' hrow, List.drop_left' hrow,
      ih fun r hr => h r (by simp [hr])]

namespace SizedSystem

/-- A row of tokens as a value. -/
def tokenRow (tokens : List String) : Json := .array (tokens.map .string)

theorem rowValues_tokenRow (tokens : List String) :
    rowValues (tokenRow tokens) = tokens.mapM readValue := by
  change (tokens.map Json.string).mapM cellValue = _
  rw [List.mapM_map]
  rfl

theorem ofText_of_words {n : Nat} (hpos : 1 ≤ n)
    (hn : (Decimal.digits n).length ≤ Numeral.maxDigits)
    {rows : List (List String)} (hcount : rows.length = n)
    (hwidth : ∀ row ∈ rows, row.length = n + 1) {text : List Char}
    (htext : Text.words text = Decimal.digits n :: rows.flatten.map String.toList)
    (tolerance : Double) :
    ofText text tolerance = (build n (rows.map tokenRow) tolerance, []) := by
  have hvalues : (rows.flatten.map String.toList).length = n * (n + 1) := by
    rw [List.length_map, List.length_flatten, List.map_congr_left hwidth, List.map_const',
      List.sum_replicate_nat, hcount]
  have hcut : pieces (n + 1) n (rows.flatten.map String.toList) =
      rows.map (List.map String.toList) := by
    have hall : ∀ cells ∈ rows.map (List.map String.toList), cells.length = n + 1 := by
      intro cells hcells
      obtain ⟨row, hrow, rfl⟩ := List.mem_map.mp hcells
      rw [List.length_map, hwidth row hrow]
    have h := pieces_flatten _ hall
    rwa [List.length_map, hcount, ← List.map_flatten] at h
  have hread : ((rows.map (List.map String.toList)).mapM fun row =>
      row.mapM fun token => readValue (String.ofList token)) =
        (rows.map tokenRow).mapM rowValues := by
    simp only [List.mapM_map, Function.comp_def, String.ofList_toList, rowValues_tokenRow]
  have hsize : ¬(n : Int) < 1 := by omega
  unfold ofText
  rw [htext]
  dsimp only
  rw [readInteger?_digits hn]
  dsimp only
  rw [if_neg hsize, Int.toNat_natCast, hvalues, if_neg (Nat.lt_irrefl _), Nat.sub_self,
    if_neg (Nat.lt_irrefl _), hcut, hread]
  rfl

end SizedSystem

end GaussJordan
