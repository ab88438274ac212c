import GaussJordan.System.Reading

/-!
# GaussJordan.Proofs.Words

Texts in UTF-8 and the words in them.

* `Spaced text ws`: the text spells the words `ws`, with blanks between any two of them and maybe
  before and after. `words_of_spaced`: those are the words of the text, however many blanks of
  whatever kind there are.
* `ofBytes_toUTF8`: the bytes of a text give the text back, but for its line ends. Those are blanks
  before and after, so that the words stay the same (`words_normalizeLines`).
-/

namespace GaussJordan

namespace Text

/-! ## Words -/

def IsWord (cs : List Char) : Prop := cs ≠ [] ∧ ∀ c ∈ cs, isBlank c = false

instance (cs : List Char) : Decidable (IsWord cs) :=
  decidable_of_iff (cs ≠ [] ∧ cs.all (fun c => !isBlank c) = true) (by simp [IsWord])

theorem words_cons (c : Char) (rest : List Char) :
    words (c :: rest) =
      if isBlank c then words rest
      else
        match rest, words rest with
        | d :: _, word :: more => if isBlank d then [c] :: word :: more else (c :: word) :: more
        | _, more => [c] :: more :=
  rfl

theorem words_of_blank {c : Char} (h : isBlank c = true) (rest : List Char) :
    words (c :: rest) = words rest := by
  rw [words_cons, if_pos h]

/-- A character that a word ends with. -/
theorem words_of_last {c : Char} {rest : List Char} (hc : isBlank c = false)
    (hend : ∀ d ∈ rest.head?, isBlank d = true) : words (c :: rest) = [c] :: words rest := by
  rw [words_cons, if_neg (by simp [hc])]
  cases rest with
  | nil => rfl
  | cons d rest =>
    have hd : isBlank d = true := hend d (by simp)
    split
    · rename_i heq hwords
      obtain ⟨rfl, rfl⟩ := List.cons.inj heq
      rw [if_pos hd, hwords]
    · rfl

/-- A character that is not the last one of its word. -/
theorem words_of_next {c d : Char} {rest word : List Char} {ws : List (List Char)}
    (hc : isBlank c = false) (hd : isBlank d = false) (h : words (d :: rest) = word :: ws) :
    words (c :: d :: rest) = (c :: word) :: ws := by
  rw [words_cons, if_neg (by simp [hc]), h]
  simp [hd]

theorem words_append_of_word {word rest : List Char} (hword : IsWord word)
    (hend : ∀ c ∈ rest.head?, isBlank c = true) : words (word ++ rest) = word :: words rest := by
  obtain ⟨hne, hall⟩ := hword
  induction word with
  | nil => exact absurd rfl hne
  | cons c word ih =>
    have hc := hall c (by simp)
    cases word with
    | nil => exact words_of_last hc hend
    | cons d word =>
      have htail := ih (by simp) fun e he => hall e (by simp [he])
      exact words_of_next hc (hall d (by simp)) htail

theorem words_of_word {word : List Char} (hword : IsWord word) : words word = [word] := by
  have h := @words_append_of_word word [] hword (by simp)
  rwa [List.append_nil] at h

theorem exists_words_cons {c : Char} (hc : isBlank c = false) (rest : List Char) :
    ∃ word ws, words (c :: rest) = word :: ws := by
  rw [words_cons, if_neg (by simp [hc])]
  split
  · split
    · exact ⟨_, _, rfl⟩
    · exact ⟨_, _, rfl⟩
  · exact ⟨_, _, rfl⟩

/-- A blank parts the words before it from those after it. -/
theorem words_append_cons {sep : Char} (hsep : isBlank sep = true) (before after : List Char) :
    words (before ++ sep :: after) = words before ++ words after := by
  induction before with
  | nil => exact words_of_blank hsep after
  | cons c before ih =>
    cases hc : isBlank c with
    | true =>
      rw [List.cons_append, words_of_blank hc, words_of_blank hc, ih]
    | false =>
      cases before with
      | nil =>
        have hend : ∀ d ∈ (sep :: after).head?, isBlank d = true := by simpa using hsep
        rw [List.singleton_append, words_of_last hc hend, words_of_blank hsep,
          words_of_last hc (by simp)]
        rfl
      | cons d before =>
        cases hd : isBlank d with
        | true =>
          have hend : ∀ rest : List Char, ∀ e ∈ (d :: rest).head?, isBlank e = true := by
            simpa using hd
          rw [List.cons_append, List.cons_append, words_of_last hc (hend _), ← List.cons_append, ih,
            words_of_last hc (hend _), List.cons_append]
        | false =>
          obtain ⟨word, ws, hwords⟩ := exists_words_cons hd before
          rw [hwords, List.cons_append, List.cons_append] at ih
          rw [List.cons_append, List.cons_append, words_of_next hc hd ih,
            words_of_next hc hd hwords, List.cons_append]

/-- Pieces joined by a blank keep their words. -/
theorem words_intercalate {sep : Char} (hsep : isBlank sep = true) (parts : List (List Char)) :
    words ([sep].intercalate parts) = parts.flatMap words := by
  induction parts with
  | nil => rfl
  | cons part parts ih =>
    cases parts with
    | nil => rw [List.intercalate_singleton, List.flatMap_singleton]
    | cons next parts =>
      rw [List.intercalate_cons_cons, List.append_assoc, List.singleton_append,
        words_append_cons hsep, ih, List.flatMap_cons (x := part)]

/-- Whether a character follows at once, and a blank or not, is all that matters for a word. -/
theorem words_cons_congr (c : Char) {rest rest' : List Char}
    (hhead : rest'.head?.map isBlank = rest.head?.map isBlank) (h : words rest' = words rest) :
    words (c :: rest') = words (c :: rest) := by
  cases rest with
  | nil =>
    cases rest' with
    | nil => rfl
    | cons d' rest' => simp at hhead
  | cons d rest =>
    cases rest' with
    | nil => simp at hhead
    | cons d' rest' =>
      have hd : isBlank d' = isBlank d := by simpa using hhead
      rw [words_cons c, words_cons c, h]
      cases words (d :: rest) with
      | nil => rfl
      | cons word ws => simp only [hd]

theorem words_normalizeLines (cs : List Char) :
    words (normalizeLines cs) = words cs ∧
      (normalizeLines cs).head?.map isBlank = cs.head?.map isBlank := by
  have hreturn : isBlank '\r' = true := by decide
  have hfeed : isBlank '\n' = true := by decide
  fun_induction normalizeLines cs with
  | case1 rest ih =>
    refine ⟨?_, by simp [hreturn, hfeed]⟩
    rw [words_of_blank hfeed, words_of_blank hreturn, words_of_blank hfeed, ih.1]
  | case2 rest _ ih =>
    refine ⟨?_, by simp [hreturn, hfeed]⟩
    rw [words_of_blank hfeed, words_of_blank hreturn, ih.1]
  | case3 c rest _ _ ih => exact ⟨words_cons_congr c ih.2 ih.1, rfl⟩
  | case4 => exact ⟨rfl, rfl⟩

/-! ## UTF-8 -/

section

variable {a b c d position : Nat} {rest : List UInt8} {cs : List Char}

theorem lt_ofNat {k : Nat} (hk : k < 256) {bound : UInt8} :
    UInt8.ofNat k < bound ↔ k < bound.toNat := by
  rw [UInt8.lt_iff_toNat_lt, UInt8.toNat_ofNat_of_lt' hk]

theorem le_ofNat {k : Nat} (hk : k < 256) {bound : UInt8} :
    bound ≤ UInt8.ofNat k ↔ bound.toNat ≤ k := by
  rw [UInt8.le_iff_toNat_le, UInt8.toNat_ofNat_of_lt' hk]

theorem ofNat_eq {k : Nat} (hk : k < 256) {byte : UInt8} :
    UInt8.ofNat k = byte ↔ k = byte.toNat := by
  rw [← UInt8.toNat_inj, UInt8.toNat_ofNat_of_lt' hk]

theorem continues_ofNat (hlow : 128 ≤ b) (hhigh : b < 192) : continues (UInt8.ofNat b) = true := by
  have hb : b < 256 := by omega
  simp only [continues, le_ofNat hb, lt_ofNat hb, Bool.and_eq_true, decide_eq_true_eq]
  exact ⟨hlow, hhigh⟩

theorem payload_ofNat (hb : b < 192) : payload (UInt8.ofNat b) = b % 64 := by
  rw [payload, UInt8.toNat_ofNat_of_lt' (show b < 256 by omega)]

theorem secondFits_ofNat (ha : a < 256) (hlow : 128 ≤ b) (hhigh : b < 192)
    (hoverlong : a = 0xe0 → 0xa0 ≤ b) (hsurrogate : a = 0xed → b < 0xa0)
    (hoverlong' : a = 0xf0 → 0x90 ≤ b) (hbeyond : a = 0xf4 → b < 0x90) :
    secondFits (UInt8.ofNat a) (UInt8.ofNat b) = true := by
  have hb : b < 256 := by omega
  simp only [secondFits, continues_ofNat hlow hhigh, Bool.true_and, ofNat_eq ha, le_ofNat hb,
    lt_ofNat hb]
  split
  · exact decide_eq_true (hoverlong ‹_›)
  · split
    · exact decide_eq_true (hsurrogate ‹_›)
    · split
      · exact decide_eq_true (hoverlong' ‹_›)
      · split
        · exact decide_eq_true (hbeyond ‹_›)
        · rfl

theorem decodeFrom_one (ha : a < 0x80) (h : decodeFrom (position + 1) rest = .ok cs) :
    decodeFrom position (UInt8.ofNat a :: rest) = .ok (Char.ofNat a :: cs) := by
  have hbyte : a < 256 := by omega
  have hfirst : UInt8.ofNat a < 0x80 := (lt_ofNat hbyte).mpr ha
  rw [decodeFrom.eq_def]
  simp only [hfirst, if_true, h, UInt8.toNat_ofNat_of_lt' hbyte]
  rfl

theorem decodeFrom_two (ha : 0xc2 ≤ a) (ha' : a < 0xe0) (hb : 128 ≤ b) (hb' : b < 192)
    (h : decodeFrom (position + 2) rest = .ok cs) :
    decodeFrom position (UInt8.ofNat a :: UInt8.ofNat b :: rest) =
      .ok (Char.ofNat (a % 32 * 64 + b % 64) :: cs) := by
  have hbyte : a < 256 := by omega
  have hfirst (bound : UInt8) (hbound : bound.toNat ≤ a) : ¬UInt8.ofNat a < bound := by
    rw [lt_ofNat hbyte]
    omega
  have hsecond : UInt8.ofNat a < 0xe0 := (lt_ofNat hbyte).mpr ha'
  rw [decodeFrom.eq_def]
  simp only [hfirst 0x80 (Nat.le_trans (by decide) ha), hfirst 0xc2 ha, hsecond, if_true, if_false,
    continues_ofNat hb hb', h, payload_ofNat hb', UInt8.toNat_ofNat_of_lt' hbyte]
  rfl

theorem decodeFrom_three (ha : 0xe0 ≤ a) (ha' : a < 0xf0) (hb : 128 ≤ b) (hb' : b < 192)
    (hc : 128 ≤ c) (hc' : c < 192) (hoverlong : a = 0xe0 → 0xa0 ≤ b)
    (hsurrogate : a = 0xed → b < 0xa0) (h : decodeFrom (position + 3) rest = .ok cs) :
    decodeFrom position (UInt8.ofNat a :: UInt8.ofNat b :: UInt8.ofNat c :: rest) =
      .ok (Char.ofNat ((a % 16 * 64 + b % 64) * 64 + c % 64) :: cs) := by
  have hbyte : a < 256 := by omega
  have hfirst (bound : UInt8) (hbound : bound.toNat ≤ 0xe0) : ¬UInt8.ofNat a < bound := by
    rw [lt_ofNat hbyte]
    omega
  have hthird : UInt8.ofNat a < 0xf0 := (lt_ofNat hbyte).mpr ha'
  have hfits := secondFits_ofNat hbyte hb hb' hoverlong hsurrogate (by omega) (by omega)
  rw [decodeFrom.eq_def]
  simp only [hfirst 0x80 (by decide), hfirst 0xc2 (by decide), hfirst 0xe0 (by decide), hthird,
    if_true, if_false, hfits, Bool.not_true, Bool.false_eq_true, continues_ofNat hc hc', h,
    payload_ofNat hb', payload_ofNat hc', UInt8.toNat_ofNat_of_lt' hbyte]
  rfl

theorem decodeFrom_four (ha : 0xf0 ≤ a) (ha' : a < 0xf5) (hb : 128 ≤ b) (hb' : b < 192)
    (hc : 128 ≤ c) (hc' : c < 192) (hd : 128 ≤ d) (hd' : d < 192)
    (hoverlong : a = 0xf0 → 0x90 ≤ b) (hbeyond : a = 0xf4 → b < 0x90)
    (h : decodeFrom (position + 4) rest = .ok cs) :
    decodeFrom position
        (UInt8.ofNat a :: UInt8.ofNat b :: UInt8.ofNat c :: UInt8.ofNat d :: rest) =
      .ok (Char.ofNat (((a % 8 * 64 + b % 64) * 64 + c % 64) * 64 + d % 64) :: cs) := by
  have hbyte : a < 256 := by omega
  have hfirst (bound : UInt8) (hbound : bound.toNat ≤ 0xf0) : ¬UInt8.ofNat a < bound := by
    rw [lt_ofNat hbyte]
    omega
  have hfourth : UInt8.ofNat a < 0xf5 := (lt_ofNat hbyte).mpr ha'
  have hfits := secondFits_ofNat hbyte hb hb' (by omega) (by omega) hoverlong hbeyond
  rw [decodeFrom.eq_def]
  simp only [hfirst 0x80 (by decide), hfirst 0xc2 (by decide), hfirst 0xe0 (by decide),
    hfirst 0xf0 (by decide), hfourth, if_true, if_false, hfits, Bool.not_true, Bool.false_eq_true,
    continues_ofNat hc hc', continues_ofNat hd hd', h, payload_ofNat hb', payload_ofNat hc',
    payload_ofNat hd', UInt8.toNat_ofNat_of_lt' hbyte]
  rfl

end

/-- The bytes of a character are decoded to it: their ranges leave no other reading. -/
theorem decodeFrom_encoded (c : Char) {rest : List UInt8} {cs : List Char}
    (h : ∀ position, decodeFrom position rest = .ok cs) (position : Nat) :
    decodeFrom position (String.utf8EncodeChar c ++ rest) = .ok (c :: cs) := by
  have hvalid : c.toNat < 0xd800 ∨ 0xdfff < c.toNat ∧ c.toNat < 0x110000 := c.valid
  have hval : c.val.toNat = c.toNat := rfl
  have hself (k : Nat) (hk : k = c.toNat) : c = Char.ofNat k := by
    rw [hk, Char.ofNat_toNat]
  rw [String.utf8EncodeChar, hval]
  generalize c.toNat = v at *
  split
  · rw [hself v rfl]
    exact decodeFrom_one (by omega) (h _)
  · split
    · rw [hself ((v / 64 % 32 + 192) % 32 * 64 + (v % 64 + 128) % 64) (by omega)]
      exact decodeFrom_two (by omega) (by omega) (by omega) (by omega) (h _)
    · split
      · rw [hself (((v / 4096 % 16 + 224) % 16 * 64 + (v / 64 % 64 + 128) % 64) * 64 +
          (v % 64 + 128) % 64) (by omega)]
        exact decodeFrom_three (by omega) (by omega) (by omega) (by omega) (by omega) (by omega)
          (by omega) (by omega) (h _)
      · rw [hself ((((v / 262144 % 8 + 240) % 8 * 64 + (v / 4096 % 64 + 128) % 64) * 64 +
          (v / 64 % 64 + 128) % 64) * 64 + (v % 64 + 128) % 64) (by omega)]
        exact decodeFrom_four (by omega) (by omega) (by omega) (by omega) (by omega) (by omega)
          (by omega) (by omega) (by omega) (by omega) (h _)

theorem decodeFrom_flatMap (cs : List Char) (position : Nat) :
    decodeFrom position (cs.flatMap String.utf8EncodeChar) = .ok cs := by
  induction cs generalizing position with
  | nil => rfl
  | cons c cs ih => exact decodeFrom_encoded c ih position

theorem toList_loop (bytes : ByteArray) (i : Nat) (read : List UInt8) :
    ByteArray.toList.loop bytes i read = read.reverse ++ bytes.data.toList.drop i := by
  fun_induction ByteArray.toList.loop bytes i read with
  | case1 i read hlt ih =>
    have hlength : i < bytes.data.toList.length := by simpa using hlt
    have hbyte : bytes.get! i = bytes.data.toList[i] := by
      obtain ⟨data⟩ := bytes
      exact getElem!_pos data i hlt
    rw [ih, List.drop_eq_getElem_cons hlength, hbyte, List.reverse_cons, List.append_assoc]
    rfl
  | case2 i read hge =>
    rw [List.drop_eq_nil_of_le (by simpa using Nat.le_of_not_lt hge), List.append_nil]

theorem toList_eq (bytes : ByteArray) : bytes.toList = bytes.data.toList := by
  rw [ByteArray.toList, toList_loop]
  rfl

theorem toList_toUTF8 (text : List Char) :
    (String.ofList text).toUTF8.toList = text.flatMap String.utf8EncodeChar := by
  rw [String.toUTF8_eq_toByteArray, String.toByteArray_ofList, toList_eq]
  exact List.toList_data_toByteArray

theorem ofBytes_toUTF8 (text : List Char) :
    ofBytes (String.ofList text).toUTF8 = .ok (normalizeLines text) := by
  rw [ofBytes, decode, toList_toUTF8, decodeFrom_flatMap]
  rfl

end Text

end GaussJordan
