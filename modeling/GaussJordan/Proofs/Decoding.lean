import GaussJordan.Proofs.Layout
import GaussJordan.Proofs.TokenReading

/-!
# GaussJordan.Proofs.Decoding

Reading a file is reading the text that its bytes encode.

* `Text.decode_ok_iff`: bytes are decoded to a text exactly if they are the UTF-8 form of it. So
  bytes that are no such form are refused (`Text.exists_decode_err_iff`).
* `SizedSystem.ofFile_toUTF8`: a file that holds a text gives what the text gives. The line ends of
  the text are changed on the way, but not its words.
-/

namespace GaussJordan

namespace Text

/-! ## The bytes of a character -/

section

variable {a b c d : UInt8}

theorem continues_iff : continues b = true ↔ 128 ≤ b.toNat ∧ b.toNat < 192 := by
  simp [continues, UInt8.le_iff_toNat_le, UInt8.lt_iff_toNat_lt]

theorem secondFits_iff : secondFits a b = true ↔ (128 ≤ b.toNat ∧ b.toNat < 192) ∧
    (a.toNat = 0xe0 → 0xa0 ≤ b.toNat) ∧ (a.toNat = 0xed → b.toNat < 0xa0) ∧
      (a.toNat = 0xf0 → 0x90 ≤ b.toNat) ∧ (a.toNat = 0xf4 → b.toNat < 0x90) := by
  simp only [secondFits, Bool.and_eq_true, continues_iff, ← UInt8.toNat_inj]
  refine and_congr_right fun _ => ?_
  split
  · simp [UInt8.le_iff_toNat_le, *]
  · split
    · simp [UInt8.lt_iff_toNat_lt, *]
    · split
      · simp [UInt8.le_iff_toNat_le, *]
      · split
        · simp [UInt8.lt_iff_toNat_lt, *]
        · simp_all

theorem toNat_val_ofNat {v : Nat} (hv : v < 0xd800 ∨ 0xdfff < v ∧ v < 0x110000) :
    (Char.ofNat v).val.toNat = v := by
  have h : v.isValidChar := hv
  rw [Char.ofNat, dif_pos h]
  rfl

theorem encode_one (ha : a.toNat < 0x80) : String.utf8EncodeChar (Char.ofNat a.toNat) = [a] := by
  rw [String.utf8EncodeChar, toNat_val_ofNat (by omega), if_pos (by omega), UInt8.ofNat_toNat]

theorem encode_two (ha : 0xc2 ≤ a.toNat) (ha' : a.toNat < 0xe0) (hb : continues b = true) :
    String.utf8EncodeChar (Char.ofNat (a.toNat % 32 * 64 + payload b)) = [a, b] := by
  obtain ⟨hb, hb'⟩ := continues_iff.mp hb
  obtain ⟨v, hv⟩ : ∃ v, v = a.toNat % 32 * 64 + b.toNat % 64 := ⟨_, rfl⟩
  rw [payload, ← hv, String.utf8EncodeChar, toNat_val_ofNat (by omega), if_neg (by omega),
    if_pos (by omega)]
  have hfirst : UInt8.ofNat (v / 64 % 32 + 192) = a := (ofNat_eq (by omega)).mpr (by omega)
  have hsecond : UInt8.ofNat (v % 64 + 128) = b := (ofNat_eq (by omega)).mpr (by omega)
  rw [hfirst, hsecond]

theorem encode_three (ha : 0xe0 ≤ a.toNat) (ha' : a.toNat < 0xf0) (hb : secondFits a b = true)
    (hc : continues c = true) :
    String.utf8EncodeChar (Char.ofNat ((a.toNat % 16 * 64 + payload b) * 64 + payload c)) =
      [a, b, c] := by
  obtain ⟨hb, hoverlong, hsurrogate, -, -⟩ := secondFits_iff.mp hb
  obtain ⟨hc, hc'⟩ := continues_iff.mp hc
  obtain ⟨v, hv⟩ : ∃ v, v = (a.toNat % 16 * 64 + b.toNat % 64) * 64 + c.toNat % 64 := ⟨_, rfl⟩
  rw [payload, payload, ← hv, String.utf8EncodeChar, toNat_val_ofNat (by omega),
    if_neg (by omega), if_neg (by omega), if_pos (by omega)]
  have hfirst : UInt8.ofNat (v / 4096 % 16 + 224) = a := (ofNat_eq (by omega)).mpr (by omega)
  have hsecond : UInt8.ofNat (v / 64 % 64 + 128) = b := (ofNat_eq (by omega)).mpr (by omega)
  have hthird : UInt8.ofNat (v % 64 + 128) = c := (ofNat_eq (by omega)).mpr (by omega)
  rw [hfirst, hsecond, hthird]

theorem encode_four (ha : 0xf0 ≤ a.toNat) (ha' : a.toNat < 0xf5) (hb : secondFits a b = true)
    (hc : continues c = true) (hd : continues d = true) :
    String.utf8EncodeChar (Char.ofNat
        (((a.toNat % 8 * 64 + payload b) * 64 + payload c) * 64 + payload d)) = [a, b, c, d] := by
  obtain ⟨hb, -, -, hoverlong, hbeyond⟩ := secondFits_iff.mp hb
  obtain ⟨hc, hc'⟩ := continues_iff.mp hc
  obtain ⟨hd, hd'⟩ := continues_iff.mp hd
  obtain ⟨v, hv⟩ : ∃ v, v = ((a.toNat % 8 * 64 + b.toNat % 64) * 64 + c.toNat % 64) * 64 +
    d.toNat % 64 := ⟨_, rfl⟩
  rw [payload, payload, payload, ← hv, String.utf8EncodeChar, toNat_val_ofNat (by omega),
    if_neg (by omega), if_neg (by omega), if_neg (by omega)]
  have hfirst : UInt8.ofNat (v / 262144 % 8 + 240) = a := (ofNat_eq (by omega)).mpr (by omega)
  have hsecond : UInt8.ofNat (v / 4096 % 64 + 128) = b := (ofNat_eq (by omega)).mpr (by omega)
  have hthird : UInt8.ofNat (v / 64 % 64 + 128) = c := (ofNat_eq (by omega)).mpr (by omega)
  have hfourth : UInt8.ofNat (v % 64 + 128) = d := (ofNat_eq (by omega)).mpr (by omega)
  rw [hfirst, hsecond, hthird, hfourth]

end

/-! ## The bytes of a text -/

/-- Only the UTF-8 form of a text is decoded to it: no other bytes pass the tests. -/
theorem eq_flatMap_of_decodeFrom {position : Nat} {bytes : List UInt8} {cs : List Char}
    (h : decodeFrom position bytes = .ok cs) : bytes = cs.flatMap String.utf8EncodeChar := by
  -- four cases go on with the rest, one for each length of a character; the others stop
  fun_induction decodeFrom position bytes generalizing cs with
  | case1 =>
    cases h
    rfl
  | case2 position a rest ha ih =>
    obtain ⟨tail, htail, h⟩ := andThen_ok.mp h
    cases h
    rw [List.flatMap_cons, ← ih htail, encode_one (UInt8.lt_iff_toNat_lt.mp ha)]
    rfl
  | case5 position a hone htwo ha b rest hb ih =>
    obtain ⟨tail, htail, h⟩ := andThen_ok.mp h
    cases h
    rw [UInt8.lt_iff_toNat_lt] at htwo ha
    rw [List.flatMap_cons, ← ih htail, encode_two (Nat.le_of_not_lt htwo) ha hb]
    rfl
  | case10 position a hone hstart htwo ha b hb c rest hc ih =>
    obtain ⟨tail, htail, h⟩ := andThen_ok.mp h
    cases h
    rw [UInt8.lt_iff_toNat_lt] at htwo ha
    rw [List.flatMap_cons, ← ih htail,
      encode_three (Nat.le_of_not_lt htwo) ha (by simpa using hb) hc]
    rfl
  | case17 position a hone hstart htwo hthree ha b hb c hc d rest hd ih =>
    obtain ⟨tail, htail, h⟩ := andThen_ok.mp h
    cases h
    rw [UInt8.lt_iff_toNat_lt] at hthree ha
    rw [List.flatMap_cons, ← ih htail, encode_four (Nat.le_of_not_lt hthree) ha (by simpa using hb)
      (by simpa using hc) hd]
    rfl
  | _ => cases h

/-- Bytes are decoded to a text exactly if they are its UTF-8 form. -/
theorem decode_ok_iff {bytes : ByteArray} {text : List Char} :
    decode bytes = .ok text ↔ bytes = (String.ofList text).toUTF8 := by
  constructor
  · intro h
    have hlist := eq_flatMap_of_decodeFrom h
    rw [← toList_toUTF8, toList_eq, toList_eq] at hlist
    exact ByteArray.ext (Array.toList_inj.mp hlist)
  · rintro rfl
    rw [decode, toList_toUTF8, decodeFrom_flatMap]

theorem isValidUTF8_iff {bytes : ByteArray} :
    bytes.IsValidUTF8 ↔ ∃ text : List Char, bytes = (String.ofList text).toUTF8 := by
  have hencode (text : List Char) : text.utf8Encode = (String.ofList text).toUTF8 := by
    rw [String.toUTF8_eq_toByteArray, String.toByteArray_ofList]
  constructor
  · rintro ⟨text, rfl⟩
    exact ⟨text, hencode text⟩
  · rintro ⟨text, rfl⟩
    exact ⟨text, (hencode text).symm⟩

/-- Bytes have a fault exactly if they are not valid UTF-8. -/
theorem exists_decode_err_iff {bytes : ByteArray} :
    (∃ fault, decode bytes = .error fault) ↔ ¬bytes.IsValidUTF8 := by
  rw [isValidUTF8_iff]
  cases h : decode bytes with
  | error fault =>
    refine iff_of_true ⟨fault, rfl⟩ ?_
    rintro ⟨text, hbytes⟩
    cases h.symm.trans (decode_ok_iff.mpr hbytes)
  | ok text =>
    refine iff_of_false nofun fun hnot => hnot ⟨text, decode_ok_iff.mp h⟩

end Text

/-! ## Files -/

/-- A token is never refused for the bytes that it was decoded from. -/
theorem readValue_ne_undecodable (token path detail : String) :
    readValue token ≠ .error (.malformed (.undecodable path detail)) := by
  intro h
  have houtcome := outcome_readValue token
  rw [h] at houtcome
  cases houtcome

namespace SizedSystem

variable {text : List Char} {path : String} {tolerance : Double}

/-- Only the words of a text count. -/
theorem ofText_congr {other : List Char} (h : Text.words other = Text.words text) :
    ofText other tolerance = ofText text tolerance := by
  unfold ofText
  rw [h]

theorem ofText_ne_undecodable {detail : String} :
    (ofText text tolerance).1 ≠ .error (.malformed (.undecodable path detail)) := by
  rw [Ne, ofText_err_iff]
  generalize Text.words text = ws
  intro h
  cases h with
  | value _ _ hbad _ =>
    obtain ⟨word, -, hread⟩ := Option.map_eq_some_iff.mp hbad
    exact readValue_ne_undecodable _ _ _ hread

theorem ofFile_toUTF8 (text : List Char) (path : String) (tolerance : Double) :
    ∃ record : Record, record.level = .debug ∧
      ofFile path (String.ofList text).toUTF8 tolerance =
        ((ofText text tolerance).1, record :: (ofText text tolerance).2) := by
  let count := (Text.normalizeLines text).length
  refine ⟨⟨.debug, .reading, s!"Loaded {count} bytes from {path}"⟩, rfl, ?_⟩
  rw [ofFile, Text.ofBytes_toUTF8]
  dsimp only
  rw [ofText_congr (Text.words_normalizeLines text).1]

theorem ofFile_undecodable {bytes : ByteArray} (h : ¬bytes.IsValidUTF8) :
    ∃ detail, (ofFile path bytes tolerance).1 = .error (.malformed (.undecodable path detail)) := by
  obtain ⟨fault, hfault⟩ := Text.exists_decode_err_iff.mpr h
  have hbytes : Text.ofBytes bytes = .error fault := by
    rw [Text.ofBytes, hfault]
    rfl
  exact ⟨fault.message, by rw [ofFile, hbytes]⟩

/-- A file that holds the UTF-8 form of a text gives what the text gives, the same system or the
same fault, with one more record for the debugger; whatever line ends, blanks and other characters
there are in the text. A file is refused for its bytes exactly if they are no such form. -/
theorem ofFile_text (path : String) (tolerance : Double) :
    (∀ text : String, ∃ record : Record, record.level = .debug ∧
      ofFile path text.toUTF8 tolerance =
        ((ofText text.toList tolerance).1, record :: (ofText text.toList tolerance).2)) ∧
    ∀ bytes : ByteArray, (∃ detail, (ofFile path bytes tolerance).1 =
      .error (.malformed (.undecodable path detail))) ↔ ¬bytes.IsValidUTF8 := by
  constructor
  · intro text
    have h := ofFile_toUTF8 text.toList path tolerance
    rwa [String.ofList_toList] at h
  · intro bytes
    refine ⟨fun ⟨detail, hfault⟩ hvalid => ?_, ofFile_undecodable⟩
    obtain ⟨text, rfl⟩ := Text.isValidUTF8_iff.mp hvalid
    obtain ⟨record, -, hfile⟩ := ofFile_toUTF8 text path tolerance
    rw [hfile] at hfault
    exact ofText_ne_undecodable hfault

end SizedSystem

end GaussJordan
