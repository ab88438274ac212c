import GaussJordan.Settings
import GaussJordan.Proofs.Texts
import GaussJordan.Proofs.Words
import Mathlib.Data.List.Forall2

/-!
# GaussJordan.Proofs.StoredSettings

What is read from a settings file, whatever it holds.

* `Merges stored fields`: the stored entry can be merged, and sets these fields. It is an object, a
  list of pairs with string keys, or an empty text.
* `Holds file fields log`: the file is not there, or it is text in UTF-8 without an integer that is
  too long, and these are the fields it sets.
* `get_iff`: settings are read exactly from such files. They are those that the fields give over the
  defaults, or the defaults themselves if one of the fields does not fit.
* `get_cases`: so both tolerances are positive, and a file that gives no settings holds no fields.

Not every file can be read (`get_null`), although every fault could be answered by the defaults.
-/

namespace GaussJordan

namespace Json

theorem find?_append {β : Type} (key : String) (fields more : List (String × β)) :
    find? key (fields ++ more) = (find? key fields).or (find? key more) := by
  simp only [find?, List.find?_append, Option.map_or]

/-- Of the values merged under a key the last one counts. -/
theorem find?_merge {β : Type} (key : String) (fields more : List (String × β)) :
    find? key (merge fields more) = (find? key more.reverse).or (find? key fields) := by
  induction more generalizing fields with
  | nil => rfl
  | cons field more ih =>
    obtain ⟨k, v⟩ := field
    have hput : find? key (put k v fields) = (find? key [(k, v)]).or (find? key fields) := by
      by_cases hk : key = k
      · subst hk
        rw [find?_put_self]
        simp [find?]
      · rw [find?_put_of_ne hk]
        simp [find?, Ne.symm hk]
    rw [List.reverse_cons, find?_append, Option.or_assoc, ← hput]
    exact ih (put k v fields)

end Json

namespace Settings

/-! ## The stored entry -/

/-- An item of a list that stands for a key and its value. -/
inductive Pair : Json → String × Json → Prop where
  | array (key : String) (value : Json) : Pair (.array [.string key, value]) (key, value)
  | keys (key value : String) (first second : Json) :
      Pair (.object [(key, first), (value, second)]) (key, .string value)
  | chars (key value : Char) :
      Pair (.string (String.ofList [key, value])) (key.toString, .string value.toString)

/-- The stored entry can be merged and sets these fields. -/
inductive Merges : Json → List (String × Json) → Prop where
  | object (fields : List (String × Json)) : Merges (.object fields) fields
  | pairs {items : List Json} {fields : List (String × Json)} :
      List.Forall₂ Pair items fields → Merges (.array items) fields
  | empty : Merges (.string "") []

theorem elements?_of_pairOf {item : Json} {pair : Json × Json} (h : pairOf item = .ok pair) :
    item.elements? = some [pair.1, pair.2] := by
  unfold pairOf at h
  split at h
  · cases h
  · cases h
  · cases h
  · rename_i key value _ _ helements
    cases h
    exact helements
  · cases h

/-- An item is read as a pair whose key is a string. -/
theorem pairOf_stringKey_iff {item : Json} {field : String × Json} :
    (∃ pair, pairOf item = .ok pair ∧ stringKey pair = .ok field) ↔ Pair item field := by
  constructor
  · rintro ⟨⟨key, value⟩, hpair, hkey⟩
    have helements := elements?_of_pairOf hpair
    unfold stringKey at hkey
    split at hkey
    · rename_i key value hstring
      cases hstring
      cases hkey
      cases item with
      | array items =>
        cases helements
        exact .array key value
      | object fields =>
        obtain ⟨⟨first, _⟩, _, rfl, hfirst, hrest⟩ :=
          List.map_eq_cons_iff.mp (Option.some.inj helements)
        obtain ⟨⟨second, _⟩, rfl, hsecond⟩ := List.map_eq_singleton_iff.mp hrest
        cases hfirst
        cases hsecond
        exact .keys _ _ _ _
      | string s =>
        obtain ⟨a, _, hs, hfirst, hrest⟩ :=
          List.map_eq_cons_iff.mp (Option.some.inj helements)
        obtain ⟨b, rfl, hsecond⟩ := List.map_eq_singleton_iff.mp hrest
        cases hfirst
        cases hsecond
        rw [← String.ofList_toList (s := s), hs]
        exact .chars _ _
      | null | bool | integer | real => cases helements
    · cases hkey
  · intro h
    cases h with
    | array key value => exact ⟨(.string key, value), rfl, rfl⟩
    | keys key value first second => exact ⟨(.string key, .string value), rfl, rfl⟩
    | chars key value =>
      refine ⟨(.string key.toString, .string value.toString), ?_, rfl⟩
      simp [pairOf, Json.elements?]

theorem pairs_ok_iff {items : List Json} {fields : List (String × Json)} :
    (items.mapM pairOf >>= fun pairs => pairs.mapM stringKey) = .ok fields ↔
      List.Forall₂ Pair items fields := by
  simp only [andThen_ok, mapM_ok_iff]
  constructor
  · rintro ⟨pairs, hpairs, hkeys⟩
    induction hpairs generalizing fields with
    | nil =>
      cases hkeys
      exact .nil
    | cons hpair _ ih =>
      cases hkeys with
      | cons hkey hkeys => exact .cons (pairOf_stringKey_iff.mp ⟨_, hpair, hkey⟩) (ih hkeys)
  · intro h
    induction h with
    | nil => exact ⟨[], .nil, .nil⟩
    | cons hitem _ ih =>
      obtain ⟨pair, hpair, hkey⟩ := pairOf_stringKey_iff.mpr hitem
      obtain ⟨pairs, hpairs, hkeys⟩ := ih
      exact ⟨pair :: pairs, .cons hpair hpairs, .cons hkey hkeys⟩

/-- A text of one character is no pair. -/
theorem not_pair_char (c : Char) (field : String × Json) :
    ¬Pair (.string c.toString) field := by
  generalize hitem : Json.string c.toString = item
  intro h
  cases h with
  | array | keys => cases hitem
  | chars a b =>
    have hlist := congrArg String.toList (Json.string.inj hitem)
    simp at hlist

theorem storedFields_ok_iff {stored : Json} {fields : List (String × Json)} :
    storedFields stored = .ok fields ↔ Merges stored fields := by
  cases stored with
  | object given =>
    constructor
    · intro h
      cases h
      exact .object _
    · intro h
      cases h
      rfl
  | array items =>
    refine pairs_ok_iff.trans ⟨.pairs, fun h => ?_⟩
    cases h with
    | pairs hpairs => exact hpairs
  | string s =>
    refine pairs_ok_iff.trans ⟨fun h => ?_, fun h => ?_⟩
    · cases hs : s.toList with
      | nil =>
        rw [hs] at h
        cases h
        rw [← String.ofList_toList (s := s), hs]
        exact .empty
      | cons c cs =>
        rw [hs] at h
        cases h with
        | cons hc _ => exact absurd hc (not_pair_char c _)
    · cases h
      exact .nil
  | null | bool | integer | real =>
    constructor
    · intro h
      cases h
    · intro h
      cases h

/-! ## The file -/

/-- The file is not there, or it can be read and sets these fields. A file that is not JSON, or has
no entry for the settings, sets none. -/
inductive Holds : Option ByteArray → List (String × Json) → List Record → Prop where
  | missing : Holds none [] []
  | malformed {bytes : ByteArray} {text : List Char} : Text.ofBytes bytes = .ok text →
      Json.read text = .error .malformed → Holds (some bytes) [] [unreadableRecord]
  | other {bytes : ByteArray} {text : List Char} {value : Json} : Text.ofBytes bytes = .ok text →
      Json.read text = .ok value → value.field? "settings" = none → Holds (some bytes) [] []
  | stored {bytes : ByteArray} {text : List Char} {value stored : Json}
      {fields : List (String × Json)} : Text.ofBytes bytes = .ok text →
      Json.read text = .ok value → value.field? "settings" = some stored →
      Merges stored fields → Holds (some bytes) fields []

/-- What is returned once the fields of the file are known. -/
def checked (fields : List (String × Json)) (log : List Record) : Settings × List Record :=
  match validate (Json.merge default.fields fields) with
  | .ok settings => (settings, log)
  | .error _ => (default, log ++ [invalidRecord])

/-- The fields of the entry, if there is one. -/
def entryFields (entries : List (String × Json)) : Except SettingsFault (List (String × Json)) :=
  match Json.find? "settings" entries with
  | some stored => storedFields stored
  | none => pure []

theorem get_eq (file : Option ByteArray) :
    get file = loadEntries file >>= fun loaded =>
      entryFields loaded.1 >>= fun fields => .ok (checked fields loaded.2) := by
  unfold get entryFields
  congr 1
  funext ⟨entries, log⟩
  dsimp only
  cases Json.find? "settings" entries with
  | none | some =>
    dsimp only
    congr 1
    funext fields
    unfold checked
    cases validate (Json.merge default.fields fields) <;> rfl

theorem entryFields_ok {entries : List (String × Json)} {fields : List (String × Json)}
    (h : entryFields entries = .ok fields) :
    (Json.find? "settings" entries = none ∧ fields = []) ∨
      ∃ stored, Json.find? "settings" entries = some stored ∧ Merges stored fields := by
  unfold entryFields at h
  cases hfind : Json.find? "settings" entries with
  | none =>
    rw [hfind] at h
    cases h
    exact .inl ⟨rfl, rfl⟩
  | some stored =>
    rw [hfind] at h
    exact .inr ⟨stored, rfl, storedFields_ok_iff.mp h⟩

theorem loadEntries_of_text {bytes : ByteArray} {text : List Char}
    (h : Text.ofBytes bytes = .ok text) :
    loadEntries (some bytes) =
      match Json.read text with
      | .ok (.object entries) => .ok (entries, [])
      | .ok _ => .ok ([], [])
      | .error .malformed => .ok ([], [unreadableRecord])
      | .error .longInteger => .error .longInteger := by
  unfold loadEntries
  dsimp only
  generalize Text.ofBytes bytes = decoded at h ⊢
  subst h
  rfl

/-- The fields of a file are those of the entry that is loaded from it. -/
theorem Holds.loaded {file : Option ByteArray} {fields : List (String × Json)}
    {log : List Record} (h : Holds file fields log) :
    ∃ entries, loadEntries file = .ok (entries, log) ∧ entryFields entries = .ok fields := by
  cases h with
  | missing => exact ⟨[], rfl, rfl⟩
  | malformed hbytes hread =>
    refine ⟨[], ?_, rfl⟩
    rw [loadEntries_of_text hbytes, hread]
  | @other _ _ value hbytes hread hentry =>
    cases value with
    | object entries =>
      refine ⟨entries, ?_, ?_⟩
      · rw [loadEntries_of_text hbytes, hread]
      · rw [Json.field?] at hentry
        rw [entryFields, hentry]
        rfl
    | null | bool | integer | real | string | array =>
      refine ⟨[], ?_, rfl⟩
      rw [loadEntries_of_text hbytes, hread]
  | @stored _ _ value _ _ hbytes hread hentry hmerges =>
    cases value with
    | object entries =>
      refine ⟨entries, ?_, ?_⟩
      · rw [loadEntries_of_text hbytes, hread]
      · rw [Json.field?] at hentry
        rw [entryFields, hentry]
        exact storedFields_ok_iff.mpr hmerges
    | null | bool | integer | real | string | array => cases hentry

theorem holds_of_loaded {file : Option ByteArray} {entries fields : List (String × Json)}
    {log : List Record} (hload : loadEntries file = .ok (entries, log))
    (hfields : entryFields entries = .ok fields) : Holds file fields log := by
  cases file with
  | none =>
    cases hload
    cases hfields
    exact .missing
  | some bytes =>
    cases hbytes : Text.ofBytes bytes with
    | error fault =>
      rw [loadEntries, hbytes] at hload
      cases hload
    | ok text =>
      rw [loadEntries_of_text hbytes] at hload
      cases hread : Json.read text with
      | error fault =>
        rw [hread] at hload
        cases fault with
        | malformed =>
          cases hload
          cases hfields
          exact .malformed hbytes hread
        | longInteger => cases hload
      | ok value =>
        rw [hread] at hload
        cases value with
        | object entries =>
          cases hload
          obtain ⟨hnone, rfl⟩ | ⟨stored, hsome, hmerges⟩ := entryFields_ok hfields
          · exact .other hbytes hread hnone
          · exact .stored hbytes hread hsome hmerges
        | null | bool | integer | real | string | array =>
          cases hload
          cases hfields
          exact .other hbytes hread rfl

/-! ## The values -/

/-- The settings take the values of the fields, the last one of each key, and the defaults where
there is none. -/
structure Given (fields : List (String × Json)) (s : Settings) : Prop where
  tolerance : readField fields.reverse "tolerance" default.tolerance Json.toPositive =
    .ok s.tolerance
  verifySolution : readField fields.reverse "verify_solution" default.verifySolution Json.toBool =
    .ok s.verifySolution
  verifyTolerance : readField fields.reverse "verify_tolerance" default.verifyTolerance
    Json.toPositive = .ok s.verifyTolerance
  logLevel : readField fields.reverse "log_level" default.logLevel readLevel = .ok s.logLevel

/-- Both tolerances are positive. -/
structure Positive (s : Settings) : Prop where
  tolerance : Double.lt .zero s.tolerance = true
  verifyTolerance : Double.lt .zero s.verifyTolerance = true

theorem positive_default : default.Positive := ⟨by decide +kernel, by decide +kernel⟩

theorem toPositive_pos {value : Json} {x : Double} (h : value.toPositive = .ok x) :
    Double.lt .zero x = true := by
  obtain ⟨y, _, h⟩ := andThen_ok.mp h
  split at h
  · rename_i hpos
    cases h
    exact hpos
  · cases h

theorem readField_pos {fields : List (String × Json)} {key : String} {d x : Double}
    (hd : Double.lt .zero d = true) (h : readField fields key d Json.toPositive = .ok x) :
    Double.lt .zero x = true := by
  unfold readField at h
  split at h
  · exact toPositive_pos h
  · cases h
    exact hd

theorem Given.positive {fields : List (String × Json)} {s : Settings} (h : Given fields s) :
    s.Positive :=
  ⟨readField_pos positive_default.tolerance h.tolerance,
    readField_pos positive_default.verifyTolerance h.verifyTolerance⟩

/-- Merged over fields that give a value, a key is read as it is given, or by that value. -/
theorem readField_merge {β : Type} {fields : List (String × Json)} {key : String} {d : β}
    {read : Json → Except Mismatch β} (h : readField fields key d read = .ok d)
    (more : List (String × Json)) :
    readField (Json.merge fields more) key d read = readField more.reverse key d read := by
  rw [readField] at h ⊢
  rw [readField, Json.find?_merge]
  cases Json.find? key more.reverse with
  | none => exact h
  | some value => rfl

theorem validate_ok_iff {fields : List (String × Json)} {s : Settings} :
    validate fields = .ok s ↔
      readField fields "tolerance" default.tolerance Json.toPositive = .ok s.tolerance ∧
      readField fields "verify_solution" default.verifySolution Json.toBool =
        .ok s.verifySolution ∧
      readField fields "verify_tolerance" default.verifyTolerance Json.toPositive =
        .ok s.verifyTolerance ∧
      readField fields "log_level" default.logLevel readLevel = .ok s.logLevel := by
  constructor
  · intro h
    unfold validate at h
    dsimp only at h
    split at h
    · rename_i ht hv hw hl
      cases h
      exact ⟨ht, hv, hw, hl⟩
    · cases h
  · rintro ⟨ht, hv, hw, hl⟩
    rw [validate, ht, hv, hw, hl]

/-- Settings with positive tolerances pass the check of their own fields. -/
theorem validate_fields {s : Settings} (htolerance : Double.lt .zero s.tolerance = true)
    (hverify : Double.lt .zero s.verifyTolerance = true) : validate s.fields = .ok s := by
  have hpositive {x : Double} (h : Double.lt .zero x = true) :
      (Json.real x).toPositive = .ok x := by
    simp only [Json.toPositive, Json.toDouble, bind, Except.bind, h, if_true]
    rfl
  have hlevel : readLevel (.string s.logLevel.name) = .ok s.logLevel := by
    cases s.logLevel <;> rfl
  have h1 : readField s.fields "tolerance" default.tolerance Json.toPositive = .ok s.tolerance :=
    hpositive htolerance
  have h2 : readField s.fields "verify_solution" default.verifySolution Json.toBool =
      .ok s.verifySolution := rfl
  have h3 : readField s.fields "verify_tolerance" default.verifyTolerance Json.toPositive =
      .ok s.verifyTolerance := hpositive hverify
  have h4 : readField s.fields "log_level" default.logLevel readLevel = .ok s.logLevel := hlevel
  rw [validate, h1, h2, h3, h4]

theorem validate_default : validate default.fields = .ok default :=
  validate_fields positive_default.tolerance positive_default.verifyTolerance

/-- Merged over the defaults, fields are valid exactly if they give settings. -/
theorem validate_merge_iff {fields : List (String × Json)} {s : Settings} :
    validate (Json.merge default.fields fields) = .ok s ↔ Given fields s := by
  obtain ⟨htolerance, hverify, hwithin, hlevel⟩ := validate_ok_iff.mp validate_default
  rw [validate_ok_iff, readField_merge htolerance, readField_merge hverify,
    readField_merge hwithin, readField_merge hlevel]
  exact ⟨fun ⟨h1, h2, h3, h4⟩ => ⟨h1, h2, h3, h4⟩, fun ⟨h1, h2, h3, h4⟩ => ⟨h1, h2, h3, h4⟩⟩

/-! ## What is read -/

/-- The settings of the fields of a file, with what was recorded on the way to them. -/
inductive Chosen (fields : List (String × Json)) (shown : List Record) :
    Settings → List Record → Prop where
  | given {s : Settings} : Given fields s → Chosen fields shown s shown
  | fallback : (∀ s, ¬Given fields s) → Chosen fields shown default (shown ++ [invalidRecord])

theorem checked_eq_iff {fields : List (String × Json)} {shown log : List Record} {s : Settings} :
    checked fields shown = (s, log) ↔ Chosen fields shown s log := by
  unfold checked
  cases hvalid : validate (Json.merge default.fields fields) with
  | ok t =>
    have ht := validate_merge_iff.mp hvalid
    dsimp only
    rw [Prod.mk.injEq]
    constructor
    · rintro ⟨rfl, rfl⟩
      exact .given ht
    · intro h
      cases h with
      | given hs =>
        have hst := hvalid.symm.trans (validate_merge_iff.mpr hs)
        exact ⟨Except.ok.inj hst, rfl⟩
      | fallback hnone => exact absurd ht (hnone t)
  | error misfits =>
    have hnone (t : Settings) : ¬Given fields t := by
      intro ht
      have hst := hvalid.symm.trans (validate_merge_iff.mpr ht)
      cases hst
    dsimp only
    rw [Prod.mk.injEq]
    constructor
    · rintro ⟨rfl, rfl⟩
      exact .fallback hnone
    · intro h
      cases h with
      | given hs => exact absurd hs (hnone _)
      | fallback _ => exact ⟨rfl, rfl⟩

theorem get_iff {file : Option ByteArray} {s : Settings} {log : List Record} :
    get file = .ok (s, log) ↔
      ∃ fields shown, Holds file fields shown ∧ Chosen fields shown s log := by
  rw [get_eq, andThen_ok]
  constructor
  · rintro ⟨⟨entries, shown⟩, hload, hchecked⟩
    obtain ⟨fields, hfields, hchecked⟩ := andThen_ok.mp hchecked
    exact ⟨fields, shown, holds_of_loaded hload hfields,
      checked_eq_iff.mp (Except.ok.inj hchecked)⟩
  · rintro ⟨fields, shown, hholds, hchosen⟩
    obtain ⟨entries, hload, hfields⟩ := hholds.loaded
    exact ⟨(entries, shown), hload,
      andThen_ok.mpr ⟨fields, hfields, congrArg Except.ok (checked_eq_iff.mpr hchosen)⟩⟩

theorem Chosen.positive {fields : List (String × Json)} {shown log : List Record} {s : Settings}
    (h : Chosen fields shown s log) : s.Positive := by
  cases h with
  | given hs => exact hs.positive
  | fallback _ => exact positive_default

/-- The fields of a file decide what is read from it. -/
theorem exists_chosen (fields : List (String × Json)) (shown : List Record) :
    ∃ s log, Chosen fields shown s log :=
  ⟨_, _, checked_eq_iff.mp rfl⟩

/-- Whatever the file holds: settings are read from it exactly if it holds fields that can be merged
over the defaults. They have positive tolerances and one of the five levels, and are those that the
fields give, or the defaults if the fields give none. The file may be nested to any depth, since
`Json.read` sets no limit to it. -/
theorem get_cases (file : Option ByteArray) :
    match get file with
    | .ok (s, log) =>
      s.Positive ∧ s.logLevel.name ∈ ["DEBUG", "INFO", "WARNING", "ERROR", "CRITICAL"] ∧
        ∃ fields shown, Holds file fields shown ∧ Chosen fields shown s log
    | .error _ => ∀ fields shown, ¬Holds file fields shown := by
  cases hget : get file with
  | ok result =>
    obtain ⟨s, log⟩ := result
    obtain ⟨fields, shown, hholds, hchosen⟩ := get_iff.mp hget
    refine ⟨hchosen.positive, ?_, fields, shown, hholds, hchosen⟩
    cases s.logLevel <;> decide
  | error fault =>
    intro fields shown hholds
    obtain ⟨s, log, hchosen⟩ := exists_chosen fields shown
    have hok := hget.symm.trans (get_iff.mpr ⟨fields, shown, hholds, hchosen⟩)
    cases hok

theorem read_nullEntry :
    (match Json.read (Text.normalizeLines "\x7b\"settings\": null\x7d".toList) with
      | .ok (.object [(key, .null)]) => key == "settings"
      | _ => false) = true := by
  decide +kernel

/-- An entry that is no collection is not answered by the defaults. -/
theorem get_null : get (some "\x7b\"settings\": null\x7d".toUTF8) = .error .notMergeable := by
  have hbytes := Text.ofBytes_toUTF8 "\x7b\"settings\": null\x7d".toList
  rw [String.ofList_toList] at hbytes
  have hread := read_nullEntry
  split at hread
  · rename_i key hobject
    obtain rfl : key = "settings" := eq_of_beq hread
    have hload : loadEntries (some "\x7b\"settings\": null\x7d".toUTF8) =
        .ok ([("settings", .null)], []) := by
      rw [loadEntries_of_text hbytes, hobject]
    have hentry : entryFields [("settings", .null)] = .error .notMergeable := rfl
    rw [get_eq, hload]
    exact andThen_err.mpr (.inr ⟨_, rfl, andThen_err.mpr (.inl hentry)⟩)
  · cases hread

end Settings

end GaussJordan
