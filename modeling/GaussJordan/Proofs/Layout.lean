import GaussJordan.Proofs.Grids
import GaussJordan.Proofs.Reading

/-!
# GaussJordan.Proofs.Layout

The layout of a text: the size `n` comes first, and then the `n (n + 1)` values row by row.

* `Laid ws n`: the words `ws` have this layout, maybe with more words at the end. The values are cut
  into rows of `n + 1`, so that row and column give the place of a value (`cellAt?_pieces`).
* `FirstFault ws e`: the first thing that is wrong with the words has the fault `e`. Among the
  values this is the first one that cannot be read, in the order of the text (`mapM_rows_err_iff`).
* `ofText_layout`: these two say what reading a text comes to, and which warning it gives. A text
  without enough values has no message that says so if their number is too long to be written
  (`ofText_hugeSize`).
-/

namespace GaussJordan

/-! ## Pieces -/

section

variable {β : Type} {width count : Nat} {xs : List β}

theorem length_pieces (width count : Nat) (xs : List β) :
    (pieces width count xs).length = count := by
  induction count generalizing xs with
  | zero => rfl
  | succ count ih => rw [pieces, List.length_cons, ih]

theorem flatten_pieces (width count : Nat) (xs : List β) :
    (pieces width count xs).flatten = xs.take (count * width) := by
  induction count generalizing xs with
  | zero => simp [pieces]
  | succ count ih =>
    rw [pieces, List.flatten_cons, ih, Nat.succ_mul, Nat.add_comm, List.take_add]

theorem length_of_mem_pieces (h : count * width ≤ xs.length) :
    ∀ row ∈ pieces width count xs, row.length = width := by
  induction count generalizing xs with
  | zero => simp [pieces]
  | succ count ih =>
    rw [Nat.succ_mul] at h
    rw [pieces]
    intro row hrow
    rcases List.mem_cons.mp hrow with rfl | hrow
    · rw [List.length_take]
      omega
    · exact ih (by rw [List.length_drop]; omega) row hrow

theorem getElem?_pieces {i : Nat} (hi : i < count) :
    (pieces width count xs)[i]? = some ((xs.drop (i * width)).take width) := by
  induction count generalizing xs i with
  | zero => omega
  | succ count ih =>
    rw [pieces]
    cases i with
    | zero => simp
    | succ i =>
      rw [List.getElem?_cons_succ, ih (by omega), List.drop_drop, Nat.succ_mul, Nat.add_comm]

/-- Counted from zero, the cell in row `i` and column `j` comes from place `i width + j`. -/
theorem cellAt?_pieces {i j : Nat} (hi : i < count) (hj : j < width) :
    cellAt? (pieces width count xs) i j = xs[i * width + j]? := by
  rw [cellAt?, getElem?_pieces hi, Option.bind_some, List.getElem?_take_of_lt hj,
    List.getElem?_drop]

end

/-! ## The first fault of a list -/

section

variable {β γ ε : Type} {f : β → Except ε γ} {e : ε}

theorem andThen_pure_err {δ : Type} {x : Except ε β} {g : β → δ} :
    (x >>= fun b => pure (g b)) = .error e ↔ x = .error e := by
  rw [andThen_err]
  exact or_iff_left fun ⟨_, _, h⟩ => by cases h

/-- The results of a list have the fault of the first item that has one. -/
theorem mapM_err_iff {xs : List β} :
    xs.mapM f = .error e ↔
      ∃ k : Nat, (∃ x, xs[k]? = some x ∧ f x = .error e) ∧
        ∀ l < k, ∃ x, xs[l]? = some x ∧ ∃ c, f x = .ok c := by
  induction xs with
  | nil =>
    rw [List.mapM_nil]
    constructor
    · intro h
      cases h
    · rintro ⟨k, ⟨x, hx, -⟩, -⟩
      cases hx
  | cons x xs ih =>
    rw [List.mapM_cons, andThen_err]
    constructor
    · rintro (hx | ⟨c, hc, h⟩)
      · exact ⟨0, ⟨x, rfl, hx⟩, fun l hl => by omega⟩
      rcases andThen_err.mp h with hxs | ⟨cs, _, h⟩
      · obtain ⟨k, hfault, hbefore⟩ := ih.mp hxs
        refine ⟨k + 1, hfault, fun l hl => ?_⟩
        cases l with
        | zero => exact ⟨x, rfl, c, hc⟩
        | succ l => exact hbefore l (by omega)
      · cases h
    · rintro ⟨k, ⟨y, hy, hfault⟩, hbefore⟩
      cases k with
      | zero =>
        cases hy
        exact .inl hfault
      | succ k =>
        obtain ⟨_, hx, c, hc⟩ := hbefore 0 (by omega)
        cases hx
        refine .inr ⟨c, hc, andThen_err.mpr (.inl (ih.mpr ⟨k, ⟨y, hy, hfault⟩, fun l hl => ?_⟩))⟩
        exact hbefore (l + 1) (by omega)

/-- A list of lists has the fault of the first item of all. -/
theorem mapM_rows_err_iff {rows : List (List β)} :
    rows.mapM (·.mapM f) = .error e ↔ rows.flatten.mapM f = .error e := by
  induction rows with
  | nil => simp [pure, Except.pure]
  | cons row rows ih =>
    rw [List.mapM_cons, List.flatten_cons, List.mapM_append, andThen_err, andThen_err]
    refine or_congr_right (exists_congr fun cs => and_congr_right fun _ => ?_)
    rw [andThen_pure_err, andThen_pure_err, ih]

end

namespace SizedSystem

open Text

/-! ## What a text lays out -/

/-- The words of a text lay out a system of the size `n`: the size comes first, and there are at
least as many values behind it as the size asks for. -/
structure Laid (ws : List (List Char)) (n : Nat) : Prop where
  size : ws.head?.bind readInteger? = some (n : Int)
  pos : 1 ≤ n
  enough : n * (n + 1) < ws.length

/-- What the word in a place is read as. The size is in place zero. -/
def valueAt? (ws : List (List Char)) (k : Nat) : Option (Except Fault (Complex Double)) :=
  ws[k]?.map fun word => readValue (String.ofList word)

/-- The fault of the first thing that is wrong with the words of a text. -/
inductive FirstFault : List (List Char) → Fault → Prop where
  | empty : FirstFault [] (.malformed .emptyInput)
  | notInteger {first : List Char} {values : List (List Char)} : readInteger? first = none →
      FirstFault (first :: values) (.malformed (.sizeNotInteger (String.ofList first)))
  | belowOne {first : List Char} {values : List (List Char)} {size : Int} :
      readInteger? first = some size → size < 1 → FirstFault (first :: values) (.invalidSize size)
  | tooFew {first : List Char} {values : List (List Char)} {n : Nat} :
      readInteger? first = some (n : Int) → 1 ≤ n → values.length < n * (n + 1) →
      (Decimal.digits (n * (n + 1))).length ≤ Numeral.maxDigits →
      FirstFault (first :: values) (.malformed (.tooFewValues n values.length))
  /-- The number of values that are needed is too long to be written. -/
  | unwritable {first : List Char} {values : List (List Char)} {n : Nat} :
      readInteger? first = some (n : Int) → 1 ≤ n → values.length < n * (n + 1) →
      Numeral.maxDigits < (Decimal.digits (n * (n + 1))).length →
      FirstFault (first :: values) .longInteger
  | value {ws : List (List Char)} {n k : Nat} {e : Fault} : Laid ws n → k < n * (n + 1) →
      valueAt? ws (k + 1) = some (.error e) →
      (∀ l < k, ∃ a, valueAt? ws (l + 1) = some (.ok a)) → FirstFault ws e

section

variable {ws values : List (List Char)} {first : List Char} {n : Nat} {e : Fault}

theorem Laid.unique {n' : Nat} (h : Laid ws n) (h' : Laid ws n') : n = n' := by
  have heq : (n : Int) = n' := Option.some.inj (h.size.symm.trans h'.size)
  omega

theorem laid_cons_iff : Laid (first :: values) n ↔
    readInteger? first = some (n : Int) ∧ 1 ≤ n ∧ n * (n + 1) ≤ values.length := by
  constructor
  · rintro ⟨hsize, hpos, henough⟩
    exact ⟨hsize, hpos, Nat.le_of_lt_succ henough⟩
  · rintro ⟨hsize, hpos, henough⟩
    exact ⟨hsize, hpos, Nat.lt_succ_of_le henough⟩

theorem exists_cons_of_laid (h : Laid ws n) : ∃ first values, ws = first :: values := by
  cases ws with
  | nil => cases h.size
  | cons first values => exact ⟨first, values, rfl⟩

end

variable {text : List Char} {first : List Char} {values : List (List Char)} {n : Nat}
variable {tolerance : Double}

theorem ofText_of_cons (hwords : words text = first :: values)
    (hsize : readInteger? first = some (n : Int)) (hpos : 1 ≤ n)
    (henough : n * (n + 1) ≤ values.length) :
    ofText text tolerance =
      ((do
        let rows ← (pieces (n + 1) n values).mapM fun row =>
          row.mapM fun word => readValue (String.ofList word)
        ofRows n rows tolerance),
        if 0 < values.length - n * (n + 1) then [surplusRecord (values.length - n * (n + 1))]
        else []) := by
  have hle : ¬(n : Int) < 1 := by omega
  unfold ofText
  rw [hwords]
  dsimp only
  rw [hsize]
  dsimp only
  rw [if_neg hle, Int.toNat_natCast, if_neg (by omega)]

theorem ofText_of_few (hwords : words text = first :: values)
    (hsize : readInteger? first = some (n : Int)) (hpos : 1 ≤ n)
    (hfew : values.length < n * (n + 1)) :
    ofText text tolerance = (.error (tooFew n values.length), []) := by
  have hle : ¬(n : Int) < 1 := by omega
  unfold ofText
  rw [hwords]
  dsimp only
  rw [hsize]
  dsimp only
  rw [if_neg hle, Int.toNat_natCast, if_pos hfew]

/-- A text lays out a system, or it is refused for the first thing that is wrong with it. -/
theorem laid_or_refused (text : List Char) (tolerance : Double) :
    (∃ n, Laid (words text) n) ∨ (∀ n, ¬Laid (words text) n) ∧
      ∃ e, FirstFault (words text) e ∧ ofText text tolerance = (.error e, []) := by
  cases hwords : words text with
  | nil =>
    refine .inr ⟨fun n hlaid => ?_, _, .empty, ?_⟩
    · cases hlaid.size
    · rw [ofText, hwords]
  | cons first values =>
    cases hsize : readInteger? first with
    | none =>
      refine .inr ⟨fun n h => ?_, _, .notInteger hsize, ?_⟩
      · cases hsize.symm.trans (laid_cons_iff.mp h).1
      · rw [ofText, hwords]
        dsimp only
        rw [hsize]
    | some size =>
      by_cases hone : size < 1
      · refine .inr ⟨fun n h => ?_, _, .belowOne hsize hone, ?_⟩
        · obtain ⟨hn, hpos, -⟩ := laid_cons_iff.mp h
          cases hsize.symm.trans hn
          omega
        · rw [ofText, hwords]
          dsimp only
          rw [hsize]
          dsimp only
          rw [if_pos hone]
      obtain ⟨n, rfl⟩ : ∃ n : Nat, size = n := ⟨size.toNat, by omega⟩
      have hpos : 1 ≤ n := by omega
      by_cases hfew : values.length < n * (n + 1)
      · refine .inr ⟨fun m h => ?_, _, ?_, ofText_of_few hwords hsize hpos hfew⟩
        · obtain ⟨hm, -, henough⟩ := laid_cons_iff.mp h
          obtain rfl : n = m := Int.ofNat_inj.mp (Option.some.inj (hsize.symm.trans hm))
          omega
        · rcases Nat.lt_or_ge Numeral.maxDigits (Decimal.digits (n * (n + 1))).length with
            hlong | hshort
          · rw [tooFew, Fault.showing_of_long hlong]
            exact .unwritable hsize hpos hfew hlong
          · rw [tooFew, Fault.showing_of_short hshort]
            exact .tooFew hsize hpos hfew hshort
      · exact .inl ⟨n, laid_cons_iff.mpr ⟨hsize, hpos, by omega⟩⟩

/-! ## Reading it -/

/-- The values of a text that lays out a system, and the warning of those that are left over. -/
theorem ofText_of_laid (h : Laid (words text) n) (tolerance : Double) :
    ∃ values : List (List Char), (words text).length = values.length + 1 ∧
      (∀ k, valueAt? (words text) (k + 1) =
        values[k]?.map fun word => readValue (String.ofList word)) ∧
      n * (n + 1) ≤ values.length ∧
      ofText text tolerance =
        ((do
          let rows ← (pieces (n + 1) n values).mapM fun row =>
            row.mapM fun word => readValue (String.ofList word)
          ofRows n rows tolerance),
          if 0 < values.length - n * (n + 1) then [surplusRecord (values.length - n * (n + 1))]
          else []) := by
  obtain ⟨first, values, hwords⟩ := exists_cons_of_laid h
  rw [hwords] at h
  obtain ⟨hsize, hpos, henough⟩ := laid_cons_iff.mp h
  refine ⟨values, by rw [hwords, List.length_cons], ?_, henough,
    ofText_of_cons hwords hsize hpos henough⟩
  intro k
  rw [hwords]
  rfl

/-- Values cut into rows are the terms of a system, row by row. -/
theorem ofRows_pieces_ok_iff {f : List Char → Except Fault (Complex Double)} {s : SizedSystem}
    (hpos : 1 ≤ s.size) (henough : s.size * (s.size + 1) ≤ values.length) :
    ((pieces (s.size + 1) s.size values).mapM (·.mapM f) >>= fun rows =>
        ofRows s.size rows tolerance) = .ok s ↔
      s.system.tolerance = tolerance ∧ ∀ (i : Fin s.size) (j : Fin (s.size + 1)),
        values[i * (s.size + 1) + j.val]?.map f = some (.ok (s.system.term i j)) := by
  have hrows : (pieces (s.size + 1) s.size values).mapM (·.mapM f) =
        .ok (s.system.rows.toList.map Vector.toList) ↔
      ∀ (i : Fin s.size) (j : Fin (s.size + 1)),
        values[i * (s.size + 1) + j.val]?.map f = some (.ok (s.system.term i j)) := by
    rw [mapM_rows_ok_iff, length_pieces]
    simp only [cellAt?_pieces (Fin.isLt _) (Fin.isLt _), Option.map_eq_some_iff]
    exact ⟨fun h => h.2.2, fun h => ⟨trivial, length_of_mem_pieces henough, h⟩⟩
  rw [← hrows, andThen_ok]
  simp only [ofRows_ok_iff]
  constructor
  · rintro ⟨rows, hread, -, -, htolerance, rfl⟩
    exact ⟨htolerance, hread⟩
  · rintro ⟨htolerance, hread⟩
    exact ⟨_, hread, hpos, trivial, htolerance, rfl⟩

/-- The system that a text lays out has the values of the words as its terms, row by row. -/
theorem ofText_ok_iff {s : SizedSystem} :
    (ofText text tolerance).1 = .ok s ↔ s.system.tolerance = tolerance ∧
      Laid (words text) s.size ∧ ∀ (i : Fin s.size) (j : Fin (s.size + 1)),
        valueAt? (words text) (i * (s.size + 1) + j + 1) = some (.ok (s.system.term i j)) := by
  constructor
  · intro h
    rcases laid_or_refused text tolerance with ⟨n, hlaid⟩ | ⟨-, e, -, hrefused⟩
    · obtain ⟨values, -, hvalues, henough, htext⟩ := ofText_of_laid hlaid tolerance
      rw [htext] at h
      obtain rfl : n = s.size := by
        obtain ⟨rows, -, hrows⟩ := andThen_ok.mp h
        obtain ⟨-, hsize, -⟩ := ofRows_ok_iff.mp hrows
        omega
      obtain ⟨htolerance, hterms⟩ := (ofRows_pieces_ok_iff hlaid.pos henough).mp h
      refine ⟨htolerance, hlaid, fun i j => ?_⟩
      rw [hvalues, hterms]
    · rw [hrefused] at h
      cases h
  · rintro ⟨htolerance, hlaid, hterms⟩
    obtain ⟨values, -, hvalues, henough, htext⟩ := ofText_of_laid hlaid tolerance
    rw [htext]
    refine (ofRows_pieces_ok_iff hlaid.pos henough).mpr ⟨htolerance, fun i j => ?_⟩
    rw [← hvalues, hterms]

/-- A text that lays out a system is refused for the first value that cannot be read. -/
theorem ofText_err_iff_of_laid {e : Fault} (h : Laid (words text) n) :
    (ofText text tolerance).1 = .error e ↔ ∃ k < n * (n + 1),
      valueAt? (words text) (k + 1) = some (.error e) ∧
        ∀ l < k, ∃ a, valueAt? (words text) (l + 1) = some (.ok a) := by
  obtain ⟨values, -, hvalues, henough, htext⟩ := ofText_of_laid h tolerance
  have hpos : 1 ≤ n := h.pos
  -- the rows that are read have the right number and length
  have hshape {rows : List (List (Complex Double))}
      (hrows : ((pieces (n + 1) n values).mapM fun row =>
        row.mapM fun word => readValue (String.ofList word)) = .ok rows) :
      ofRows n rows tolerance ≠ .error e := by
    obtain ⟨grid, rfl⟩ := exists_vectors_of_mapM (length_pieces _ _ _)
      (length_of_mem_pieces henough) hrows
    have hok : ofRows n (grid.toList.map Vector.toList) tolerance = .ok ⟨n, tolerance, grid⟩ :=
      ofRows_ok_iff.mpr ⟨hpos, rfl, rfl, rfl⟩
    rw [hok]
    exact nofun
  have hfault : (ofText text tolerance).1 = .error e ↔
      ((values.take (n * (n + 1))).mapM fun word => readValue (String.ofList word)) = .error e := by
    rw [htext, andThen_err, mapM_rows_err_iff, flatten_pieces]
    exact or_iff_left fun ⟨rows, hrows, hofRows⟩ => hshape hrows hofRows
  rw [hfault, mapM_err_iff]
  simp only [hvalues, Option.map_eq_some_iff, List.getElem?_take, Option.ite_none_right_eq_some]
  constructor
  · rintro ⟨k, ⟨word, ⟨hk, hword⟩, hbad⟩, hbefore⟩
    refine ⟨k, hk, ⟨word, hword, hbad⟩, fun l hl => ?_⟩
    obtain ⟨word, ⟨-, hword⟩, a, ha⟩ := hbefore l hl
    exact ⟨a, word, hword, ha⟩
  · rintro ⟨k, hk, ⟨word, hword, hbad⟩, hbefore⟩
    refine ⟨k, ⟨word, ⟨hk, hword⟩, hbad⟩, fun l hl => ?_⟩
    obtain ⟨a, word, hword, ha⟩ := hbefore l hl
    exact ⟨word, ⟨Nat.lt_trans hl hk, hword⟩, a, ha⟩

/-- A text that is not accepted is refused for the first thing that is wrong with it. -/
theorem ofText_err_iff {e : Fault} :
    (ofText text tolerance).1 = .error e ↔ FirstFault (words text) e := by
  constructor
  · intro h
    rcases laid_or_refused text tolerance with ⟨n, hlaid⟩ | ⟨-, e', hfirst, hrefused⟩
    · obtain ⟨k, hk, hbad, hbefore⟩ := (ofText_err_iff_of_laid hlaid).mp h
      exact .value hlaid hk hbad hbefore
    · rw [hrefused] at h
      cases h
      exact hfirst
  · generalize hwords : words text = ws
    intro h
    cases h with
    | empty => rw [ofText, hwords]
    | notInteger hsize =>
      rw [ofText, hwords]
      dsimp only
      rw [hsize]
    | belowOne hsize hone =>
      rw [ofText, hwords]
      dsimp only
      rw [hsize]
      dsimp only
      rw [if_pos hone]
    | tooFew hsize hpos hfew hshort =>
      rw [ofText_of_few hwords hsize hpos hfew, tooFew, Fault.showing_of_short hshort]
    | unwritable hsize hpos hfew hlong =>
      rw [ofText_of_few hwords hsize hpos hfew, tooFew, Fault.showing_of_long hlong]
    | value hlaid hk hbad hbefore =>
      subst hwords
      exact (ofText_err_iff_of_laid hlaid).mpr ⟨_, hk, hbad, hbefore⟩

theorem exists_ofText_iff :
    (∃ s, (ofText text tolerance).1 = .ok s) ↔ ∃ n, Laid (words text) n ∧
      ∀ k < n * (n + 1), ∃ a, valueAt? (words text) (k + 1) = some (.ok a) := by
  constructor
  · rintro ⟨s, h⟩
    obtain ⟨-, hlaid, hterms⟩ := ofText_ok_iff.mp h
    refine ⟨s.size, hlaid, fun k hk => ?_⟩
    have hrow : k / (s.size + 1) < s.size := by rwa [Nat.div_lt_iff_lt_mul (by omega)]
    have hcolumn : k % (s.size + 1) < s.size + 1 := Nat.mod_lt _ (by omega)
    have hterm := hterms ⟨_, hrow⟩ ⟨_, hcolumn⟩
    rw [Nat.div_add_mod'] at hterm
    exact ⟨_, hterm⟩
  · rintro ⟨n, hlaid, hvalues⟩
    cases h : (ofText text tolerance).1 with
    | ok s => exact ⟨s, rfl⟩
    | error e =>
      obtain ⟨k, hk, hbad, -⟩ := (ofText_err_iff_of_laid hlaid).mp h
      obtain ⟨a, ha⟩ := hvalues k hk
      cases hbad.symm.trans ha

/-! ## What is left over -/

theorem mem_ofText_log_iff {r : Record} :
    r ∈ (ofText text tolerance).2 ↔ ∃ n count, Laid (words text) n ∧ 0 < count ∧
      (words text).length = 1 + n * (n + 1) + count ∧ r = surplusRecord count := by
  rcases laid_or_refused text tolerance with ⟨n, hlaid⟩ | ⟨hnot, e, -, hrefused⟩
  · obtain ⟨values, hlength, -, henough, htext⟩ := ofText_of_laid hlaid tolerance
    rw [htext]
    constructor
    · intro hr
      dsimp only at hr
      split at hr
      · rename_i hsurplus
        exact ⟨n, _, hlaid, hsurplus, by omega, List.mem_singleton.mp hr⟩
      · cases hr
    · rintro ⟨n', count, hlaid', hcount, hsum, rfl⟩
      obtain rfl := hlaid.unique hlaid'
      obtain rfl : count = values.length - n * (n + 1) := by omega
      rw [if_pos hcount]
      exact List.mem_singleton_self _
  · rw [hrefused]
    constructor
    · intro hr
      cases hr
    · rintro ⟨n, -, hlaid, -⟩
      exact absurd hlaid (hnot n)

theorem Laid.append {ws : List (List Char)} (h : Laid ws n) (more : List (List Char)) :
    Laid (ws ++ more) n := by
  obtain ⟨first, values, rfl⟩ := exists_cons_of_laid h
  obtain ⟨hsize, hpos, henough⟩ := laid_cons_iff.mp h
  rw [List.cons_append]
  refine laid_cons_iff.mpr ⟨hsize, hpos, ?_⟩
  rw [List.length_append]
  omega

theorem valueAt?_append {ws : List (List Char)} {k : Nat} {r : Except Fault (Complex Double)}
    (h : valueAt? ws k = some r) (more : List (List Char)) : valueAt? (ws ++ more) k = some r := by
  obtain ⟨word, hword, hr⟩ := Option.map_eq_some_iff.mp h
  refine Option.map_eq_some_iff.mpr ⟨word, ?_, hr⟩
  obtain ⟨hk, -⟩ := List.getElem?_eq_some_iff.mp hword
  rw [List.getElem?_append_left hk, hword]

/-- Words behind the values of an accepted text do not count. -/
theorem ofText_append_ok {s : SizedSystem} {longer : List Char} {more : List (List Char)}
    (h : (ofText text tolerance).1 = .ok s) (hwords : words longer = words text ++ more) :
    (ofText longer tolerance).1 = .ok s := by
  obtain ⟨htolerance, hlaid, hterms⟩ := ofText_ok_iff.mp h
  refine ofText_ok_iff.mpr ⟨htolerance, ?_, fun i j => ?_⟩
  · rw [hwords]
    exact hlaid.append more
  · rw [hwords]
    exact valueAt?_append (hterms i j) more

theorem length_ofText_log (text : List Char) (tolerance : Double) :
    (ofText text tolerance).2.length ≤ 1 := by
  rcases laid_or_refused text tolerance with ⟨n, hlaid⟩ | ⟨-, e, -, hrefused⟩
  · obtain ⟨values, -, -, -, htext⟩ := ofText_of_laid hlaid tolerance
    rw [htext]
    dsimp only
    split
    · exact Nat.le_refl 1
    · exact Nat.zero_le 1
  · rw [hrefused]
    exact Nat.zero_le 1

/-- What reading a text comes to. It is accepted exactly if its words begin with a size `n` of at
least one and `n (n + 1)` words that can be read; these are the terms, row by row. Words behind them
change nothing but the warning, which counts them. Any other text has the fault of the first thing
that is wrong with it. -/
theorem ofText_layout (text : List Char) (tolerance : Double) :
    ((∃ s, (ofText text tolerance).1 = .ok s) ↔ ∃ n, Laid (words text) n ∧
      ∀ k < n * (n + 1), ∃ a, valueAt? (words text) (k + 1) = some (.ok a)) ∧
    (∀ s, (ofText text tolerance).1 = .ok s ↔ s.system.tolerance = tolerance ∧
      Laid (words text) s.size ∧ ∀ (i : Fin s.size) (j : Fin (s.size + 1)),
        valueAt? (words text) (i * (s.size + 1) + j + 1) = some (.ok (s.system.term i j))) ∧
    (∀ s longer more, (ofText text tolerance).1 = .ok s → words longer = words text ++ more →
      (ofText longer tolerance).1 = .ok s) ∧
    (∀ r, r ∈ (ofText text tolerance).2 ↔ ∃ n count, Laid (words text) n ∧ 0 < count ∧
      (words text).length = 1 + n * (n + 1) + count ∧ r = surplusRecord count) ∧
    (ofText text tolerance).2.length ≤ 1 ∧
    ∀ e, (ofText text tolerance).1 = .error e ↔ FirstFault (words text) e := by
  refine ⟨exists_ofText_iff, fun s => ofText_ok_iff, fun s longer more h hwords => ?_,
    fun r => mem_ofText_log_iff, length_ofText_log text tolerance, fun e => ofText_err_iff⟩
  exact ofText_append_ok h hwords

/-- A size with 2151 digits. -/
def hugeSize : Nat := Nat.pow 10 2150

theorem hugeSize_eq : ∃ k, 0 < k ∧ Numeral.maxDigits = k + k ∧ hugeSize = Nat.pow 10 k := by
  have hpos : 0 < 2150 := by decide
  have hdouble : Numeral.maxDigits = 2150 + 2150 := rfl
  unfold hugeSize
  generalize 2150 = k at hpos hdouble ⊢
  exact ⟨k, hpos, hdouble, rfl⟩

/-- A text of this size alone has too few values, but their number has 4301 digits. So the message
that would say so cannot be written, and the text has another fault. -/
theorem ofText_hugeSize :
    words (Decimal.digits hugeSize) = [Decimal.digits hugeSize] ∧
      readInteger? (Decimal.digits hugeSize) = some (hugeSize : Int) ∧ 1 ≤ hugeSize ∧
      ∀ tolerance, (ofText (Decimal.digits hugeSize) tolerance).1 = .error .longInteger := by
  obtain ⟨k, hk, hdouble, hsize⟩ := hugeSize_eq
  rw [Nat.pow_eq] at hsize
  generalize hugeSize = n at hsize ⊢
  have hwords := words_of_word (Decimal.isWord_digits n)
  have hpos : 1 ≤ n := by
    rw [hsize]
    exact Nat.pow_pos (by decide)
  have hshort : (Decimal.digits n).length ≤ Numeral.maxDigits := by
    refine (Nat.length_toDigits_le_iff (by decide) (by omega)).mpr ?_
    rw [hsize, hdouble]
    exact Nat.pow_lt_pow_right (by decide) (by omega)
  have hlong : Numeral.maxDigits < (Decimal.digits (n * (n + 1))).length := by
    refine Nat.lt_of_not_le fun hle => ?_
    rw [hdouble] at hle
    have hlt := (Nat.length_toDigits_le_iff (by decide) (by omega)).mp hle
    rw [Nat.pow_add, ← hsize, Nat.mul_succ] at hlt
    omega
  have hread := readInteger?_digits hshort
  refine ⟨hwords, hread, hpos, fun tolerance => ?_⟩
  rw [ofText_of_few hwords hread hpos (Nat.mul_pos hpos (Nat.succ_pos _)), tooFew,
    Fault.showing_of_long hlong]

end SizedSystem

end GaussJordan
