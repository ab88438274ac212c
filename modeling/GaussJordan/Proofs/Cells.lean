import GaussJordan.Proofs.Layout
import GaussJordan.Proofs.Overflow
import GaussJordan.Proofs.TokenReading

/-!
# GaussJordan.Proofs.Cells

Systems from rows of JSON values.

* `CellValue cell a`: the value of a cell. `CellFault cell e`: why another cell has none. Every cell
  has the one or the other (`cellValue_ok_iff`, `cellValue_err_iff`).
* `build_cells`: rows make up a system exactly if there are as many as the size says, each with one
  cell more than that, and every cell has a value. The first cell without a value is the fault of
  all others.
* An infinite number is the value of its cell, and an integer beyond the finite numbers and one that
  no message can show have faults of their own. Rows without these, `Tame` ones, make up a system of
  finite numbers, or the size or the shape is what is wrong with them.
-/

namespace GaussJordan

open SizedSystem (cellValue)

/-! ## Integers -/

namespace Double

theorem ofUnits_of_representable {s : Bool} {u : Nat} (h : Representable u) :
    ofUnits s u 1 = .finite s u h := by
  simp only [ofUnits, roundToBits_of_fits h.2, dif_pos h.1]

theorem ofInt_zero : ofInt 0 = zero := by
  rw [ofInt, ofRatio, Int.natAbs_zero, Nat.zero_mul, ofUnits_of_representable representable_zero]
  rfl

theorem ofInt_one : ofInt 1 = one := by
  rw [ofInt, ofRatio, Int.natAbs_one, Nat.one_mul, ofUnits_of_representable representable_one]
  rfl

theorem isInfinite_ofInt (i : Int) : (ofInt i).isInfinite = !(ofInt i).isFinite := by
  simp only [ofInt, ofRatio, ofUnits]
  split
  · rfl
  · rfl

end Double

theorem Operand.integerToDouble_eq (i : Int) :
    integerToDouble i =
      if (Double.ofInt i).isFinite then .ok (.ofInt i) else .error .integerTooLarge := by
  simp only [integerToDouble, Double.isInfinite_ofInt]
  cases (Double.ofInt i).isFinite
  · rfl
  · rfl

/-! ## Cells -/

/-- A value that is neither a number nor a text. -/
inductive Json.Foreign : Json → Prop where
  | null : Foreign .null
  | array (items : List Json) : Foreign (.array items)
  | object (fields : List (String × Json)) : Foreign (.object fields)

/-- The value of a cell. -/
inductive CellValue : Json → Complex Double → Prop where
  | bool (b : Bool) : CellValue (.bool b) (if b then .one else .zero)
  | integer {i : Int} : (Double.ofInt i).isFinite = true →
      CellValue (.integer i) (.ofReal (.ofInt i))
  | real (x : Double) : CellValue (.real x) (.ofReal x)
  | string {token : String} {a : Complex Double} : readValue token = .ok a →
      CellValue (.string token) a

/-- The fault of a cell that has no value. -/
inductive CellFault : Json → Fault → Prop where
  | integer {i : Int} : (Double.ofInt i).isFinite = false →
      CellFault (.integer i) .integerTooLarge
  | string {token : String} {e : Fault} : readValue token = .error e → CellFault (.string token) e
  | notNumber {cell : Json} : cell.Foreign →
      (Decimal.digits cell.largestInteger).length ≤ Numeral.maxDigits →
      CellFault cell (.malformed (.notNumber cell.display))
  /-- The value has an integer in it that is too long to be written. -/
  | unwritable {cell : Json} : cell.Foreign →
      Numeral.maxDigits < (Decimal.digits cell.largestInteger).length →
      CellFault cell .longInteger

theorem cellValue_of_foreign {cell : Json} (h : cell.Foreign) :
    cellValue cell =
      .error (.showing cell.largestInteger (.malformed (.notNumber cell.display))) := by
  cases h with
  | null => rfl
  | array items => rfl
  | object fields => rfl

theorem cellValue_integer (i : Int) :
    cellValue (.integer i) =
      if (Double.ofInt i).isFinite then .ok (.ofReal (.ofInt i)) else .error .integerTooLarge := by
  change (Operand.integerToDouble i >>= fun x => pure (Complex.ofReal x)) = _
  rw [Operand.integerToDouble_eq]
  split
  · rfl
  · rfl

theorem cellValue_bool (b : Bool) : cellValue (.bool b) = .ok (if b then .one else .zero) := by
  cases b with
  | false =>
    change cellValue (.integer 0) = _
    rw [cellValue_integer, Double.ofInt_zero]
    rfl
  | true =>
    change cellValue (.integer 1) = _
    rw [cellValue_integer, Double.ofInt_one]
    rfl

/-- Every cell has a value or a fault. -/
theorem cellValue_cases (cell : Json) :
    (∃ a, cellValue cell = .ok a ∧ CellValue cell a) ∨
      ∃ e, cellValue cell = .error e ∧ CellFault cell e := by
  have hforeign {cell : Json} (h : cell.Foreign) :
      ∃ e, cellValue cell = .error e ∧ CellFault cell e := by
    rw [cellValue_of_foreign h]
    rcases Nat.lt_or_ge Numeral.maxDigits (Decimal.digits cell.largestInteger).length with
      hlong | hshort
    · exact ⟨_, congrArg _ (Fault.showing_of_long hlong), .unwritable h hlong⟩
    · exact ⟨_, congrArg _ (Fault.showing_of_short hshort), .notNumber h hshort⟩
  cases cell with
  | null => exact .inr (hforeign .null)
  | bool b => exact .inl ⟨_, cellValue_bool b, .bool b⟩
  | integer i =>
    rw [cellValue_integer]
    cases hfinite : (Double.ofInt i).isFinite with
    | true => exact .inl ⟨_, rfl, .integer hfinite⟩
    | false => exact .inr ⟨_, rfl, .integer hfinite⟩
  | real x => exact .inl ⟨_, rfl, .real x⟩
  | string token =>
    cases hread : readValue token with
    | ok a => exact .inl ⟨a, hread, .string hread⟩
    | error e => exact .inr ⟨e, hread, .string hread⟩
  | array items => exact .inr (hforeign (.array items))
  | object fields => exact .inr (hforeign (.object fields))

theorem cellValue_ok_iff {cell : Json} {a : Complex Double} :
    cellValue cell = .ok a ↔ CellValue cell a := by
  constructor
  · intro h
    rcases cellValue_cases cell with ⟨b, hb, hvalue⟩ | ⟨e, he, -⟩
    · cases h.symm.trans hb
      exact hvalue
    · cases h.symm.trans he
  · intro h
    cases h with
    | bool b => exact cellValue_bool b
    | integer hfinite => rw [cellValue_integer, if_pos hfinite]
    | real x => rfl
    | string hread => exact hread

theorem cellValue_err_iff {cell : Json} {e : Fault} :
    cellValue cell = .error e ↔ CellFault cell e := by
  constructor
  · intro h
    rcases cellValue_cases cell with ⟨a, ha, -⟩ | ⟨e', he', hfault⟩
    · cases h.symm.trans ha
    · cases h.symm.trans he'
      exact hfault
  · intro h
    cases h with
    | integer hinfinite =>
      rw [cellValue_integer, hinfinite]
      rfl
    | string hread => exact hread
    | notNumber hforeign hshort => rw [cellValue_of_foreign hforeign, Fault.showing_of_short hshort]
    | unwritable hforeign hlong => rw [cellValue_of_foreign hforeign, Fault.showing_of_long hlong]

theorem Complex.isFinite_ofReal {x : Double} : (ofReal x).IsFinite ↔ x.isFinite = true :=
  ⟨fun h => h.re, fun h => ⟨h, rfl⟩⟩

/-- Only a cell that is an infinity or a NaN itself has such a value. -/
theorem CellValue.isFinite_iff {cell : Json} {a : Complex Double} (h : CellValue cell a) :
    a.IsFinite ↔ ∀ x, cell = .real x → x.isFinite = true := by
  cases h with
  | bool b =>
    refine iff_of_true ?_ fun x hx => by cases hx
    cases b
    · exact ⟨rfl, rfl⟩
    · exact ⟨rfl, rfl⟩
  | integer hfinite =>
    exact iff_of_true (Complex.isFinite_ofReal.mpr hfinite) fun x hx => by cases hx
  | real x =>
    rw [Complex.isFinite_ofReal]
    constructor
    · rintro hfinite _ ⟨⟩
      exact hfinite
    · intro h
      exact h x rfl
  | @string token a hread =>
    refine iff_of_true ?_ fun x hx => by cases hx
    have houtcome := outcome_readValue token
    rw [hread] at houtcome
    cases houtcome with
    | valued _ hre him => exact ⟨hre, him⟩

/-- The cell is not an infinity, a NaN or an integer beyond the finite numbers, and has no integer
in it that is too long to be written. -/
def Json.Tame : Json → Prop
  | .integer i => (Double.ofInt i).isFinite = true
  | .real x => x.isFinite = true
  | cell => (Decimal.digits cell.largestInteger).length ≤ Numeral.maxDigits

theorem CellFault.malformed {cell : Json} {e : Fault} (h : CellFault cell e) (htame : cell.Tame) :
    ∃ cause, e = .malformed cause := by
  cases h with
  | integer hinfinite => cases hinfinite.symm.trans htame
  | @string token e hread =>
    have houtcome := outcome_readValue token
    rw [hread] at houtcome
    cases houtcome
    all_goals exact ⟨_, rfl⟩
  | notNumber hforeign hshort => exact ⟨_, rfl⟩
  | unwritable hforeign hlong =>
    have hshort : (Decimal.digits cell.largestInteger).length ≤ Numeral.maxDigits := by
      cases hforeign
      all_goals exact htame
    omega

/-! ## Rows -/

/-- The first cell that has no value, row by row, has the fault `e`. -/
def CellsFault (rows : List (List Json)) (e : Fault) : Prop :=
  ∃ k : Nat, (∃ cell, rows.flatten[k]? = some cell ∧ CellFault cell e) ∧
    ∀ l < k, ∃ cell, rows.flatten[l]? = some cell ∧ ∃ a, CellValue cell a

theorem mapM_cells_err_iff {rows : List (List Json)} {e : Fault} :
    rows.mapM (·.mapM cellValue) = .error e ↔ CellsFault rows e := by
  rw [mapM_rows_err_iff, mapM_err_iff]
  simp only [cellValue_err_iff, cellValue_ok_iff, CellsFault]

namespace SizedSystem

variable {size : Int} {rows : List (List Json)} {tolerance : Double}

theorem build_eq (size : Int) (rows : List (List Json)) (tolerance : Double) :
    build size (rows.map .array) tolerance =
      (rows.mapM (·.mapM cellValue) >>= fun values => ofRows size values tolerance) := by
  rw [build, List.mapM_map]
  rfl

/-- A system has the values of its cells as terms, row by row. -/
theorem build_ok_iff {s : SizedSystem} :
    build size (rows.map .array) tolerance = .ok s ↔
      1 ≤ s.size ∧ size = s.size ∧ s.system.tolerance = tolerance ∧ rows.length = s.size ∧
        (∀ row ∈ rows, row.length = s.size + 1) ∧
        ∀ (i : Fin s.size) (j : Fin (s.size + 1)),
          ∃ cell, cellAt? rows i j = some cell ∧ CellValue cell (s.system.term i j) := by
  have hvalues : rows.mapM (·.mapM cellValue) = .ok (s.system.rows.toList.map Vector.toList) ↔
      rows.length = s.size ∧ (∀ row ∈ rows, row.length = s.size + 1) ∧
        ∀ (i : Fin s.size) (j : Fin (s.size + 1)),
          ∃ cell, cellAt? rows i j = some cell ∧ CellValue cell (s.system.term i j) := by
    simp only [mapM_rows_ok_iff, cellValue_ok_iff]
    rfl
  rw [build_eq, ← hvalues, andThen_ok]
  simp only [ofRows_ok_iff]
  constructor
  · rintro ⟨values, hread, hpos, hsize, htolerance, rfl⟩
    exact ⟨hpos, hsize, htolerance, hread⟩
  · rintro ⟨hpos, hsize, htolerance, hread⟩
    exact ⟨_, hread, hpos, hsize, htolerance, rfl⟩

theorem exists_build_iff :
    (∃ s, build size (rows.map .array) tolerance = .ok s) ↔
      1 ≤ size ∧ rows.length = size ∧ (∀ row ∈ rows, row.length = size + 1) ∧
        ∀ row ∈ rows, ∀ cell ∈ row, ∃ a, CellValue cell a := by
  constructor
  · rintro ⟨s, h⟩
    obtain ⟨hpos, hsize, -, hlength, hwidth, -⟩ := build_ok_iff.mp h
    refine ⟨by omega, by omega, fun row hrow => ?_, fun row hrow cell hcell => ?_⟩
    · rw [hwidth row hrow, hsize, Int.natCast_succ]
    · rw [build_eq, andThen_ok] at h
      obtain ⟨values, hvalues, -⟩ := h
      obtain ⟨as, hrow⟩ := mapM_ok hvalues row hrow
      obtain ⟨a, ha⟩ := mapM_ok hrow cell hcell
      exact ⟨a, cellValue_ok_iff.mp ha⟩
  · rintro ⟨hpos, hlength, hwidth, hcells⟩
    obtain ⟨n, rfl⟩ : ∃ n : Nat, size = n := ⟨size.toNat, by omega⟩
    have hwidth (row : List Json) (hrow : row ∈ rows) : row.length = n + 1 := by
      have := hwidth row hrow
      omega
    cases hread : rows.mapM (·.mapM cellValue) with
    | error e =>
      obtain ⟨row, hrow, hfault⟩ := mapM_err hread
      obtain ⟨cell, hcell, hfault⟩ := mapM_err hfault
      obtain ⟨a, ha⟩ := hcells row hrow cell hcell
      cases hfault.symm.trans (cellValue_ok_iff.mpr ha)
    | ok values =>
      obtain ⟨grid, rfl⟩ := exists_vectors_of_mapM (Int.ofNat_inj.mp hlength) hwidth hread
      refine ⟨⟨n, tolerance, grid⟩, ?_⟩
      rw [build_eq, andThen_ok]
      exact ⟨_, hread, ofRows_ok_iff.mpr ⟨Int.ofNat_le.mp hpos, rfl, rfl, rfl⟩⟩

/-- A system has an infinity or a NaN exactly if one of its cells is one. -/
theorem isFinite_iff_of_build {s : SizedSystem}
    (h : build size (rows.map .array) tolerance = .ok s) :
    s.system.IsFinite ↔ ∀ row ∈ rows, ∀ x, .real x ∈ row → x.isFinite = true := by
  obtain ⟨-, -, -, hlength, hwidth, hcells⟩ := build_ok_iff.mp h
  constructor
  · intro hfinite row hrow x hx
    obtain ⟨i, hi, rfl⟩ := List.getElem_of_mem hrow
    obtain ⟨j, hj, hcell⟩ := List.getElem_of_mem hx
    obtain ⟨cell, hat, hvalue⟩ := hcells ⟨i, by omega⟩ ⟨j, by rw [← hwidth _ hrow]; exact hj⟩
    have hx : cellAt? rows i j = some (.real x) := by
      rw [cellAt?, List.getElem?_eq_getElem hi, Option.bind_some, List.getElem?_eq_getElem hj,
        hcell]
    cases hat.symm.trans hx
    exact hvalue.isFinite_iff.mp (hfinite _ _) x rfl
  · intro hreal i j
    obtain ⟨cell, hat, hvalue⟩ := hcells i j
    refine hvalue.isFinite_iff.mpr ?_
    rintro x rfl
    obtain ⟨row, hrow, hx⟩ := Option.bind_eq_some_iff.mp hat
    exact hreal row (List.mem_of_getElem? hrow) x (List.mem_of_getElem? hx)

/-- Rows are refused for their first cell without a value, for the size, or for their shape. A size
that is too long to be written has a fault of its own. -/
theorem build_err {e : Fault} (h : build size (rows.map .array) tolerance = .error e) :
    CellsFault rows e ∨ (size < 1 ∧ e = .invalidSize size) ∨ (∃ cause, e = .malformed cause) ∨
      (Numeral.maxDigits < (Decimal.digits size.natAbs).length ∧ e = .longInteger) := by
  rw [build_eq] at h
  rcases andThen_err.mp h with hcells | ⟨values, -, h⟩
  · exact .inl (mapM_cells_err_iff.mp hcells)
  refine .inr ?_
  rcases Nat.lt_or_ge Numeral.maxDigits (Decimal.digits size.natAbs).length with hlong | hshort
  · rcases ofRows_err h with ⟨-, rfl⟩ | ⟨cause, rfl | rfl⟩
    · exact .inr (.inr ⟨hlong, Fault.showing_of_long hlong⟩)
    · exact .inr (.inl ⟨cause, rfl⟩)
    · exact .inr (.inr ⟨hlong, Fault.showing_of_long hlong⟩)
  · rcases ofRows_err h with ⟨hsize, rfl⟩ | ⟨cause, rfl | rfl⟩
    · exact .inl ⟨hsize, Fault.showing_of_short hshort⟩
    · exact .inr (.inl ⟨cause, rfl⟩)
    · exact .inr (.inl ⟨cause, Fault.showing_of_short hshort⟩)

/-- What rows of JSON values come to. They make up a system exactly if there are as many as the size
says, at least one, each with one cell more than that, and every cell has a value; these are the
terms. An infinite cell makes the system infinite. All other rows are refused, for the first cell
without a value before anything else. If no cell is an infinite number, an integer beyond the finite
numbers or a value with an integer too long to be written, and the size is not too long either, then
the system is finite, or else the rows are malformed or the size is below one. -/
theorem build_cells (size : Int) (rows : List (List Json)) (tolerance : Double) :
    ((∃ s, build size (rows.map .array) tolerance = .ok s) ↔
      1 ≤ size ∧ rows.length = size ∧ (∀ row ∈ rows, row.length = size + 1) ∧
        ∀ row ∈ rows, ∀ cell ∈ row, ∃ a, CellValue cell a) ∧
    (∀ s, build size (rows.map .array) tolerance = .ok s ↔
      1 ≤ s.size ∧ size = s.size ∧ s.system.tolerance = tolerance ∧ rows.length = s.size ∧
        (∀ row ∈ rows, row.length = s.size + 1) ∧
        ∀ (i : Fin s.size) (j : Fin (s.size + 1)),
          ∃ cell, cellAt? rows i j = some cell ∧ CellValue cell (s.system.term i j)) ∧
    (∀ s, build size (rows.map .array) tolerance = .ok s →
      (s.system.IsFinite ↔ ∀ row ∈ rows, ∀ x, .real x ∈ row → x.isFinite = true)) ∧
    (∀ e, CellsFault rows e → build size (rows.map .array) tolerance = .error e) ∧
    (∀ e, build size (rows.map .array) tolerance = .error e →
      CellsFault rows e ∨ (size < 1 ∧ e = .invalidSize size) ∨ (∃ cause, e = .malformed cause) ∨
        (Numeral.maxDigits < (Decimal.digits size.natAbs).length ∧ e = .longInteger)) ∧
    ((Decimal.digits size.natAbs).length ≤ Numeral.maxDigits →
      (∀ row ∈ rows, ∀ cell ∈ row, cell.Tame) →
      (∃ s, build size (rows.map .array) tolerance = .ok s ∧ s.system.IsFinite) ∨
        ∃ e, build size (rows.map .array) tolerance = .error e ∧
          ((size < 1 ∧ e = .invalidSize size) ∨ ∃ cause, e = .malformed cause)) := by
  refine ⟨exists_build_iff, fun s => build_ok_iff, fun s => isFinite_iff_of_build,
    fun e hfault => ?_, fun e => build_err, fun hshort htame => ?_⟩
  · rw [build_eq, andThen_err]
    exact .inl (mapM_cells_err_iff.mpr hfault)
  · cases hbuild : build size (rows.map .array) tolerance with
    | ok s =>
      refine .inl ⟨s, rfl, (isFinite_iff_of_build hbuild).mpr fun row hrow x hx => ?_⟩
      exact htame row hrow _ hx
    | error e =>
      refine .inr ⟨e, rfl, ?_⟩
      rcases build_err hbuild with ⟨k, ⟨cell, hcell, hfault⟩, -⟩ | hsize | hcause | ⟨hlong, -⟩
      · obtain ⟨row, hrow, hmem⟩ := List.mem_flatten.mp (List.mem_of_getElem? hcell)
        exact .inr (hfault.malformed (htame row hrow cell hmem))
      · exact .inl hsize
      · exact .inr hcause
      · omega

/-- An integer above all finite numbers. -/
def hugeInteger : Int := Nat.pow 10 400

/-- A cell of this integer is not malformed, and an infinite number is taken over. -/
theorem build_infinite :
    build 1 [.array [.integer hugeInteger, .integer 1]] defaultTolerance =
        .error .integerTooLarge ∧
      ∃ s, build 1 [.array [.real (.infinite false), .integer 1]] defaultTolerance = .ok s ∧
        ¬s.system.IsFinite := by
  have hhuge : (Double.ofInt hugeInteger).isFinite = false := by decide +kernel
  have hone : (Double.ofInt 1).isFinite = true := by
    rw [Double.ofInt_one]
    rfl
  constructor
  · refine (build_eq 1 [[.integer hugeInteger, .integer 1]] _).trans (andThen_err.mpr (.inl ?_))
    exact mapM_cells_err_iff.mpr ⟨0, ⟨_, rfl, .integer hhuge⟩, fun l hl => absurd hl (by omega)⟩
  · obtain ⟨s, hs⟩ : ∃ s, build 1 ([[.real (.infinite false), .integer 1]].map .array)
        defaultTolerance = .ok s := by
      refine exists_build_iff.mpr ⟨by decide, rfl, by simp, fun row hrow cell hcell => ?_⟩
      rw [List.mem_singleton] at hrow
      subst hrow
      rcases List.mem_pair.mp hcell with rfl | rfl
      · exact ⟨_, .real _⟩
      · exact ⟨_, .integer hone⟩
    refine ⟨s, hs, fun hfinite => ?_⟩
    cases (isFinite_iff_of_build hs).mp hfinite _ (.head _) (.infinite false) (.head _)

end SizedSystem

end GaussJordan
