import GaussJordan.Proofs.Texts
import GaussJordan.System.Reading

/-!
# GaussJordan.Proofs.Grids

Grids and the lists of rows that they are made from.

* `Grid.ofRows_ok_iff`: the rows of a grid, one after the other, are the only rows it is made from.
  `Grid.ofRows_err` lists the faults of the others.
* `mapM_rows_ok_iff`: rows of values come from rows of the same shape, cell by cell.
-/

namespace GaussJordan

variable {β γ ε : Type} {n m : Nat}

/-! ## Messages with an integer -/

theorem Fault.showing_of_short {n : Nat} {fault : Fault}
    (h : (Decimal.digits n).length ≤ Numeral.maxDigits) : showing n fault = fault :=
  if_neg (Nat.not_lt.mpr h)

theorem Fault.showing_of_long {n : Nat} {fault : Fault}
    (h : Numeral.maxDigits < (Decimal.digits n).length) : showing n fault = .longInteger :=
  if_pos h

/-! ## Vectors and lists -/

theorem toVector?_eq_some_iff {xs : List β} {v : Vector β n} :
    toVector? n xs = some v ↔ xs = v.toList := by
  rw [toVector?]
  split
  · rename_i h
    rw [Option.some.injEq]
    constructor
    · rintro rfl
      rfl
    · rintro rfl
      rfl
  · rename_i h
    constructor
    · intro hnone
      cases hnone
    · rintro rfl
      exact absurd v.length_toList h

theorem toVector?_toList (v : Vector β n) : toVector? n v.toList = some v :=
  toVector?_eq_some_iff.mpr rfl

theorem toVector?_eq_none_iff {xs : List β} : toVector? n xs = none ↔ xs.length ≠ n := by
  rw [toVector?]
  split
  · simp [*]
  · simp [*]

theorem mapM_toList_ok_iff {f : γ → Except ε β} {xs : List γ} {v : Vector β n} :
    xs.mapM f = .ok v.toList ↔
      xs.length = n ∧ ∀ i : Fin n, ∃ x, xs[i.val]? = some x ∧ f x = .ok (v.get i) := by
  rw [mapM_ok_iff, List.forall₂_iff_get]
  constructor
  · rintro ⟨hlength, h⟩
    refine ⟨hlength.trans v.length_toList, fun i => ?_⟩
    have hi : i.val < v.toList.length := by simp
    refine ⟨xs[i.val], List.getElem?_eq_getElem (hlength ▸ hi), ?_⟩
    change f xs[i.val] = .ok v[i.val]
    simpa using h i (hlength ▸ hi) hi
  · rintro ⟨hlength, h⟩
    refine ⟨hlength.trans v.length_toList.symm, fun i hi hi' => ?_⟩
    obtain ⟨x, hx, hfx⟩ := h ⟨i, by simpa using hi'⟩
    rw [List.getElem?_eq_getElem hi, Option.some.injEq] at hx
    subst hx
    change f xs[i] = .ok v[i] at hfx
    simpa using hfx

/-- The cell in a row and a column, both counted from zero. -/
def cellAt? (rows : List (List β)) (i j : Nat) : Option β := rows[i]?.bind (·[j]?)

theorem mapM_rows_ok_iff {f : γ → Except ε β} {rows : List (List γ)}
    {grid : Vector (Vector β m) n} :
    rows.mapM (·.mapM f) = .ok (grid.toList.map Vector.toList) ↔
      rows.length = n ∧ (∀ row ∈ rows, row.length = m) ∧
        ∀ (i : Fin n) (j : Fin m),
          ∃ x, cellAt? rows i j = some x ∧ f x = .ok ((grid.get i).get j) := by
  have hlists : grid.toList.map Vector.toList = (grid.map Vector.toList).toList :=
    Vector.toList_map.symm
  have hrow (i : Fin n) : (grid.map Vector.toList).get i = (grid.get i).toList :=
    Vector.getElem_map _ _
  rw [hlists, mapM_toList_ok_iff]
  simp only [hrow, mapM_toList_ok_iff]
  refine and_congr_right fun hlength => ⟨fun h => ⟨fun row hrow => ?_, fun i j => ?_⟩, ?_⟩
  · obtain ⟨i, hi, rfl⟩ := List.getElem_of_mem hrow
    obtain ⟨row, hget, hwidth, -⟩ := h ⟨i, hlength ▸ hi⟩
    rw [List.getElem?_eq_getElem hi] at hget
    cases hget
    exact hwidth
  · obtain ⟨row, hget, -, hvalues⟩ := h i
    obtain ⟨x, hx, hfx⟩ := hvalues j
    exact ⟨x, by rw [cellAt?, hget, Option.bind_some, hx], hfx⟩
  · rintro ⟨hwidth, hvalues⟩ i
    have hi : i.val < rows.length := hlength ▸ i.isLt
    refine ⟨rows[i.val], List.getElem?_eq_getElem hi, hwidth _ (List.getElem_mem hi), fun j => ?_⟩
    obtain ⟨x, hx, hfx⟩ := hvalues i j
    rw [cellAt?, List.getElem?_eq_getElem hi, Option.bind_some] at hx
    exact ⟨x, hx, hfx⟩

/-- Rows of one width make up a grid. -/
theorem exists_vectors {rows : List (List β)} (hlength : rows.length = n)
    (hwidth : ∀ row ∈ rows, row.length = m) :
    ∃ grid : Vector (Vector β m) n, rows = grid.toList.map Vector.toList := by
  refine ⟨Vector.ofFn fun i => ⟨(rows.get (i.cast hlength.symm)).toArray, ?_⟩, ?_⟩
  · simpa using hwidth _ (List.getElem_mem _)
  · refine List.ext_getElem (by simpa using hlength) fun i hi hi' => ?_
    simp [Vector.toList]

theorem exists_vectors_of_mapM {f : γ → Except ε β} {rows : List (List γ)} {out : List (List β)}
    (hlength : rows.length = n) (hwidth : ∀ row ∈ rows, row.length = m)
    (h : rows.mapM (·.mapM f) = .ok out) :
    ∃ grid : Vector (Vector β m) n, out = grid.toList.map Vector.toList := by
  refine exists_vectors ((mapM_ok_iff.mp h).length_eq.symm.trans hlength) fun cells hcells => ?_
  have hwidths : out.map List.length = rows.map List.length :=
    mapM_map h fun row cells hrow => (mapM_ok_iff.mp hrow).length_eq.symm
  have hmem : cells.length ∈ rows.map List.length := hwidths ▸ List.mem_map_of_mem hcells
  obtain ⟨row, hrow, heq⟩ := List.mem_map.mp hmem
  rw [← heq, hwidth row hrow]

/-! ## Grids -/

namespace Grid

theorem sizedRows_ok_iff {number : Nat} {rows : List (List β)} {vs : List (Vector β (n + 1))} :
    sizedRows n number rows = .ok vs ↔ rows = vs.map Vector.toList := by
  induction rows generalizing number vs with
  | nil =>
    rw [sizedRows, Except.ok.injEq, eq_comm, eq_comm (a := []), List.map_eq_nil_iff]
  | cons row rows ih =>
    rw [sizedRows]
    cases hrow : toVector? (n + 1) row with
    | none =>
      simp only [reduceCtorEq, false_iff]
      rintro h
      obtain ⟨v, vs, rfl⟩ : ∃ v vs', vs = v :: vs' := by
        cases vs with
        | nil => cases h
        | cons v vs => exact ⟨v, vs, rfl⟩
      rw [toVector?_eq_none_iff, (List.cons.inj h).1] at hrow
      exact hrow v.length_toList
    | some cells =>
      rw [toVector?_eq_some_iff] at hrow
      subst hrow
      rw [andThen_ok]
      constructor
      · rintro ⟨vs', hvs, h⟩
        cases h
        rw [ih.mp hvs, List.map_cons]
      · intro h
        cases vs with
        | nil => cases h
        | cons v vs =>
          obtain ⟨hv, hvs⟩ := List.cons.inj h
          obtain rfl := Vector.toList_inj.mp hv
          exact ⟨vs, ih.mpr hvs, rfl⟩

theorem sizedRows_err {number : Nat} {rows : List (List β)} {e : Fault}
    (h : sizedRows n number rows = .error e) : ∃ cause, e = .malformed cause := by
  induction rows generalizing number with
  | nil => cases h
  | cons row rows ih =>
    rw [sizedRows] at h
    split at h
    · cases h
      exact ⟨_, rfl⟩
    · rcases andThen_err.mp h with hrest | ⟨vs, _, h⟩
      · exact ih hrest
      · cases h

theorem checkRow_of_le {row : List β} (h : 2 ≤ row.length) : checkRow row = .ok row := by
  rw [checkRow, if_neg (by omega)]

theorem bind_checkRow_ok {row : Except Fault (List β)} {cells : List β}
    (h : row.bind checkRow = .ok cells) : row = .ok cells := by
  obtain ⟨given, rfl, hcheck⟩ := andThen_ok.mp h
  rw [checkRow] at hcheck
  split at hcheck
  · cases hcheck
  · cases hcheck
    rfl

theorem bind_checkRow_err {row : Except Fault (List β)} {e : Fault}
    (h : row.bind checkRow = .error e) : row = .error e ∨ ∃ cause, e = .malformed cause := by
  rcases andThen_err.mp h with hrow | ⟨given, rfl, hcheck⟩
  · exact .inl hrow
  · rw [checkRow] at hcheck
    split at hcheck
    · cases hcheck
      exact .inr ⟨_, rfl⟩
    · cases hcheck

variable {size : Int} {rows : List (Except Fault (List β))}

theorem ofRows_ok {grid : Grid β} (h : ofRows size rows = .ok grid) :
    1 ≤ grid.size ∧ size = grid.size ∧ rows = grid.rows.toList.map fun row => .ok row.toList := by
  rw [ofRows] at h
  split at h
  · cases h
  rename_i hsize
  obtain ⟨checked, hchecked, h⟩ := andThen_ok.mp h
  have hrows : rows = checked.map .ok := by
    have heq := (mapM_ok_iff.mp hchecked).imp fun _ _ => bind_checkRow_ok
    rwa [← List.forall₂_map_right_iff, List.forall₂_eq_eq_eq] at heq
  dsimp only at h
  split at h
  · cases h
  obtain ⟨sized, hsized, h⟩ := andThen_ok.mp h
  split at h
  · rename_i v hv
    cases h
    rw [toVector?_eq_some_iff] at hv
    rw [sizedRows_ok_iff, hv] at hsized
    refine ⟨by dsimp only; omega, by dsimp only; omega, ?_⟩
    rw [hrows, hsized, List.map_map]
    rfl
  · cases h

/-- The rows of a grid pass every check. -/
theorem ofRows_rows {n : Nat} (hpos : 1 ≤ n) (v : Vector (Vector β (n + 1)) n) :
    ofRows n (v.toList.map fun row => .ok row.toList) = .ok ⟨n, v⟩ := by
  have hsize : ¬(n : Int) < 1 := by omega
  have hchecked : ((v.toList.map fun row => Except.ok row.toList).mapM fun row =>
      row.bind checkRow) = Except.ok (v.toList.map Vector.toList) := by
    rw [List.mapM_map]
    refine mapM_of_ok fun row _ => checkRow_of_le ?_
    rw [Vector.length_toList]
    omega
  have hcount : (toVector? n (v.toList.map Vector.toList)).isSome = true := by
    rw [← Vector.toList_map, toVector?_toList]
    rfl
  obtain ⟨counted, hcounted⟩ := Option.isSome_iff_exists.mp hcount
  have hsized : sizedRows n 1 (v.toList.map Vector.toList) = .ok v.toList :=
    sizedRows_ok_iff.mpr rfl
  rw [ofRows, if_neg hsize]
  refine andThen_ok.mpr ⟨_, hchecked, ?_⟩
  rw [Int.toNat_natCast]
  dsimp only
  rw [hcounted]
  refine andThen_ok.mpr ⟨_, hsized, ?_⟩
  rw [toVector?_toList]
  rfl

/-- A grid is made from its own rows, and from nothing else. -/
theorem ofRows_ok_iff {grid : Grid β} :
    ofRows size rows = .ok grid ↔ 1 ≤ grid.size ∧ size = grid.size ∧
      rows = grid.rows.toList.map fun row => .ok row.toList := by
  refine ⟨ofRows_ok, ?_⟩
  rintro ⟨hpos, rfl, rfl⟩
  exact ofRows_rows hpos grid.rows

/-- What rows that make up no grid are refused for. -/
theorem ofRows_err {e : Fault} (h : ofRows size rows = .error e) :
    (size < 1 ∧ e = .showing size.natAbs (.invalidSize size)) ∨ (∃ row ∈ rows, row = .error e) ∨
      ∃ cause, e = .malformed cause ∨ e = .showing size.natAbs (.malformed cause) := by
  rw [ofRows] at h
  split at h
  · rename_i hsize
    cases h
    exact .inl ⟨hsize, rfl⟩
  refine .inr ?_
  rcases andThen_err.mp h with hchecked | ⟨checked, hchecked, h⟩
  · obtain ⟨row, hrow, hfault⟩ := mapM_err hchecked
    rcases bind_checkRow_err hfault with hown | ⟨cause, hcause⟩
    · exact .inl ⟨row, hrow, hown⟩
    · exact .inr ⟨cause, .inl hcause⟩
  dsimp only at h
  split at h
  · cases h
    exact .inr ⟨_, .inr rfl⟩
  rcases andThen_err.mp h with hsized | ⟨sized, hsized, h⟩
  · obtain ⟨cause, hcause⟩ := sizedRows_err hsized
    exact .inr ⟨cause, .inl hcause⟩
  · split at h
    · cases h
    · cases h
      exact .inr ⟨_, .inr rfl⟩

end Grid

namespace SizedSystem

variable {size : Int} {rows : List (List (Complex Double))} {tolerance : Double}

theorem ofRows_ok_iff {s : SizedSystem} :
    ofRows size rows tolerance = .ok s ↔ 1 ≤ s.size ∧ size = s.size ∧
      s.system.tolerance = tolerance ∧ rows = s.system.rows.toList.map Vector.toList := by
  have hinj : Function.Injective (Except.ok : List (Complex Double) → Except Fault _) :=
    fun _ _ => Except.ok.inj
  have hrows (g : Grid (Complex Double)) :
      rows.map Except.ok = (g.rows.toList.map fun row => (.ok row.toList : Except Fault _)) ↔
        rows = g.rows.toList.map Vector.toList := by
    rw [← (List.map_injective_iff.mpr hinj).eq_iff, List.map_map]
    rfl
  rw [ofRows, andThen_ok]
  simp only [Grid.ofRows_ok_iff, hrows]
  constructor
  · rintro ⟨g, ⟨hpos, hsize, hg⟩, h⟩
    cases h
    exact ⟨hpos, hsize, rfl, hg⟩
  · rintro ⟨hpos, hsize, rfl, hg⟩
    exact ⟨⟨s.size, s.system.rows⟩, ⟨hpos, hsize, hg⟩, rfl⟩

theorem ofRows_err {e : Fault} (h : ofRows size rows tolerance = .error e) :
    (size < 1 ∧ e = .showing size.natAbs (.invalidSize size)) ∨
      ∃ cause, e = .malformed cause ∨ e = .showing size.natAbs (.malformed cause) := by
  rcases andThen_err.mp h with hgrid | ⟨grid, _, h⟩
  · rcases Grid.ofRows_err hgrid with hsize | ⟨row, hrow, hfault⟩ | hcause
    · exact .inl hsize
    · obtain ⟨cells, -, rfl⟩ := List.mem_map.mp hrow
      cases hfault
    · exact .inr hcause
  · cases h

end SizedSystem

end GaussJordan
