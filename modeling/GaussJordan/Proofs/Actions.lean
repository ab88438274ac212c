import GaussJordan.Workspace
import Mathlib.Data.List.Forall2
import Mathlib.Data.List.Nodup

/-!
# GaussJordan.Proofs.Actions

What the actions on a workspace do to a system that is kept there.

Rows are shared: a system holds the numbers of its rows, and an action on a row shows in every
system that holds its number. So what is said of a system is said of its rows.

* `HasRow w k r`: the row number `k` has the terms `r`.
* `Stores w number rows m`: the system of that number is `m`. Its rows have the numbers `rows`, no
  two of which are the same.
* `exchangeColumns_ok`, `swapRows_ok`, `multiplyRow_ok`, …: an action ends well, and the system is
  what it should be.
-/

namespace GaussJordan

namespace Workspace

variable {β γ : Type} {n : Nat} {w w' : Workspace}

/-! ## Parts of an action -/

theorem bind_of_ok {x : Action β} {f : β → Action γ} {b : β} (h : x w = .ok b w') :
    (x >>= f) w = f b w' := by
  simp only [bind, EStateM.bind, h]

theorem bind_of_error {x : Action β} {f : β → Action γ} {e : Fault} (h : x w = .error e w') :
    (x >>= f) w = .error e w' := by
  simp only [bind, EStateM.bind, h]

theorem get_bind (f : Workspace → Action γ) (w : Workspace) : (get >>= f) w = f w w := rfl

theorem lift_ok {x : Except Fault β} {b : β} (h : x = .ok b) (w : Workspace) :
    lift x w = .ok b w := by
  rw [h]
  rfl

theorem lift_error {x : Except Fault β} {e : Fault} (h : x = .error e) (w : Workspace) :
    lift x w = .error e w := by
  rw [h]
  rfl

theorem named_ok {names : List (String × β)} {name : String} {b : β}
    (h : Json.find? name names = some b) (w : Workspace) : named names name w = .ok b w := by
  rw [named, h]
  rfl

theorem kept_ok {all : Array β} {number : Nat} {b : β} (h : all[number]? = some b)
    (w : Workspace) : kept all number w = .ok b w := by
  rw [kept, h]
  rfl

/-- An action at each entry of a vector is one at each entry of the list. -/
theorem vector_mapM_ok {f : β → Action γ} {xs : Vector β n} {ys : Vector γ n}
    (h : xs.toList.mapM f w = .ok ys.toList w') : xs.mapM f w = .ok ys w' := by
  have hlist := congrFun (@Vector.toArray_mapM Action β γ n _ _ f xs) w
  rw [Array.mapM_eq_mapM_toList] at hlist
  change EStateM.map Vector.toArray (xs.mapM f) w =
    EStateM.map List.toArray (xs.toList.mapM f) w at hlist
  simp only [EStateM.map, h] at hlist
  cases hx : xs.mapM f w with
  | ok zs w'' =>
    rw [hx] at hlist
    simp only [EStateM.Result.ok.injEq] at hlist
    obtain ⟨harray, rfl⟩ := hlist
    obtain rfl : zs = ys := Vector.toArray_inj.mp (harray.trans Array.toArray_toList)
    rfl
  | error e w'' =>
    rw [hx] at hlist
    cases hlist

theorem get_ofFn (f : Fin n → β) (i : Fin n) : (Vector.ofFn f).get i = f i := by
  change (Vector.ofFn f)[i] = f i
  simp

theorem list_mapM_ok {f : β → Action γ} {xs : List β} {ys : List γ}
    (h : List.Forall₂ (fun x y => f x w = .ok y w) xs ys) : xs.mapM f w = .ok ys w := by
  induction h with
  | nil => rfl
  | cons hx _ ih =>
    rw [List.mapM_cons, bind_of_ok hx, bind_of_ok ih]
    rfl

/-- An action at each entry that changes nothing. -/
theorem vector_mapM_const {f : β → Action γ} {xs : Vector β n} {ys : Vector γ n}
    (h : ∀ i, f (xs.get i) w = .ok (ys.get i) w) : xs.mapM f w = .ok ys w := by
  refine vector_mapM_ok (list_mapM_ok ?_)
  rw [List.forall₂_iff_get]
  refine ⟨by simp, fun i hx hy => ?_⟩
  have hi : i < n := by simpa using hx
  exact h ⟨i, hi⟩

/-! ## New cells -/

theorem list_newCells_ok (values : List (Complex Double)) (w : Workspace) :
    ∃ cells next, values.mapM newCell w = .ok cells { w with nextIdentity := next } ∧
      cells.map (·.value) = values := by
  induction values generalizing w with
  | nil => exact ⟨[], w.nextIdentity, rfl, rfl⟩
  | cons value values ih =>
    obtain ⟨cells, next, hcells, hvalues⟩ := ih { w with nextIdentity := w.nextIdentity + 1 }
    refine ⟨⟨value, w.nextIdentity⟩ :: cells, next, ?_, by rw [List.map_cons, hvalues]⟩
    have hnew : newCell value w =
        .ok ⟨value, w.nextIdentity⟩ { w with nextIdentity := w.nextIdentity + 1 } := rfl
    rw [List.mapM_cons, bind_of_ok hnew, bind_of_ok hcells]
    rfl

theorem newCells_ok (values : Vector (Complex Double) n) (w : Workspace) :
    ∃ (cells : Vector Cell n) (next : Nat),
      newCells values w = .ok cells { w with nextIdentity := next } ∧
      cells.map (·.value) = values := by
  obtain ⟨cells, next, hcells, hvalues⟩ := list_newCells_ok values.toList w
  have hlength : cells.length = n := by
    rw [← List.length_map (f := (·.value)), hvalues, Vector.length_toList]
  refine ⟨⟨cells.toArray, by simpa using hlength⟩, next, vector_mapM_ok hcells, ?_⟩
  apply Vector.toList_inj.mp
  simpa using hvalues

/-! ## Rows -/

/-- The row of that number has the given terms. -/
def HasRow (w : Workspace) (k : Nat) (r : Row Double n) : Prop :=
  ∃ cells : Vector Cell (n + 1), w.rows[k]? = some ⟨n, cells⟩ ∧ cells.map (·.value) = r

theorem HasRow.lt {k : Nat} {r : Row Double n} (h : w.HasRow k r) : k < w.rows.size := by
  obtain ⟨cells, hcells, _⟩ := h
  exact (Array.getElem?_eq_some_iff.mp hcells).1

/-- Rows of other numbers stay when a row is put in its place. -/
theorem HasRow.setRow_of_ne {k l : Nat} {r : Row Double n} {row : SharedRow} (h : w.HasRow k r)
    (hkl : l ≠ k) : HasRow { w with rows := w.rows.setIfInBounds l row } k r := by
  obtain ⟨cells, hcells, hr⟩ := h
  refine ⟨cells, ?_, hr⟩
  rw [Array.getElem?_setIfInBounds_ne hkl]
  exact hcells

theorem HasRow.setRow_self {k : Nat} (hk : k < w.rows.size) (cells : Vector Cell (n + 1)) :
    HasRow { w with rows := w.rows.setIfInBounds k ⟨n, cells⟩ } k (cells.map (·.value)) := by
  refine ⟨cells, ?_, rfl⟩
  rw [Array.getElem?_setIfInBounds_self_of_lt hk]

theorem HasRow.push {k : Nat} {r : Row Double n} (h : w.HasRow k r) (row : SharedRow) :
    HasRow { w with rows := w.rows.push row } k r := by
  obtain ⟨cells, hcells, hr⟩ := h
  refine ⟨cells, ?_, hr⟩
  have hlt := (Array.getElem?_eq_some_iff.mp hcells).1
  rw [Array.getElem?_push_lt hlt, ← hcells, Array.getElem?_eq_getElem hlt]

theorem HasRow.push_self (w : Workspace) (cells : Vector Cell (n + 1)) :
    HasRow { w with rows := w.rows.push ⟨n, cells⟩ } w.rows.size (cells.map (·.value)) :=
  ⟨cells, Array.getElem?_push_size, rfl⟩

/-- A row is what is kept under its number. -/
theorem HasRow.congr {k : Nat} {r : Row Double n} (h : w.HasRow k r) (hrows : w'.rows = w.rows) :
    w'.HasRow k r := by
  obtain ⟨cells, hcells, hr⟩ := h
  exact ⟨cells, by rw [hrows]; exact hcells, hr⟩

theorem HasRow.unique {k : Nat} {r s : Row Double n} (hr : w.HasRow k r) (hs : w.HasRow k s) :
    r = s := by
  obtain ⟨cells, hcells, rfl⟩ := hr
  obtain ⟨cells', hcells', rfl⟩ := hs
  obtain rfl : cells = cells' := by
    simpa using Option.some.inj (hcells.symm.trans hcells')
  rfl

/-- The action puts a row in the place of that number, and with that makes `f r` of a row `r`. -/
def Rewrites (x : Action Unit) (k : Nat) (f : Row Double n → Row Double n) : Prop :=
  ∀ (w : Workspace) (r : Row Double n), w.HasRow k r → ∃ row next,
    x w = .ok () { w with rows := w.rows.setIfInBounds k row, nextIdentity := next } ∧
    HasRow { w with rows := w.rows.setIfInBounds k row } k (f r)

/-- Actions on different rows: each of these rows is rewritten as by its action alone, and the other
rows stay. -/
theorem forM_rewrites {ι : Type} {x : ι → Action Unit} (place : ι → Nat)
    {f : ι → Row Double n → Row Double n} (xs : List ι) (hnodup : (xs.map place).Nodup)
    (hx : ∀ i ∈ xs, Rewrites (x i) (place i) (f i))
    (hrows : ∀ i ∈ xs, ∃ r : Row Double n, w.HasRow (place i) r) :
    ∃ all next, xs.forM x w = .ok () { w with rows := all, nextIdentity := next } ∧
      (∀ i ∈ xs, ∀ r, w.HasRow (place i) r → HasRow { w with rows := all } (place i) (f i r)) ∧
      ∀ k, k ∉ xs.map place → ∀ r : Row Double n, w.HasRow k r →
        HasRow { w with rows := all } k r := by
  induction xs generalizing w with
  | nil => exact ⟨w.rows, w.nextIdentity, rfl, by simp, fun _ _ _ h => h⟩
  | cons i xs ih =>
    obtain ⟨hi, hnodup⟩ := List.nodup_cons.mp hnodup
    obtain ⟨r, hr⟩ := hrows i (by simp)
    obtain ⟨row, next, hrun, hself⟩ := hx i (by simp) w r hr
    let w₁ : Workspace :=
      { w with rows := w.rows.setIfInBounds (place i) row, nextIdentity := next }
    -- what the first action leaves of the other rows
    have hkeep : ∀ k, k ≠ place i → ∀ s : Row Double n, w.HasRow k s → w₁.HasRow k s :=
      fun k hk s hs => (hs.setRow_of_ne (Ne.symm hk)).congr rfl
    have hother : ∀ j ∈ xs, place j ≠ place i := fun j hj he =>
      hi (he ▸ List.mem_map_of_mem hj)
    obtain ⟨all, next', hrest, hin, hout⟩ := ih (w := w₁) hnodup
      (fun j hj => hx j (List.mem_cons_of_mem i hj)) (fun j hj => by
        obtain ⟨s, hs⟩ := hrows j (List.mem_cons_of_mem i hj)
        exact ⟨s, hkeep _ (hother j hj) s hs⟩)
    refine ⟨all, next', (bind_of_ok hrun).trans hrest, fun j hj s hs => ?_, fun k hk s hs => ?_⟩
    · rcases List.mem_cons.mp hj with rfl | hj
      · rw [hs.unique hr]
        exact (hout _ hi _ (hself.congr rfl)).congr rfl
      · exact (hin j hj s (hkeep _ (hother j hj) s hs)).congr rfl
    · rw [List.map_cons, List.mem_cons, not_or] at hk
      exact (hout k hk.2 s (hkeep k hk.1 s hs)).congr rfl

/-! ## Systems -/

/-- The system of that number is `m`. Its rows have the numbers `rows`, each row its own. -/
structure Stores (w : Workspace) (number : Nat) (rows : Vector Nat n) (m : System Double n) :
    Prop where
  system : w.systems[number]? = some ⟨n, m.tolerance, rows⟩
  distinct : Function.Injective rows.get
  row : ∀ i, w.HasRow (rows.get i) (m.row i)

namespace Stores

variable {number : Nat} {rows : Vector Nat n} {m : System Double n}

/-- A system is what its rows are. -/
theorem congr (h : w.Stores number rows m) (hrows : w'.rows = w.rows)
    (hsystems : w'.systems = w.systems) : w'.Stores number rows m := by
  refine ⟨?_, h.distinct, fun i => (h.row i).congr hrows⟩
  rw [hsystems]
  exact h.system

theorem exists_hasRow (h : w.Stores number rows m) :
    ∀ k ∈ rows.toList, ∃ r : Row Double n, w.HasRow k r := by
  intro k hk
  obtain ⟨l, hl, rfl⟩ := Vector.getElem_of_mem (Vector.mem_toList_iff.mp hk)
  exact ⟨_, h.row ⟨l, hl⟩⟩

theorem push (h : w.Stores number rows m) (row : SharedRow) :
    Stores { w with rows := w.rows.push row } number rows m :=
  ⟨h.system, h.distinct, fun i => (h.row i).push row⟩

theorem view_ok (h : w.Stores number rows m) : view ⟨n, m.tolerance, rows⟩ w = .ok m w := by
  choose cells hcells hvalues using h.row
  have hrows : systemRows ⟨n, m.tolerance, rows⟩ w =
      .ok (Vector.ofFn fun i => ⟨n, cells i⟩) w := by
    refine vector_mapM_const fun i => ?_
    change kept w.rows (rows.get i) w = _
    rw [kept_ok (hcells i)]
    exact congrArg (EStateM.Result.ok · w) (get_ofFn (fun i => (⟨n, cells i⟩ : SharedRow)) i).symm
  rw [view, bind_of_ok hrows]
  refine bind_of_ok (vector_mapM_const (fun i => ?_) : _ = EStateM.Result.ok m.rows w) |>.trans ?_
  · have hterms : toVector? (n + 1) ((cells i).map (·.value)).toList = some (m.row i) := by
      rw [← hvalues i, toVector?, dif_pos (by simp)]
      rfl
    rw [get_ofFn]
    dsimp only [SharedRow.values]
    rw [hterms]
    rfl
  · rfl

theorem systemAt_ok (h : w.Stores number rows m) :
    systemAt number w = .ok ⟨n, m.tolerance, rows⟩ w :=
  kept_ok h.system w

theorem viewNamed_ok (h : w.Stores number rows m) {name : String}
    (hname : Json.find? name w.systemNames = some number) :
    viewNamed name w = .ok ⟨n, m⟩ w := by
  have hnumber : systemNumber name w = .ok number w := named_ok hname w
  rw [viewNamed, bind_of_ok hnumber, bind_of_ok h.systemAt_ok, bind_of_ok h.view_ok]
  rfl

/-- A row of the system is replaced. -/
theorem setRow (h : w.Stores number rows m) (i : Fin n) (cells : Vector Cell (n + 1)) :
    Stores { w with rows := w.rows.setIfInBounds (rows.get i) ⟨n, cells⟩ } number rows
      (m.setRow i (cells.map (·.value))) := by
  refine ⟨h.system, h.distinct, fun k => ?_⟩
  rw [System.row_setRow]
  by_cases hk : i = k
  · rw [if_pos hk, ← hk]
    exact HasRow.setRow_self (h.row i).lt _
  · rw [if_neg hk]
    exact (h.row k).setRow_of_ne fun he => hk (h.distinct he)

end Stores

/-! ## New systems -/

theorem list_addRows_ok (rows : List (Vector Cell (n + 1))) (w : Workspace) :
    rows.mapM (fun cells => addRow ⟨n, cells⟩) w =
      .ok (List.range' w.rows.size rows.length)
        { w with rows := w.rows ++ (rows.map fun cells => (⟨n, cells⟩ : SharedRow)).toArray } := by
  induction rows generalizing w with
  | nil => simp [pure, EStateM.pure]
  | cons cells rows ih =>
    have hadd : addRow ⟨n, cells⟩ w =
        .ok w.rows.size { w with rows := w.rows.push ⟨n, cells⟩ } := rfl
    rw [List.mapM_cons, bind_of_ok hadd, bind_of_ok (ih _), Array.size_push, List.length_cons,
      List.range'_succ]
    simp [pure, EStateM.pure]

/-- A new system is stored with its terms, in rows of its own. -/
theorem addSystem_ok (name : String) (grid : Grid Cell) (tolerance : Double) (w : Workspace) :
    ∃ (rows : Vector Nat grid.size) (w' : Workspace),
      addSystem name grid tolerance w = .ok ⟨grid.size, tolerance, rows⟩ w' ∧
      Json.find? name w'.systemNames = some w.systems.size ∧
      w'.Stores w.systems.size rows
        ⟨tolerance, grid.rows.map fun cells => cells.map (·.value)⟩ := by
  let numbers : Vector Nat grid.size := ⟨(List.range' w.rows.size grid.size).toArray, by simp⟩
  have hnumbers : ∀ i, numbers.get i = w.rows.size + i := by
    intro i
    change numbers[i] = w.rows.size + i
    simp [numbers]
  have hadd : (grid.rows.mapM fun cells => addRow ⟨grid.size, cells⟩) w = .ok numbers
      { w with
        rows := w.rows ++ (grid.rows.toList.map fun cells =>
          (⟨grid.size, cells⟩ : SharedRow)).toArray } := by
    refine vector_mapM_ok ?_
    rw [list_addRows_ok, Vector.length_toList]
    rfl
  refine ⟨numbers, _, bind_of_ok hadd, Json.find?_put_self _ _ _, ?_, fun i j hij => ?_,
    fun i => ⟨grid.rows[i], ?_, ?_⟩⟩
  · simp
  · rw [hnumbers, hnumbers] at hij
    exact Fin.ext (by omega)
  · rw [hnumbers]
    simp
  · simp [System.row]

variable {number : Nat} {rows : Vector Nat n} {m : System Double n} {name slot other : String}

/-! ## Exchanges -/

theorem get_swap (xs : Vector β n) (i j k : Fin n) :
    (xs.swap i j i.isLt j.isLt).get k = xs.get (exchanged i j k) := by
  change (xs.swap i j i.isLt j.isLt)[k] = xs[exchanged i j k]
  simp only [Fin.getElem_fin, Vector.getElem_swap, exchanged, Fin.ext_iff]
  split
  · rfl
  · split <;> rfl

theorem exchanged_involutive (i j : Fin n) : Function.Involutive (exchanged i j) := by
  intro k
  simp only [exchanged]
  split <;> split <;> simp_all

theorem nodup_toList {rows : Vector Nat n} (h : Function.Injective rows.get) :
    rows.toList.Nodup := by
  rw [List.nodup_iff_injective_get]
  intro a b hab
  have hcast : a.cast rows.length_toList = b.cast rows.length_toList := by
    apply h
    change rows[a.cast rows.length_toList] = rows[b.cast rows.length_toList]
    simpa using hab
  exact Fin.ext (Fin.mk.inj hcast)

theorem index?_number (i : Fin n) : index? n (Operation.number i) = some i := by
  have hi := i.isLt
  rw [index?, dif_pos (by simp only [Operation.number]; omega)]
  simp [Operation.number]

theorem rowIndex_number (i : Fin n) : rowIndex n (Operation.number i) = .ok i := by
  rw [rowIndex, index?_number]
  rfl

theorem columnIndex_of_some {i : Int} {j : Fin n} (h : index? n i = some j) :
    columnIndex n i = .ok j := by
  rw [columnIndex, h]
  rfl

theorem columnIndex_of_none {i : Int} (h : index? n i = none) :
    columnIndex n i = .error (.columnIndex i) := by
  rw [columnIndex, h]
  rfl

theorem columnIndex_number (i : Fin n) : columnIndex n (Operation.number i) = .ok i :=
  columnIndex_of_some (index?_number i)

/-- Two terms of the row of that number change places. -/
def exchangeTerms (i j : Fin n) (k : Nat) : Action Unit := do
  let row ← rowAt k
  if h : row.size = n then
    Workspace.setRow k { row with cells := row.cells.swap i j (by omega) (by omega) }

theorem exchangeTerms_rewrites (i j : Fin n) (k : Nat) :
    Rewrites (exchangeTerms i j k) k fun r : Row Double n => r.swapTerms i j := by
  rintro w _ ⟨cells, hcells, rfl⟩
  have hrow : rowAt k w = .ok ⟨n, cells⟩ w := kept_ok hcells w
  refine ⟨⟨n, cells.swap i j⟩, w.nextIdentity, ?_, ?_⟩
  · rw [exchangeTerms, bind_of_ok hrow, dif_pos rfl]
    rfl
  · have hswap : (cells.swap i j).map (·.value) =
        Row.swapTerms (cells.map (·.value)) i j := by
      apply Vector.ext
      intro l hl
      simp only [Row.swapTerms, Vector.getElem_map, Vector.getElem_swap, Fin.val_castSucc]
      split
      · rfl
      · split <;> rfl
    have hself := HasRow.setRow_self (Array.getElem?_eq_some_iff.mp hcells).1 (cells.swap i j)
    rw [hswap] at hself
    exact hself

theorem exchangeColumns_ok (h : w.Stores number rows m) (i j : Fin n) :
    ∃ all next, exchangeColumns number (Operation.number i) (Operation.number j) w =
        .ok () { w with rows := all, nextIdentity := next } ∧
      Stores { w with rows := all } number rows (m.swapColumns i j) := by
  have hnodup : (rows.toList.map id).Nodup := by
    rw [List.map_id]
    exact nodup_toList h.distinct
  obtain ⟨all, next, hrun, hin, _⟩ := forM_rewrites id rows.toList hnodup
    (fun k _ => exchangeTerms_rewrites i j k) h.exists_hasRow
  refine ⟨all, next, ?_, h.system, h.distinct, fun l => ?_⟩
  · rw [exchangeColumns, bind_of_ok h.systemAt_ok, bind_of_ok (lift_ok (columnIndex_number i) w),
      bind_of_ok (lift_ok (columnIndex_number j) w)]
    exact hrun
  · rw [System.row_swapColumns]
    exact hin _ (Vector.mem_toList_iff.mpr (Vector.getElem_mem l.isLt)) _ (h.row l)

theorem swapRows_ok (h : w.Stores number rows m)
    (hname : Json.find? name w.systemNames = some number) (i j : Fin n) :
    ∃ systems, swapRows name (Operation.number i) (Operation.number j) w =
        .ok ⟨n, m.swapRows i j⟩ { w with systems := systems } ∧
      Stores { w with systems := systems } number (rows.swap i j i.isLt j.isLt)
        (m.swapRows i j) := by
  have hnumber : systemNumber name w = .ok number w := named_ok hname w
  have hlt : number < w.systems.size := (Array.getElem?_eq_some_iff.mp h.system).1
  let s : SharedSystem := ⟨n, m.tolerance, rows.swap i j i.isLt j.isLt⟩
  have hstores : Stores { w with systems := w.systems.setIfInBounds number s } number
      (rows.swap i j i.isLt j.isLt) (m.swapRows i j) := by
    refine ⟨Array.getElem?_setIfInBounds_self_of_lt hlt, fun k l hkl => ?_, fun k => ?_⟩
    · rw [get_swap, get_swap] at hkl
      exact (exchanged_involutive i j).injective (h.distinct hkl)
    · have hrow : (m.swapRows i j).row k = m.row (exchanged i j k) := get_swap m.rows i j k
      rw [get_swap, hrow]
      exact h.row _
  refine ⟨_, ?_, hstores⟩
  rw [swapRows, bind_of_ok hnumber, bind_of_ok h.systemAt_ok,
    bind_of_ok (lift_ok (rowIndex_number i) w), bind_of_ok (lift_ok (rowIndex_number j) w)]
  exact hstores.viewNamed_ok hname

/-! ## Operations on rows -/

theorem rowOf_ok (h : w.Stores number rows m)
    (hname : Json.find? name w.systemNames = some number) (slot : String) (i : Fin n) :
    ∃ row, rowOf slot name (Operation.number i) w =
      .ok row { w with rowNames := Json.put slot (rows.get i) w.rowNames } := by
  have hnumber : systemNumber name w = .ok number w := named_ok hname w
  obtain ⟨cells, hcells, _⟩ := h.row i
  refine ⟨⟨n, cells⟩, ?_⟩
  rw [rowOf, bind_of_ok hnumber, bind_of_ok h.systemAt_ok,
    bind_of_ok (lift_ok (rowIndex_number i) w)]
  exact kept_ok hcells _

variable {k l : Nat} {r s : Row Double n} {factor : Operand} {f : Complex Double}

theorem rowNamed_ok {cells : Vector Cell (n + 1)} (hslot : Json.find? slot w.rowNames = some k)
    (hcells : w.rows[k]? = some ⟨n, cells⟩) : rowNamed slot w = .ok ⟨n, cells⟩ w := by
  have hnumber : rowNumber slot w = .ok k w := named_ok hslot w
  rw [rowNamed, bind_of_ok hnumber]
  exact kept_ok hcells w

theorem setNamedRow_ok (hslot : Json.find? slot w.rowNames = some k) (row : SharedRow) :
    setNamedRow slot row w = .ok row { w with rows := w.rows.setIfInBounds k row } := by
  have hnumber : rowNumber slot w = .ok k w := named_ok hslot w
  rw [setNamedRow, bind_of_ok hnumber]
  rfl

theorem scaled_ok (cells : Vector Cell (n + 1)) (hf : factor.toComplex = .ok f) (w : Workspace) :
    ∃ (cells' : Vector Cell (n + 1)) (next : Nat),
      scaled ⟨n, cells⟩ factor w = .ok ⟨n, cells'⟩ { w with nextIdentity := next } ∧
      cells'.map (·.value) = Row.scale (cells.map (·.value)) f := by
  obtain ⟨cells', next, hnew, hvalues⟩ := newCells_ok (Row.scale (cells.map (·.value)) f) w
  refine ⟨cells', next, ?_, hvalues⟩
  rw [scaled, bind_of_ok (lift_ok hf w)]
  exact bind_of_ok hnew

/-- The row is multiplied in its place. -/
theorem multiplyRow_ok (hslot : Json.find? slot w.rowNames = some k) (hk : w.HasRow k r)
    (hf : factor.toComplex = .ok f) :
    ∃ (cells : Vector Cell (n + 1)) (next : Nat) (row : SharedRow),
      multiplyRow slot factor w = .ok row
        { w with rows := w.rows.setIfInBounds k ⟨n, cells⟩, nextIdentity := next } ∧
      cells.map (·.value) = r.scale f := by
  obtain ⟨cells, hcells, rfl⟩ := hk
  obtain ⟨cells', next, hscaled, hvalues⟩ := scaled_ok cells hf w
  refine ⟨cells', next, ⟨n, cells'⟩, ?_, hvalues⟩
  rw [multiplyRow, bind_of_ok (rowNamed_ok hslot hcells), bind_of_ok hscaled]
  exact setNamedRow_ok (w := { w with nextIdentity := next }) hslot _

/-- The product is a row of its own. -/
theorem multipliedRow_ok (hslot : Json.find? slot w.rowNames = some k) (hk : w.HasRow k r)
    (hf : factor.toComplex = .ok f) (target : String) :
    ∃ (cells : Vector Cell (n + 1)) (next : Nat) (row : SharedRow),
      multipliedRow slot factor target w = .ok row
        { w with
          rows := w.rows.push ⟨n, cells⟩
          rowNames := Json.put target w.rows.size w.rowNames
          nextIdentity := next } ∧
      cells.map (·.value) = r.scale f := by
  obtain ⟨cells, hcells, rfl⟩ := hk
  obtain ⟨cells', next, hscaled, hvalues⟩ := scaled_ok cells hf w
  refine ⟨cells', next, ⟨n, cells'⟩, ?_, hvalues⟩
  rw [multipliedRow, bind_of_ok (rowNamed_ok hslot hcells), bind_of_ok hscaled]
  rfl

/-- The other row is added to the row in its place. -/
theorem addToRow_ok (hslot : Json.find? slot w.rowNames = some k)
    (hother : Json.find? other w.rowNames = some l) (hk : w.HasRow k r) (hl : w.HasRow l s) :
    ∃ (cells : Vector Cell (n + 1)) (next : Nat) (row : SharedRow),
      addToRow slot other w = .ok row
        { w with rows := w.rows.setIfInBounds k ⟨n, cells⟩, nextIdentity := next } ∧
      cells.map (·.value) = r.add s := by
  obtain ⟨cells, hcells, rfl⟩ := hk
  obtain ⟨added, hadded, rfl⟩ := hl
  obtain ⟨cells', next, hnew, hvalues⟩ :=
    newCells_ok (Row.add (cells.map (·.value)) (added.map (·.value))) w
  refine ⟨cells', next, ⟨n, cells'⟩, ?_, hvalues⟩
  rw [addToRow, bind_of_ok (rowNamed_ok hslot hcells), bind_of_ok (rowNamed_ok hother hadded),
    dif_pos rfl]
  refine (bind_of_ok hnew).trans ?_
  exact setNamedRow_ok (w := { w with nextIdentity := next }) hslot _

end Workspace

end GaussJordan
