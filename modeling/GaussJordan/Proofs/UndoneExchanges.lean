import GaussJordan.Proofs.Actions

/-!
# GaussJordan.Proofs.UndoneExchanges

A history of column exchanges, taken back after operations on rows were done in between.

An operation on rows acts on every column alike, so it does not matter whether a column exchange is
done before or after it (`Move.apply_swapColumns`). Hence taking back the recorded exchanges, the
most recent one first, leaves what the operations on rows alone would have made of the system
(`unswapped_applyAll`).

`Kept w … m swaps`: under the names, the workspace keeps the system `m` and a history of the
exchanges `swaps`. Each move carries this on (`Kept.perform_ok`), and undoing the history empties it
(`Kept.undoAll_ok`). `undoAll_moves` is the whole sequence.
-/

namespace GaussJordan

variable {n : Nat}

/-! ## Moves on a system -/

namespace Row

variable {α : Type} [Scalar α]

theorem scale_swapTerms (r : Row α n) (factor : Complex α) (i j : Fin n) :
    (r.swapTerms i j).scale factor = (r.scale factor).swapTerms i j := by
  apply Vector.ext
  intro l hl
  simp only [swapTerms, scale, Vector.getElem_map, Vector.getElem_swap, Fin.val_castSucc]
  split
  · rfl
  · split <;> rfl

theorem add_swapTerms (r s : Row α n) (i j : Fin n) :
    (r.swapTerms i j).add (s.swapTerms i j) = (r.add s).swapTerms i j := by
  apply Vector.ext
  intro l hl
  simp only [swapTerms, add, Vector.getElem_zipWith, Vector.getElem_swap, Fin.val_castSucc]
  split
  · rfl
  · split <;> rfl

end Row

/-- What a row is multiplied by: anything that can be read as a complex value. -/
structure Factor where
  operand : Operand
  value : Complex Double
  readable : operand.toComplex = .ok value

/-- An exchange of columns to be recorded, or an operation on rows. -/
inductive Move (n : Nat) where
  | record (first second : Fin n)
  | swapRows (first second : Fin n)
  | multiply (row : Fin n) (factor : Factor)
  /-- The multiple of the source row is added to the target row. -/
  | addMultiple (target source : Fin n) (factor : Factor)

namespace Move

def apply : Move n → System Double n → System Double n
  | .record i j, m => m.swapColumns i j
  | .swapRows i j, m => m.swapRows i j
  | .multiply i factor, m => m.setRow i ((m.row i).scale factor.value)
  | .addMultiple i j factor, m => m.setRow i ((m.row i).add ((m.row j).scale factor.value))

def isRowwise : Move n → Bool
  | .record _ _ => false
  | _ => true

/-- An exchange is recorded if its indices differ. -/
def isExchange : Move n → Bool
  | .record i j => i ≠ j
  | _ => false

def recorded : Move n → List (Fin n × Fin n)
  | .record i j => if i = j then [] else [(i, j)]
  | _ => []

def applyAll (moves : List (Move n)) (m : System Double n) : System Double n :=
  moves.foldl (fun m move => move.apply m) m

/-- The history after some moves, the most recent exchange first. -/
def recordAll (moves : List (Move n)) (swaps : List (Fin n × Fin n)) : List (Fin n × Fin n) :=
  moves.foldl (fun swaps move => move.recorded ++ swaps) swaps

/-- An operation on rows may be done before or after an exchange of columns. -/
theorem apply_swapColumns {move : Move n} (h : move.isRowwise = true) (m : System Double n)
    (i j : Fin n) : move.apply (m.swapColumns i j) = (move.apply m).swapColumns i j := by
  cases move with
  | record => cases h
  | swapRows k l =>
    refine System.ext_row rfl fun a => ?_
    simp only [apply, System.row_swapRows, System.row_swapColumns]
    split
    · rfl
    · split <;> rfl
  | multiply k factor =>
    refine System.ext_row rfl fun a => ?_
    simp only [apply, System.row_setRow, System.row_swapColumns]
    split
    · exact Row.scale_swapTerms _ _ i j
    · rfl
  | addMultiple k l factor =>
    refine System.ext_row rfl fun a => ?_
    simp only [apply, System.row_setRow, System.row_swapColumns]
    split
    · rw [Row.scale_swapTerms, Row.add_swapTerms]
    · rfl

end Move

/-- The system with the exchanges of columns taken back, the first of the list first. -/
def unswapped (swaps : List (Fin n × Fin n)) (m : System Double n) : System Double n :=
  swaps.foldl (fun m swap => m.swapColumns swap.1 swap.2) m

namespace Move

theorem unswapped_apply {move : Move n} (h : move.isRowwise = true)
    (swaps : List (Fin n × Fin n)) (m : System Double n) :
    unswapped swaps (move.apply m) = move.apply (unswapped swaps m) := by
  induction swaps generalizing m with
  | nil => rfl
  | cons swap swaps ih =>
    rw [unswapped, List.foldl_cons, ← apply_swapColumns h]
    exact ih _

/-- What a recorded exchange did is taken back first. -/
theorem unswapped_record (i j : Fin n) (swaps : List (Fin n × Fin n)) (m : System Double n) :
    unswapped ((record i j).recorded ++ swaps) ((record i j).apply m) = unswapped swaps m := by
  by_cases hij : i = j
  · rw [recorded, if_pos hij, List.nil_append, apply, hij, System.swapColumns_self]
  · rw [recorded, if_neg hij, List.singleton_append, unswapped, List.foldl_cons, apply,
      System.swapColumns_swapColumns]
    rfl

/-- With the exchanges taken back, the system is what the operations on rows made of it. -/
theorem unswapped_applyAll (moves : List (Move n)) (swaps : List (Fin n × Fin n))
    (m : System Double n) :
    unswapped (recordAll moves swaps) (applyAll moves m) =
      applyAll (moves.filter (·.isRowwise)) (unswapped swaps m) := by
  induction moves generalizing swaps m with
  | nil => rfl
  | cons move moves ih =>
    rw [recordAll, applyAll, List.foldl_cons, List.foldl_cons]
    refine (ih (move.recorded ++ swaps) (move.apply m)).trans ?_
    by_cases h : move.isRowwise = true
    · have hnone : move.recorded = [] := by
        cases move with
        | record => cases h
        | swapRows => rfl
        | multiply => rfl
        | addMultiple => rfl
      rw [List.filter_cons_of_pos h, hnone, List.nil_append, unswapped_apply h]
      rfl
    · rw [List.filter_cons_of_neg h]
      cases move with
      | record i j => rw [unswapped_record]
      | swapRows => exact absurd rfl h
      | multiply => exact absurd rfl h
      | addMultiple => exact absurd rfl h

theorem length_recordAll (moves : List (Move n)) (swaps : List (Fin n × Fin n)) :
    (recordAll moves swaps).length = moves.countP (·.isExchange) + swaps.length := by
  induction moves generalizing swaps with
  | nil => simp [recordAll]
  | cons move moves ih =>
    have hlength : move.recorded.length = if move.isExchange then 1 else 0 := by
      cases move with
      | record i j => by_cases hij : i = j <;> simp [recorded, isExchange, hij]
      | swapRows => rfl
      | multiply => rfl
      | addMultiple => rfl
    rw [recordAll, List.foldl_cons]
    refine (ih _).trans ?_
    rw [List.length_append, hlength, List.countP_cons]
    omega

end Move

/-! ## Moves in a workspace -/

open Workspace

/-- The exchange of two columns of the system of that number. -/
def exchangeOf (number : Nat) (swap : Fin n × Fin n) : ColumnSwap :=
  ⟨number, Operation.number swap.1, Operation.number swap.2⟩

/-- The actions of a move on the named system, with a history for the exchanges. The rows that are
taken out of the system get names of their own. -/
def Move.perform (system history : String) : Move n → Action Unit
  | .record i j => do
    let number ← systemNumber system
    let _ ← Workspace.record history (exchangeOf number (i, j))
  | .swapRows i j => do
    let _ ← Workspace.swapRows system (Operation.number i) (Operation.number j)
  | .multiply i factor => do
    let _ ← rowOf "row" system (Operation.number i)
    let _ ← multiplyRow "row" factor.operand
  | .addMultiple i j factor => do
    let _ ← rowOf "target" system (Operation.number i)
    let _ ← rowOf "source" system (Operation.number j)
    let _ ← multipliedRow "source" factor.operand "product"
    let _ ← addToRow "target" "product"

/-- Under the names, the workspace keeps the system `m` and a history of the exchanges `swaps` of
its columns, the most recent one first. -/
structure Kept (w : Workspace) (system history : String) (number place : Nat)
    (m : System Double n) (swaps : List (Fin n × Fin n)) : Prop where
  systemName : Json.find? system w.systemNames = some number
  historyName : Json.find? history w.historyNames = some place
  stored : ∃ rows, w.Stores number rows m
  recorded : w.histories[place]? = some (swaps.map (exchangeOf number))

namespace Kept

variable {w : Workspace} {system history : String} {number place : Nat}
variable {m : System Double n} {swaps : List (Fin n × Fin n)}

theorem historyNumber_ok (h : Kept w system history number place m swaps) :
    historyNumber history w = .ok place w :=
  named_ok h.historyName w

theorem record_ok (h : Kept w system history number place m swaps) {i j : Fin n} (hij : i ≠ j) :
    ∃ w', Workspace.record history (exchangeOf number (i, j)) w = .ok true w' ∧
      Kept w' system history number place (m.swapColumns i j) ((i, j) :: swaps) := by
  obtain ⟨rows, hstores⟩ := h.stored
  obtain ⟨all, next, hrun, hstores'⟩ := exchangeColumns_ok hstores i j
  have hne : (exchangeOf number (i, j)).first ≠ (exchangeOf number (i, j)).second := by
    intro he
    apply hij
    apply Fin.ext
    simp only [exchangeOf, Operation.number] at he
    omega
  let w₁ : Workspace := { w with rows := all, nextIdentity := next }
  have hexecute : executeSwap (exchangeOf number (i, j)) w = .ok true w₁ := by
    rw [executeSwap, if_neg hne]
    exact bind_of_ok hrun
  have hlt : place < w.histories.size := (Array.getElem?_eq_some_iff.mp h.recorded).1
  have hhistory : historyAt place w₁ = .ok (swaps.map (exchangeOf number)) w₁ :=
    kept_ok h.recorded _
  let swap := exchangeOf number (i, j)
  let recorded := w.histories.setIfInBounds place (swap :: swaps.map (exchangeOf number))
  let log := w.log.push ⟨.info, .swaps, swap.text⟩
  refine ⟨{ w₁ with histories := recorded, log := log }, ?_, ?_⟩
  · rw [Workspace.record, bind_of_ok h.historyNumber_ok, bind_of_ok hexecute, if_pos rfl,
      bind_of_ok hhistory]
    rfl
  · refine ⟨h.systemName, h.historyName, ⟨rows, hstores'.congr rfl rfl⟩, ?_⟩
    exact Array.getElem?_setIfInBounds_self_of_lt hlt

theorem record_self (h : Kept w system history number place m swaps) (i : Int) :
    Workspace.record history ⟨number, i, i⟩ w = .ok false w := by
  rw [Workspace.record, bind_of_ok h.historyNumber_ok]
  have hexecute : executeSwap ⟨number, i, i⟩ w = .ok false w := by
    rw [executeSwap, if_pos rfl]
    rfl
  rw [bind_of_ok hexecute]
  rfl

/-- An exchange with a column that is not there, and another, is refused before anything is done. -/
theorem record_error (h : Kept w system history number place m swaps) {i j : Int} (hij : i ≠ j)
    (hout : index? n i = none ∨ index? n j = none) :
    ∃ k, (k = i ∨ k = j) ∧ index? n k = none ∧
      Workspace.record history ⟨number, i, j⟩ w = .error (.columnIndex k) w := by
  obtain ⟨rows, hstores⟩ := h.stored
  have hrefuse : ∀ k, exchangeColumns number i j w = .error (.columnIndex k) w →
      Workspace.record history ⟨number, i, j⟩ w = .error (.columnIndex k) w := by
    intro k hk
    rw [Workspace.record, bind_of_ok h.historyNumber_ok]
    refine bind_of_error ?_
    rw [executeSwap, if_neg hij]
    exact bind_of_error hk
  cases hi : index? n i with
  | none =>
    refine ⟨i, .inl rfl, hi, hrefuse i ?_⟩
    rw [exchangeColumns, bind_of_ok hstores.systemAt_ok]
    exact bind_of_error (lift_error (columnIndex_of_none hi) w)
  | some i' =>
    have hj : index? n j = none := hout.resolve_left (by simp [hi])
    refine ⟨j, .inr rfl, hj, hrefuse j ?_⟩
    rw [exchangeColumns, bind_of_ok hstores.systemAt_ok,
      bind_of_ok (lift_ok (columnIndex_of_some hi) w)]
    exact bind_of_error (lift_error (columnIndex_of_none hj) w)

/-- An exchange of columns is done and recorded, unless it is one of a column with itself. -/
theorem exchange_ok (h : Kept w system history number place m swaps) (i j : Fin n) :
    ∃ w', (Move.record i j).perform system history w = .ok () w' ∧
      Kept w' system history number place (m.swapColumns i j)
        ((Move.record i j).recorded ++ swaps) := by
  have hnumber : systemNumber system w = .ok number w := named_ok h.systemName w
  by_cases hij : i = j
  · refine ⟨w, ?_, ?_⟩
    · rw [Move.perform, bind_of_ok hnumber, hij]
      exact bind_of_ok (h.record_self _)
    · rw [Move.recorded, if_pos hij, List.nil_append, hij, System.swapColumns_self]
      exact h
  · obtain ⟨w', hrecord, hkept⟩ := h.record_ok hij
    refine ⟨w', ?_, ?_⟩
    · rw [Move.perform, bind_of_ok hnumber]
      exact bind_of_ok hrecord
    · rw [Move.recorded, if_neg hij]
      exact hkept

theorem multiply_ok (h : Kept w system history number place m swaps) (i : Fin n)
    (factor : Factor) :
    ∃ w', (Move.multiply i factor).perform system history w = .ok () w' ∧
      Kept w' system history number place (m.setRow i ((m.row i).scale factor.value)) swaps := by
  obtain ⟨rows, hstores⟩ := h.stored
  obtain ⟨_, hrow⟩ := rowOf_ok hstores h.systemName "row" i
  let names := Json.put "row" (rows.get i) w.rowNames
  have hstores₁ : Stores { w with rowNames := names } number rows m := hstores.congr rfl rfl
  obtain ⟨cells, next, _, hrun, hvalues⟩ := multiplyRow_ok (Json.find?_put_self _ _ _)
    (hstores₁.row i) factor.readable
  have hstores₂ := hstores₁.setRow i cells
  rw [hvalues] at hstores₂
  exact ⟨_, (bind_of_ok hrow).trans (bind_of_ok hrun), h.systemName, h.historyName,
    ⟨rows, hstores₂.congr rfl rfl⟩, h.recorded⟩

/-- The target and the source are taken out, the multiple of the source is made, and it is added to
the target. -/
theorem addMultiple_ok (h : Kept w system history number place m swaps) (i j : Fin n)
    (factor : Factor) :
    ∃ w', (Move.addMultiple i j factor).perform system history w = .ok () w' ∧
      Kept w' system history number place
        (m.setRow i ((m.row i).add ((m.row j).scale factor.value))) swaps := by
  obtain ⟨rows, hstores⟩ := h.stored
  obtain ⟨_, htarget⟩ := rowOf_ok hstores h.systemName "target" i
  let target := Json.put "target" (rows.get i) w.rowNames
  have hstores₁ : Stores { w with rowNames := target } number rows m := hstores.congr rfl rfl
  obtain ⟨_, hsource⟩ := rowOf_ok hstores₁ h.systemName "source" j
  let names := Json.put "source" (rows.get j) target
  have hstores₂ : Stores { w with rowNames := names } number rows m := hstores.congr rfl rfl
  obtain ⟨cells, next, _, hproduct, hcells⟩ := multipliedRow_ok (Json.find?_put_self _ _ _)
    (hstores₂.row j) factor.readable "product"
  have hstores₃ := hstores₂.push ⟨n, cells⟩
  -- the target's name was given first
  have hname : Json.find? "target" (Json.put "product" w.rows.size names) = some (rows.get i) := by
    rw [Json.find?_put_of_ne (by decide), Json.find?_put_of_ne (by decide), Json.find?_put_self]
  obtain ⟨sum, next', _, hsum, hvalues⟩ := addToRow_ok
    (w := { w with
      rows := w.rows.push ⟨n, cells⟩
      rowNames := Json.put "product" w.rows.size names
      nextIdentity := next })
    hname (Json.find?_put_self _ _ _) ((hstores₃.row i).congr rfl)
    ((HasRow.push_self w cells).congr rfl)
  have hstores₄ := hstores₃.setRow i sum
  rw [hvalues, hcells] at hstores₄
  have hlast := bind_of_ok (f := fun _ => (pure () : Action Unit)) hsum
  refine ⟨_, Eq.trans ?_ hlast, h.systemName, h.historyName,
    ⟨rows, hstores₄.congr rfl rfl⟩, h.recorded⟩
  rw [Move.perform, bind_of_ok htarget, bind_of_ok hsource, bind_of_ok hproduct]

/-- Every move is carried out. -/
theorem perform_ok (h : Kept w system history number place m swaps) (move : Move n) :
    ∃ w', move.perform system history w = .ok () w' ∧
      Kept w' system history number place (move.apply m) (move.recorded ++ swaps) := by
  cases move with
  | record i j => exact h.exchange_ok i j
  | swapRows i j =>
    obtain ⟨rows, hstores⟩ := h.stored
    obtain ⟨systems, hrun, hstores'⟩ := swapRows_ok hstores h.systemName i j
    exact ⟨_, bind_of_ok hrun, h.systemName, h.historyName, ⟨_, hstores'⟩, h.recorded⟩
  | multiply i factor => exact h.multiply_ok i factor
  | addMultiple i j factor => exact h.addMultiple_ok i j factor

/-- Moves are carried out one after the other. -/
theorem perform_all (h : Kept w system history number place m swaps) (moves : List (Move n)) :
    ∃ w', moves.forM (·.perform system history) w = .ok () w' ∧
      Kept w' system history number place (Move.applyAll moves m) (Move.recordAll moves swaps) := by
  induction moves generalizing w m swaps with
  | nil => exact ⟨w, rfl, h⟩
  | cons move moves ih =>
    obtain ⟨w₁, hmove, hkept⟩ := h.perform_ok move
    obtain ⟨w', hrest, hkept'⟩ := ih hkept
    exact ⟨w', (bind_of_ok hmove).trans hrest, hkept'⟩

theorem undoEach_ok (h : Kept w system history number place m swaps) :
    ∃ w', undoEach place (swaps.map (exchangeOf number)) w = .ok () w' ∧
      Kept w' system history number place (unswapped swaps m) [] := by
  induction swaps generalizing w m with
  | nil => exact ⟨w, rfl, h⟩
  | cons swap swaps ih =>
    obtain ⟨rows, hstores⟩ := h.stored
    have hlt : place < w.histories.size := (Array.getElem?_eq_some_iff.mp h.recorded).1
    let left := w.histories.setIfInBounds place (swaps.map (exchangeOf number))
    have hstores₁ : Stores { w with histories := left } number rows m := hstores.congr rfl rfl
    obtain ⟨all, next, hundo, hstores'⟩ := exchangeColumns_ok hstores₁ swap.1 swap.2
    let text := (exchangeOf number swap).text
    let log := w.log.push ⟨.info, .swaps, s!"undo {text}"⟩
    let w₁ : Workspace :=
      { w with histories := left, rows := all, nextIdentity := next, log := log }
    have hkept : Kept w₁ system history number place (m.swapColumns swap.1 swap.2) swaps := by
      refine ⟨h.systemName, h.historyName, ⟨rows, hstores'.congr rfl rfl⟩, ?_⟩
      exact Array.getElem?_setIfInBounds_self_of_lt hlt
    obtain ⟨w', hrest, hkept'⟩ := ih hkept
    refine ⟨w', ?_, hkept'⟩
    rw [List.map_cons, undoEach]
    exact (bind_of_ok hundo).trans hrest

/-- Undoing takes every recorded exchange back and counts them. -/
theorem undoAll_ok (h : Kept w system history number place m swaps) :
    ∃ w', undoAll history w = .ok swaps.length w' ∧
      Kept w' system history number place (unswapped swaps m) [] := by
  have hhistory : historyAt place w = .ok (swaps.map (exchangeOf number)) w :=
    kept_ok h.recorded w
  obtain ⟨w', hundo, hkept⟩ := h.undoEach_ok
  refine ⟨w', ?_, hkept⟩
  rw [undoAll, bind_of_ok h.historyNumber_ok, bind_of_ok hhistory, bind_of_ok hundo,
    List.length_map]
  rfl

theorem viewNamed_ok (h : Kept w system history number place m swaps) :
    viewNamed system w = .ok ⟨n, m⟩ w := by
  obtain ⟨rows, hstores⟩ := h.stored
  exact hstores.viewNamed_ok h.systemName

/-- A new system and a new history, under names. -/
theorem fresh (system history : String) (cells : Vector (Vector Cell (n + 1)) n)
    (tolerance : Double) (w : Workspace) :
    ∃ s w₁ place w₂, addSystem system ⟨n, cells⟩ tolerance w = .ok s w₁ ∧
      (addHistory >>= nameHistory history) w₁ = .ok () w₂ ∧
      Kept w₂ system history w.systems.size place
        ⟨tolerance, cells.map fun row => row.map (·.value)⟩ [] := by
  obtain ⟨rows, w₁, hadd, hname, hstores⟩ := addSystem_ok system ⟨n, cells⟩ tolerance w
  refine ⟨_, w₁, w₁.histories.size, _, hadd, rfl, hname, Json.find?_put_self _ _ _,
    ⟨rows, hstores.congr rfl rfl⟩, ?_⟩
  exact Array.getElem?_push_size

end Kept

/-! ## The whole sequence -/

/-- Columns are exchanged and recorded and rows operated on in any order. Undoing the history then
leaves what the operations on rows alone make of the system. It counts the exchanges whose indices
differ, and empties the history.

At any time, an exchange moves no constants. One with a column that is not there is refused and
changes nothing, unless its two indices are the same: then nothing is checked and nothing done. -/
theorem undoAll_moves {w : Workspace} {system history : String} {number place : Nat}
    {m : System Double n} (h : Kept w system history number place m []) (moves : List (Move n)) :
    ∃ w₁ w₂ w₃ m' swaps, ∃ m₁ : System Double n,
      moves.forM (·.perform system history) w = .ok () w₁ ∧
      Kept w₁ system history number place m₁ swaps ∧
      undoAll history w₁ = .ok (moves.countP (·.isExchange)) w₂ ∧
      w₂.histories[place]? = some [] ∧
      (moves.filter (·.isRowwise)).forM (·.perform system history) w = .ok () w₃ ∧
      viewNamed system w₂ = .ok ⟨n, m'⟩ w₂ ∧ viewNamed system w₃ = .ok ⟨n, m'⟩ w₃ ∧
      (∀ i j : Fin n, i ≠ j → ∃ w',
        Workspace.record history (exchangeOf number (i, j)) w₁ = .ok true w' ∧
        Kept w' system history number place (m₁.swapColumns i j) ((i, j) :: swaps) ∧
        (m₁.swapColumns i j).constants = m₁.constants) ∧
      (∀ i j : Int, i ≠ j → index? n i = none ∨ index? n j = none →
        ∃ k, (k = i ∨ k = j) ∧ index? n k = none ∧
          Workspace.record history ⟨number, i, j⟩ w₁ = .error (.columnIndex k) w₁) ∧
      ∀ i : Int, Workspace.record history ⟨number, i, i⟩ w₁ = .ok false w₁ := by
  obtain ⟨w₁, hmoves, hkept⟩ := h.perform_all moves
  obtain ⟨w₂, hundo, hundone⟩ := hkept.undoAll_ok
  obtain ⟨w₃, hrowwise, hkept'⟩ := h.perform_all (moves.filter (·.isRowwise))
  rw [Move.length_recordAll, List.length_nil, Nat.add_zero] at hundo
  rw [Move.unswapped_applyAll] at hundone
  refine ⟨w₁, w₂, w₃, _, _, _, hmoves, hkept, hundo, hundone.recorded, hrowwise,
    hundone.viewNamed_ok, hkept'.viewNamed_ok, fun i j hij => ?_,
    fun i j hij hout => hkept.record_error hij hout, hkept.record_self⟩
  obtain ⟨w', hrecord, hrecorded⟩ := hkept.record_ok hij
  exact ⟨w', hrecord, hrecorded, System.constants_swapColumns _ i j⟩

/-- `x + 2 y = 3` and `4 x + 5 y = 6`, each cell with an identity of its own. -/
def counting : Vector (Vector Cell 3) 2 :=
  let cell (i : Nat) : Cell := ⟨.ofReal (.ofInt i), i⟩
  #v[#v[cell 1, cell 2, cell 3], #v[cell 4, cell 5, cell 6]]

theorem undoAll_moves_counting :
    ∃ w place, Kept w "m" "h" 0 place ⟨.zero, counting.map fun row => row.map (·.value)⟩ [] ∧
      ∃ w₁ w₂ w₃ m',
        ([.record 0 1, .swapRows 0 1, .record 1 1, .record 1 0] : List (Move 2)).forM
          (·.perform "m" "h") w = .ok () w₁ ∧
        undoAll "h" w₁ = .ok 2 w₂ ∧
        (Move.swapRows (0 : Fin 2) 1).perform "m" "h" w = .ok () w₃ ∧
        viewNamed "m" w₂ = .ok ⟨2, m'⟩ w₂ ∧ viewNamed "m" w₃ = .ok ⟨2, m'⟩ w₃ := by
  obtain ⟨s, w₁, place, w, _, _, hkept⟩ := Kept.fresh "m" "h" counting .zero {}
  obtain ⟨w₁, w₂, w₃, m', _, _, hmoves, _, hundo, _, hrowwise, hview, hview', _⟩ :=
    undoAll_moves hkept [.record 0 1, .swapRows 0 1, .record 1 1, .record 1 0]
  have hone : (Move.swapRows (0 : Fin 2) 1).perform "m" "h" w = .ok () w₃ := by
    obtain ⟨w₃', hperform, _⟩ := hkept.perform_ok (.swapRows 0 1)
    have hall := bind_of_ok (f := fun _ => (pure () : Action Unit)) hperform
    rw [hperform]
    exact hall.symm.trans hrowwise
  exact ⟨w, place, hkept, w₁, w₂, w₃, m', hmoves, hundo, hone, hview, hview'⟩

/-- A column that is not there goes unnoticed in an exchange with itself. -/
theorem record_equal_missing :
    ∃ (w : Workspace) (m : System Double 2) (place : Nat), Kept w "m" "h" 0 place m [] ∧
      index? 2 5 = none ∧ Workspace.record "h" ⟨0, 5, 5⟩ w = .ok false w := by
  obtain ⟨s, w₁, place, w, _, _, hkept⟩ := Kept.fresh "m" "h" counting .zero {}
  exact ⟨w, _, place, hkept, rfl, hkept.record_self 5⟩

end GaussJordan
