import GaussJordan.Complex

/-!
# GaussJordan.System

A system of `n` equations in `n` unknowns, one row of `n` coefficients and a constant term each,
with the tolerance below which a part of a term counts as zero. Inside the library rows and columns
are indexed from zero by `Fin`; the 1-based indices of callers are checked by `rowIndex` and
`columnIndex`.
-/

namespace GaussJordan

/-- `n` coefficients and the constant term. -/
abbrev Row (α : Type) (n : Nat) := Vector (Complex α) (n + 1)

structure System (α : Type) (n : Nat) where
  tolerance : α
  rows : Vector (Row α n) n

/-- The index behind a 1-based index of at most `n`. -/
def index? (n : Nat) (i : Int) : Option (Fin n) :=
  if h : 1 ≤ i ∧ i ≤ n then some ⟨(i - 1).toNat, by omega⟩ else none

def rowIndex (n : Nat) (i : Int) : Except Fault (Fin n) :=
  (index? n i).elim (.error (.rowIndex i)) .ok

def columnIndex (n : Nat) (i : Int) : Except Fault (Fin n) :=
  (index? n i).elim (.error (.columnIndex i)) .ok

/-- The index that an exchange of `i` and `j` puts in the place of `k`. -/
def exchanged {n : Nat} (i j k : Fin n) : Fin n := if k = i then j else if k = j then i else k

variable {α : Type} {n : Nat}

namespace Row

def coefficients (r : Row α n) : List (Complex α) := r.toList.take n

def constant (r : Row α n) : Complex α := r[n]

def setTerm (r : Row α n) (j : Fin (n + 1)) (a : Complex α) : Row α n := r.set j a

def swapTerms (r : Row α n) (i j : Fin n) : Row α n := r.swap i.castSucc j.castSucc

theorem swapTerms_swapTerms (r : Row α n) (i j : Fin n) : (r.swapTerms i j).swapTerms i j = r := by
  simp [swapTerms]

@[simp] theorem swapTerms_self (r : Row α n) (i : Fin n) : r.swapTerms i i = r := by
  apply Vector.ext
  intro l hl
  simp only [swapTerms, Vector.getElem_swap, Fin.val_castSucc]
  split
  · simp_all
  · rfl

theorem getElem_setTerm (r : Row α n) (j k : Fin (n + 1)) (a : Complex α) :
    (r.setTerm j a)[k] = if j = k then a else r[k] := by
  simp [setTerm, Vector.getElem_set, Fin.ext_iff]

theorem getElem_swapTerms (r : Row α n) (i j k : Fin n) :
    (r.swapTerms i j)[k.castSucc] = r[(exchanged i j k).castSucc] := by
  simp only [swapTerms, exchanged, Fin.getElem_fin, Vector.getElem_swap, Fin.val_castSucc,
    Fin.ext_iff]
  split
  · rfl
  · split <;> rfl

theorem constant_setTerm (r : Row α n) (j : Fin n) (a : Complex α) :
    (r.setTerm j.castSucc a).constant = r.constant := by
  have hj := j.isLt
  simp only [constant, setTerm, Vector.getElem_set, Fin.val_castSucc]
  rw [if_neg (by omega)]

theorem constant_swapTerms (r : Row α n) (i j : Fin n) :
    (r.swapTerms i j).constant = r.constant := by
  have hi := i.isLt
  have hj := j.isLt
  simp only [constant, swapTerms, Vector.getElem_swap, Fin.val_castSucc]
  split
  · omega
  · split
    · omega
    · rfl

end Row

namespace System

def row (m : System α n) (i : Fin n) : Row α n := m.rows[i]

def setRow (m : System α n) (i : Fin n) (r : Row α n) : System α n :=
  { m with rows := m.rows.set i r }

def term (m : System α n) (i : Fin n) (j : Fin (n + 1)) : Complex α := (m.row i)[j]

/-- The coefficient of unknown `j` in equation `i`. -/
def coefficient (m : System α n) (i j : Fin n) : Complex α := m.term i j.castSucc

def constants (m : System α n) : Vector (Complex α) n := m.rows.map Row.constant

theorem toList_rows (m : System α n) : m.rows.toList = (List.finRange n).map m.row := by
  apply List.ext_getElem
  · simp
  · intro i _ _
    simp [row]

theorem row_setRow (m : System α n) (i k : Fin n) (r : Row α n) :
    (m.setRow i r).row k = if i = k then r else m.row k := by
  simp [row, setRow, Vector.getElem_set, Fin.ext_iff]

theorem ext_row {m k : System α n} (htol : m.tolerance = k.tolerance)
    (h : ∀ i, m.row i = k.row i) : m = k := by
  obtain ⟨tolerance, rows⟩ := m
  obtain ⟨tolerance', rows'⟩ := k
  obtain rfl : tolerance = tolerance' := htol
  obtain rfl : rows = rows' := Vector.ext fun i hi => h ⟨i, hi⟩
  rfl

/-! ## Exchanges -/

def swapRows (m : System α n) (i j : Fin n) : System α n := { m with rows := m.rows.swap i j }

/-- Exchanges two unknowns in every equation; the constant terms stay. -/
def swapColumns (m : System α n) (i j : Fin n) : System α n :=
  { m with rows := m.rows.map fun r => r.swapTerms i j }

theorem row_swapRows (m : System α n) (i j k : Fin n) :
    (m.swapRows i j).row k = if k = i then m.row j else if k = j then m.row i else m.row k := by
  simp [row, swapRows, Vector.getElem_swap, Fin.ext_iff]

theorem row_swapColumns (m : System α n) (i j k : Fin n) :
    (m.swapColumns i j).row k = (m.row k).swapTerms i j := by
  simp [row, swapColumns]

theorem coefficient_swapRows (m : System α n) (i j k l : Fin n) :
    (m.swapRows i j).coefficient k l = m.coefficient (exchanged i j k) l := by
  simp only [coefficient, term, row_swapRows, exchanged]
  split
  · rfl
  · split <;> rfl

theorem coefficient_swapColumns (m : System α n) (i j k l : Fin n) :
    (m.swapColumns i j).coefficient k l = m.coefficient k (exchanged i j l) := by
  simp only [coefficient, term, row_swapColumns, Row.getElem_swapTerms]

theorem swapColumns_swapColumns (m : System α n) (i j : Fin n) :
    (m.swapColumns i j).swapColumns i j = m := by
  simp [swapColumns, Function.comp_def, Row.swapTerms_swapTerms]

@[simp] theorem swapRows_self (m : System α n) (i : Fin n) : m.swapRows i i = m := by
  refine ext_row rfl fun k => ?_
  rw [row_swapRows]
  split
  · rename_i h
    rw [h]
  · rfl

@[simp] theorem swapColumns_self (m : System α n) (i : Fin n) : m.swapColumns i i = m := by
  refine ext_row rfl fun k => ?_
  rw [row_swapColumns, Row.swapTerms_self]

theorem constants_swapColumns (m : System α n) (i j : Fin n) :
    (m.swapColumns i j).constants = m.constants := by
  simp [constants, swapColumns, Row.constant_swapTerms]

end System

variable [Scalar α]

namespace Row

/-- Every term, the constant one included, times a factor. -/
def scale (r : Row α n) (factor : Complex α) : Row α n := r.map (· * factor)

def add (r s : Row α n) : Row α n := r.zipWith (· + ·) s

theorem getElem_scale (r : Row α n) (factor : Complex α) (k : Fin (n + 1)) :
    (r.scale factor)[k] = r[k] * factor := by
  simp [scale]

theorem getElem_add (r s : Row α n) (k : Fin (n + 1)) : (r.add s)[k] = r[k] + s[k] := by
  simp [add]

theorem constant_scale (r : Row α n) (factor : Complex α) :
    (r.scale factor).constant = r.constant * factor := by
  simp [constant, scale]

theorem constant_add (r s : Row α n) : (r.add s).constant = r.constant + s.constant := by
  simp [constant, add]

def hasZeroCoefficients (tol : α) (r : Row α n) : Bool := r.coefficients.all (·.isZero tol)

def text (r : Row α n) : Except Fault String := do
  return " ".intercalate (← r.toList.mapM Complex.text)

def eq (r s : Row α n) : Bool := (r.toList.zip s.toList).all fun (a, b) => a.eq b

end Row

namespace System

def isZeroAt (m : System α n) (i j : Fin n) : Bool := (m.coefficient i j).isZero m.tolerance

/-! ## Search -/

/-- The first row from `start` on with a nonzero term in the column. -/
def findRow (m : System α n) (column : Fin n) (start : Nat) : Option (Fin n) :=
  (List.finRange n).find? fun i => decide (start ≤ i.val) && !m.isZeroAt i column

/-- The first row that `findRow` meets column by column. -/
def findFirstRow (m : System α n) : Option (Fin n) :=
  (List.finRange n).findSome? fun j => m.findRow j 0

/-- The first column from `start` on with a nonzero term in row `top` or below. -/
def findColumn (m : System α n) (start top : Nat) : Option (Fin n) :=
  (List.finRange n).find? fun j => decide (start ≤ j.val) && (m.findRow j top).isSome

/-! ## Classification -/

def rank (m : System α n) : Nat :=
  m.rows.toList.countP fun r => !r.hasZeroCoefficients m.tolerance

def freeVariables (m : System α n) : Nat := n - m.rank

/-- Some row reads `0 = c` with `c` not zero. -/
def isInconsistent (m : System α n) : Bool :=
  m.rows.toList.any fun r =>
    r.hasZeroCoefficients m.tolerance && !r.constant.isZero m.tolerance

def sumOfConstants (m : System α n) : Complex α := m.constants.toList.foldl (· + ·) .zero

/-! ## Text and equality -/

def text (m : System α n) : Except Fault String := do
  return "\n".intercalate (← m.rows.toList.mapM Row.text)

def eq (m k : System α n) : Bool := (m.rows.toList.zip k.rows.toList).all fun (r, s) => r.eq s

end System

end GaussJordan
