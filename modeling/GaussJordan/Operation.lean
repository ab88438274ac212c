import GaussJordan.System

/-!
# GaussJordan.Operation

The elementary operations of the reduction: what each does to a system and how it is written.
A scaled row gets an exact one at the pivot, and a cleared term becomes an exact zero.
-/

namespace GaussJordan

inductive Operation (α : Type) (n : Nat) where
  | swapRows (first second : Fin n)
  | swapColumns (first second : Fin n)
  /-- The row times the factor; its diagonal term becomes one. -/
  | scale (factor : Complex α) (row : Fin n)
  /-- The target row plus the source row times the factor; the target's term in the column of the
  source becomes zero. -/
  | addScaled (factor : Complex α) (source target : Fin n)

variable {α : Type} [Scalar α] {n : Nat}

/-- An exchange of two unknowns, written with their 1-based columns. -/
def columnSwapText (first second : Int) : String := s!"C{first} <-> C{second}"

namespace Operation

def apply : Operation α n → System α n → System α n
  | .swapRows i j, m => m.swapRows i j
  | .swapColumns i j, m => m.swapColumns i j
  | .scale factor i, m => m.setRow i (((m.row i).scale factor).setTerm i.castSucc .one)
  | .addScaled factor i j, m =>
    m.setRow j (((m.row j).add ((m.row i).scale factor)).setTerm i.castSucc .zero)

theorem row_apply_scale (m : System α n) (factor : Complex α) (i k : Fin n) :
    ((scale factor i).apply m).row k =
      if i = k then ((m.row i).scale factor).setTerm i.castSucc .one else m.row k :=
  m.row_setRow i k _

theorem row_apply_addScaled (m : System α n) (factor : Complex α) (i j k : Fin n) :
    ((addScaled factor i j).apply m).row k =
      if j = k then ((m.row j).add ((m.row i).scale factor)).setTerm i.castSucc .zero
      else m.row k :=
  m.row_setRow j k _

theorem coefficient_apply_scale (m : System α n) (factor : Complex α) (i k l : Fin n) :
    ((scale factor i).apply m).coefficient k l =
      if i = k then (if i = l then .one else m.coefficient i l * factor)
      else m.coefficient k l := by
  simp only [System.coefficient, System.term, row_apply_scale]
  split
  · rw [Row.getElem_setTerm, Row.getElem_scale]
    simp only [Fin.castSucc_inj]
  · rfl

theorem coefficient_apply_addScaled (m : System α n) (factor : Complex α) (i j k l : Fin n) :
    ((addScaled factor i j).apply m).coefficient k l =
      if j = k then (if i = l then .zero else m.coefficient j l + m.coefficient i l * factor)
      else m.coefficient k l := by
  simp only [System.coefficient, System.term, row_apply_addScaled]
  split
  · rw [Row.getElem_setTerm, Row.getElem_add, Row.getElem_scale]
    simp only [Fin.castSucc_inj]
  · rfl

theorem constant_apply_scale (m : System α n) (factor : Complex α) (i k : Fin n) :
    (((scale factor i).apply m).row k).constant =
      if i = k then (m.row i).constant * factor else (m.row k).constant := by
  rw [row_apply_scale]
  split
  · rw [Row.constant_setTerm, Row.constant_scale]
  · rfl

theorem constant_apply_addScaled (m : System α n) (factor : Complex α) (i j k : Fin n) :
    (((addScaled factor i j).apply m).row k).constant =
      if j = k then (m.row j).constant + (m.row i).constant * factor else (m.row k).constant := by
  rw [row_apply_addScaled]
  split
  · rw [Row.constant_setTerm, Row.constant_add, Row.constant_scale]
  · rfl

def number (i : Fin n) : Nat := i.val + 1

def text : Operation α n → Except Fault String
  | .swapRows i j =>
    let first := number i
    let second := number j
    .ok s!"R{first} <-> R{second}"
  | .swapColumns i j => .ok (columnSwapText (number i) (number j))
  | .scale factor i => do
    let row := number i
    let factor ← factor.factorText
    return s!"{factor} * R{row} -> R{row}"
  | .addScaled factor i j => do
    let source := number i
    let target := number j
    let factor ← factor.factorText
    return s!"{factor} * R{source} + R{target} -> R{target}"

end Operation

end GaussJordan
