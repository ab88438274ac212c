/-!
# GaussJordan.Text.Range

Sets of characters given as ascending ranges of code points.
-/

namespace GaussJordan

namespace Text

/-- Whether a character lies in one of the ranges, ends included. -/
def inRanges (ranges : Array (Nat × Nat)) (c : Char) : Bool :=
  ranges.any fun (first, last) => first ≤ c.toNat && c.toNat ≤ last

end Text

end GaussJordan
