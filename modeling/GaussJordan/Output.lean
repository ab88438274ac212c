import GaussJordan.Reduction

/-!
# GaussJordan.Output

What is written to the output file: the final answer, with a line feed after the values of a
solution.
-/

namespace GaussJordan

/-- The content of the output file for a classification by its name. -/
def outputText (classification finalAnswer : String) : String :=
  if classification = Classification.solved.name then finalAnswer ++ "\n" else finalAnswer

/-- The record that the output file was written. -/
def savedRecord (path : String) : Record := ⟨.info, .reading, s!"Results saved to: {path}"⟩

end GaussJordan
