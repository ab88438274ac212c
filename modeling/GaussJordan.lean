import GaussJordan.Rounding
import GaussJordan.Shortest
import GaussJordan.Operand
import GaussJordan.Log
import GaussJordan.Verification
import GaussJordan.Operation
import GaussJordan.Reduction
import GaussJordan.Text.Blank
import GaussJordan.Text.Digit
import GaussJordan.Text.LowerCase
import GaussJordan.Text.Printable
import GaussJordan.Literal.Token
import GaussJordan.Json.Reader
import GaussJordan.Json.Writer
import GaussJordan.System.Reading
import GaussJordan.Output
import GaussJordan.Service
import GaussJordan.CommandLine.Run
import GaussJordan.Main
import GaussJordan.Workspace
import GaussJordan.Proofs.Run
import GaussJordan.Proofs.Forward
import GaussJordan.Proofs.Pictures
import GaussJordan.Proofs.Outcome
import GaussJordan.Proofs.PivotCount
import GaussJordan.Proofs.ExactArithmetic
import GaussJordan.Proofs.Totality
import GaussJordan.Proofs.ElementaryMatrix
import GaussJordan.Proofs.BackReduction
import GaussJordan.Proofs.Exactness
import GaussJordan.Proofs.ColumnExchange
import GaussJordan.Proofs.SelfCheck
import GaussJordan.Proofs.Faults
import GaussJordan.Proofs.Overflow
import GaussJordan.Proofs.FiniteSystem
import GaussJordan.Proofs.Observation
import GaussJordan.Proofs.SolutionSet
import GaussJordan.Proofs.DoubleRange
import GaussJordan.Proofs.GridRounding
import GaussJordan.Proofs.NearestGrid
import GaussJordan.Proofs.DoubleUnits
import GaussJordan.Proofs.Settled
import GaussJordan.Proofs.ReducedForm
import GaussJordan.Proofs.Actions
import GaussJordan.Proofs.UndoneExchanges
import GaussJordan.Proofs.Words
import GaussJordan.Proofs.Reading
import GaussJordan.Proofs.Grids
import GaussJordan.Proofs.Layout
import GaussJordan.Proofs.FileTree
import GaussJordan.Proofs.Course
import GaussJordan.Proofs.StoredSettings
import GaussJordan.Proofs.Surfaces
import GaussJordan.Proofs.SignificantBits
import GaussJordan.Proofs.DecimalText
import GaussJordan.Proofs.LiteralGrammar
import GaussJordan.Proofs.TokenReading
import GaussJordan.Proofs.LiteralText
import GaussJordan.Proofs.TickRounding
import GaussJordan.Proofs.LiteralParts
import GaussJordan.Proofs.Decoding
import GaussJordan.Proofs.Cells
import GaussJordan.Proofs.RoundTrip
import GaussJordan.Proofs.LifeCycle
import GaussJordan.Proofs.FiniteRun
import GaussJordan.Proofs.Coherence
import GaussJordan.Proofs.EndState
import GaussJordan.Proofs.PivotSearch
import GaussJordan.Proofs.Frame
import GaussJordan.Proofs.Residue
import GaussJordan.Proofs.NarratedFactors
import GaussJordan.Proofs.DoubleRounding
import GaussJordan.Proofs.NearestDouble
import GaussJordan.Proofs.PartReading
import GaussJordan.Proofs.Division
import GaussJordan.Proofs.PartText
