import Offside.Main
import Offside.Proofs.Answers
import Offside.Proofs.Assembly
import Offside.Proofs.Balance
import Offside.Proofs.Budgets
import Offside.Proofs.Callers
import Offside.Proofs.Calls
import Offside.Proofs.Comments
import Offside.Proofs.Indentation
import Offside.Proofs.Machine.Failing
import Offside.Proofs.MaximalMunch
import Offside.Proofs.NormalForm
import Offside.Proofs.Number.Comparison
import Offside.Proofs.Parsing
import Offside.Proofs.PrintedText
import Offside.Proofs.RangeLoops
import Offside.Proofs.SingleAssignment
import Offside.Proofs.Source
import Offside.Proofs.Termination
import Offside.Proofs.Value.Drawing
import Offside.Proofs.Value.Equality
import Offside.Proofs.Value.Frame
import Offside.TestCase
