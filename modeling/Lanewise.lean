import Lanewise.Bytes
import Lanewise.Vec.Text
import Lanewise.Instr.Log
import Lanewise.Proofs.HalfEven
import Lanewise.Proofs.Float.Magnitude
import Lanewise.Proofs.Float.Nearest
import Lanewise.Proofs.Float.Round
import Lanewise.Proofs.Literal.DigitRun
import Lanewise.Proofs.Literal.HexAccumulator
import Lanewise.Proofs.Literal.HexFloat
import Lanewise.Proofs.Decimal.Round
import Lanewise.Proofs.Literal.WrittenDigits
import Lanewise.Proofs.Decimal.Shortest
import Lanewise.Proofs.Decimal.Positional
import Lanewise.Proofs.Float.Text
import Lanewise.Proofs.Integer.Exact
import Lanewise.Proofs.Vec.Text
import Lanewise.Proofs.Instr.Validation
import Lanewise.Proofs.Float.Overflow
import Lanewise.Proofs.Float.NaN
import Lanewise.Proofs.Float.Settled
import Lanewise.Proofs.Literal.Integer
import Lanewise.Proofs.Literal.FloatParts
import Lanewise.Proofs.Literal.DecimalFloat
import Lanewise.Proofs.Literal.FloatGrammar
import Lanewise.Proofs.Literal.FloatClass
import Lanewise.Proofs.Literal.PowerOfTwo
import Lanewise.Proofs.Literal.FloatOrder
import Lanewise.Proofs.Integer.Wider
import Lanewise.Proofs.Vec.LaneWrite
import Lanewise.Proofs.Vec.Views
import Lanewise.Proofs.Vec.Literals
import Lanewise.Proofs.Vec.Logic
import Lanewise.Proofs.Instr.Log
import Lanewise.Proofs.Vec.Select
import Lanewise.Proofs.Integer.Shift
import Lanewise.Proofs.Integer.Lowering
import Lanewise.Proofs.Integer.Reduction
import Lanewise.Proofs.Vec.Permute
import Lanewise.Proofs.Float.Order
import Lanewise.Proofs.Float.Minimum
import Lanewise.Proofs.Float.PseudoMinimum
import Lanewise.Proofs.Float.Negation
import Lanewise.Proofs.Vec.Hex
import Lanewise.Proofs.Float.FloorCeil
import Lanewise.Machine.Checked
import Lanewise.Machine.Literal
import Lanewise.Proofs.Machine.Checked
import Lanewise.Proofs.Machine.Round
import Lanewise.Proofs.Machine.Literal
import Lanewise.Proofs.Float.Midpoint
import Lanewise.Proofs.Literal.DigitScan
import Lanewise.Proofs.Error
