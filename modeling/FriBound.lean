import FriBound.Main
import FriBound.Proofs.Exact
import FriBound.Proofs.ExactBound
import FriBound.Proofs.Guards
import FriBound.Proofs.Intermediates
import FriBound.Proofs.Order
import FriBound.Proofs.LogSum
import FriBound.Proofs.LogOutcome
import FriBound.Proofs.Log2Size
import FriBound.Proofs.Queries
import FriBound.Proofs.Coverage
import FriBound.Proofs.ValidBound
import FriBound.Proofs.Agreement
import FriBound.Proofs.InstanceSize
import FriBound.Proofs.TradeOff
import FriBound.Proofs.FieldSize
import FriBound.Proofs.ArityOrder
import FriBound.Proofs.QuerySwitch
import FriBound.Proofs.Arguments
import FriBound.Proofs.Answers
import FriBound.Proofs.Cells
import FriBound.Proofs.Schedules
import FriBound.Proofs.ValidSchedules
import FriBound.Proofs.Constraints
import FriBound.Proofs.ArityScaling
import FriBound.Proofs.AritySum
import FriBound.Proofs.Thresholds
import FriBound.Proofs.LogOrder
import FriBound.Proofs.Log2Order
import FriBound.Proofs.NoFolding
import FriBound.Proofs.LogSumRange
import FriBound.Proofs.PowSize
