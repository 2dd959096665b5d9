import Bookkeeping.Presentation.Json
import Bookkeeping.Presentation.Text
import Bookkeeping.Proofs.Query.Compilation
import Bookkeeping.Proofs.Report.Evaluation
import Bookkeeping.Report.Expansion
import Bookkeeping.Storage.Report
import Bookkeeping.Proofs.Failure
import Bookkeeping.Proofs.Subtotal.Failures
import Bookkeeping.Proofs.Report.Guards
import Bookkeeping.Proofs.Decimal.ExactSum
import Bookkeeping.Proofs.Subtotal.Grouping
import Bookkeeping.Proofs.Subtotal.Balances
import Bookkeeping.Proofs.Subtotal.Finishing
import Bookkeeping.Proofs.Subtotal.GroupBy
import Bookkeeping.Proofs.Decimal.FundText
import Bookkeeping.Proofs.Subtotal.KeyOrder
import Bookkeeping.Proofs.Report.Flattening
import Bookkeeping.Proofs.Decimal.Rounding
import Bookkeeping.Proofs.Subtotal.Partition
import Bookkeeping.Proofs.Subtotal.Drift
import Bookkeeping.Proofs.Query.Selection
import Bookkeeping.Proofs.Subtotal.Selections
import Bookkeeping.Proofs.Calendar.Labels
import Bookkeeping.Proofs.Subtotal.ReadingDates
import Bookkeeping.Proofs.Presentation.Json
import Bookkeeping.Proofs.Calendar.Windows
import Bookkeeping.Proofs.Subtotal.ReadingValues
import Bookkeeping.Proofs.Subtotal.Worth
import Bookkeeping.Proofs.Subtotal.TakenOrder
import Bookkeeping.Proofs.Subtotal.Alike
import Bookkeeping.Proofs.Presentation.SiblingOrder
import Bookkeeping.Proofs.Presentation.TextOrder
import Bookkeeping.Proofs.Decimal.ExactProduct
import Bookkeeping.Proofs.Subtotal.LedgerOrder
import Bookkeeping.Proofs.Report.Reordering
import Bookkeeping.Proofs.Query.Boundedness
import Bookkeeping.Proofs.Exchange.History
import Bookkeeping.Proofs.Subtotal.WindowReadings
import Bookkeeping.Proofs.Decimal.WrittenForm
import Bookkeeping.Proofs.Calendar.WrittenForm
import Bookkeeping.Proofs.Storage.Requests
import Bookkeeping.Proofs.Storage.Ranges
import Bookkeeping.Proofs.Subtotal.ChangedReadings
import Bookkeeping.Proofs.Subtotal.Pruning
import Bookkeeping.Proofs.Subtotal.Counting
import Bookkeeping.Proofs.Exchange.Resolution
import Bookkeeping.Proofs.Exchange.EntryOrder
import Bookkeeping.Proofs.Calendar.Days
import Bookkeeping.Proofs.Calendar.Months
import Bookkeeping.Proofs.Calendar.Tiling
import Bookkeeping.Proofs.Calendar.Cycles
import Bookkeeping.Proofs.Subtotal.Conversion
import Bookkeeping.Proofs.Report.Gates
import Bookkeeping.Proofs.Query.Judgments
import Bookkeeping.Proofs.Query.Agreement
import Bookkeeping.Proofs.Query.StackNeed
import Bookkeeping.Proofs.Tolerance
import Bookkeeping.Proofs.Subtotal.WindowCover
import Bookkeeping.Proofs.Subtotal.Preorder
import Bookkeeping.Proofs.Presentation.TextLines
import Bookkeeping.Proofs.Decimal.SumOrder
