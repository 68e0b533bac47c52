import ToyDfba.Proofs.Aborts
import ToyDfba.Proofs.Answers
import ToyDfba.Proofs.ArrivalOrder
import ToyDfba.Proofs.Batching
import ToyDfba.Proofs.Bystanders
import ToyDfba.Proofs.Crank
import ToyDfba.Proofs.DoubleEntry
import ToyDfba.Proofs.Events
import ToyDfba.Proofs.Idle
import ToyDfba.Proofs.Improvements
import ToyDfba.Proofs.Lifecycle
import ToyDfba.Proofs.Limits
import ToyDfba.Proofs.OrderIds
import ToyDfba.Proofs.OrdersRoute
import ToyDfba.Proofs.Overfull
import ToyDfba.Proofs.Results
import ToyDfba.Proofs.Scaling
import ToyDfba.Proofs.Services
import ToyDfba.Proofs.Splitting
import ToyDfba.Proofs.Storage
import ToyDfba.Proofs.Symmetry
import ToyDfba.Proofs.Unbacked
import ToyDfba.Proofs.Windows
