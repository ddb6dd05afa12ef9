import Retention.Script.Run
import Retention.Proofs.Guest.Reachability
import Retention.Proofs.Search.Precedence
import Retention.Proofs.Search.Dangling
import Retention.Proofs.Module.Quiescence
import Retention.Proofs.Module.Publication
import Retention.Proofs.Module.Evaluation
import Retention.Proofs.Module.Reports
import Retention.Proofs.Search.Paths
import Retention.Proofs.Search.Closure
import Retention.Proofs.Guest.Chains
import Retention.Proofs.Guest.Resolving
import Retention.Proofs.Module.Routes
import Retention.Proofs.Realm.Arrays
import Retention.Proofs.Realm.Ledgers
import Retention.Proofs.Heap.Lengths
import Retention.Proofs.Realm.ReadOnly
import Retention.Proofs.Realm.OwnProperties
import Retention.Proofs.Heap.Inheritance
import Retention.Proofs.Module.Accounting
import Retention.Proofs.Search.Termination
import Retention.Proofs.Guest.Binding
import Retention.Proofs.Search.Registrations
import Retention.Proofs.Scanning
import Retention.Proofs.JointOwnership
import Retention.Proofs.Graph.Json
import Retention.Proofs.Number.Display
import Retention.Proofs.Numbering
import Retention.Proofs.Graph.Ascent
import Retention.Proofs.Search.Completions
