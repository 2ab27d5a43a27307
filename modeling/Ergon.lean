import Ergon.Runtime.AcceptedBlock
import Ergon.Db.ReverseLookup
import Ergon.Db.TxNumCache
import Ergon.Query.MerkleTree
import Ergon.Slp.BuildAlp
import Ergon.Slp.BuildSlp
import Ergon.Slp.LokadId
import Ergon.Token.MempoolBatch
import Ergon.Token.Order
import Ergon.Node.NextWork
import Ergon.Node.Reorg
import Ergon.Node.SubsidyOrder
import Ergon.Observer.Observe
import Ergon.Observer.Retention
import Ergon.Observer.Admission
import Ergon.Observer.EnvelopeRun
import Ergon.Archival.Worker
import Ergon.Archival.Reconcile
import Ergon.Mem.MempoolRuns
import Ergon.Db.ChainUtxos
import Ergon.Archival.Conflicts
import Ergon.Archival.Schedule
import Ergon.Archival.ReplayRun
import Ergon.Archival.Fence
import Ergon.Archival.OperatorBundle
import Ergon.Query.HistoryRequests
import Ergon.Runtime.QueryAbi
