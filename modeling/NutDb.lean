import NutDb.StoreCrash
import NutDb.StoreFaults
import NutDb.BTreeRuns
import NutDb.SnapshotShape
import NutDb.Mvcc.Conflict
import NutDb.Mvcc.Faults
import NutDb.Lib.Raft
import NutDb.Raft.Safety
import NutDb.Raft.AnyNode
import NutDb.Raft.Crash
import NutDb.Raft.NetworkSafety
import NutDb.Server.Acknowledged
import NutDb.PagerRuns
import NutDb.WalDamage
import NutDb.ZeroTail
import NutDb.LinearizabilityCriterion
import NutDb.Server.Forward
import NutDb.Server.Read
import NutDb.Catalog
import NutDb.Lib.SortedMap
import NutDb.Lib.StableSort
import NutDb.Mvcc.Scan
import NutDb.Sql.Database
import NutDb.Sql.Crash
import NutDb.Sql.Names
import NutDb.Sql.Runs
import NutDb.Sql.Select
import NutDb.Sql.Write
import NutDb.Sql.RoundTrip
import NutDb.Sql.FrontEnd
import NutDb.Sql.Isolation
import NutDb.Lib.Timeline
import NutDb.Mvcc.Chains
import NutDb.Raft.Codec
import NutDb.Server.Client
import NutDb.Server.Quorum
import NutDb.Raft.NetworkCrash
import NutDb.Sql.Script
import NutDb.Mvcc.Serial
import NutDb.Mvcc.Collect
import NutDb.Raft.Progress
import NutDb.PagerLru
import NutDb.BTreeSize
import NutDb.Raft.Transport
import NutDb.Server.Rounds
import NutDb.Server.Register
import NutDb.Server.History
