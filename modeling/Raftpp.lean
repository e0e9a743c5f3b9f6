import Raftpp.Log.Compacted
import Raftpp.Flow.ReadQueue
import Raftpp.Flow.Inflights
import Raftpp.Flow.Aggressive
import Raftpp.Membership.QuorumMeaning
import Raftpp.Ready.Lagging
import Raftpp.Log.AnyAppend
import Raftpp.Ready.Stream
import Raftpp.Ready.Uncommitted
import Raftpp.Ready.Promises
import Raftpp.Membership.Pending
import Raftpp.Membership.SnapshotRestore
import Raftpp.Membership.AutoLeave
import Raftpp.Membership.Departed
import Raftpp.Membership.GroupMode
import Raftpp.Cluster.Votes
import Raftpp.Cluster.Checksums
import Raftpp.Raftor.MustSync
import Raftpp.Raftor.Create
import Raftpp.Raftor.Restart
import Raftpp.Raftor.ProposalTracker
import Raftpp.Wal.Metadata
import Raftpp.Wal.Names
import Raftpp.Wal.FailedUpdate
import Raftpp.Rpc.FrameSize
