import FerricCache.Lib.Decimal
import FerricCache.Lib.OrdList
import FerricCache.Lib.Run
import FerricCache.Lib.Sections
import FerricCache.Lib.BigEndian
import FerricCache.Lib.Tables
import FerricCache.Lib.Circle
import FerricCache.Lib.Parser
import FerricCache.Lib.Slice
import FerricCache.Lib.Serial
import FerricCache.Basic
import FerricCache.Data.F64
import FerricCache.Data.Value
import FerricCache.Data.SortedSet
import FerricCache.Data.ScoreIndex
import FerricCache.Data.PopOrder
import FerricCache.Data.Representation
import FerricCache.Data.Ranks
import FerricCache.Data.Streams
import FerricCache.Storage.Sharded
import FerricCache.Storage.Slot
import FerricCache.Storage.Multi
import FerricCache.Storage.Single
import FerricCache.Storage.Slices
import FerricCache.Storage.ScoreRange
import FerricCache.Protocol.Command
import FerricCache.Server.Dispatch
import FerricCache.Server.Counters
import FerricCache.Commands
import FerricCache.Server.Keys
import FerricCache.Server.Programs
import FerricCache.Server.Moves
import FerricCache.Server.WritePaths
import FerricCache.Server.Failure
import FerricCache.Server.ExpirySlot
import FerricCache.Server.Expiry
import FerricCache.Server.Steady
import FerricCache.Server.Dated
import FerricCache.Server.ValueInvariant
import FerricCache.Server.Reachable
import FerricCache.Persistence.Wal
import FerricCache.Persistence.Replay
import FerricCache.Persistence.Snapshot
import FerricCache.Persistence.Rebuild
import FerricCache.Persistence.RoundTrip
import FerricCache.Persistence.LogFiles
import FerricCache.Persistence.Mirror
import FerricCache.Persistence.Recovery
import FerricCache.Persistence.Journal
import FerricCache.Persistence.Appenders
import FerricCache.Persistence.Truncation
import FerricCache.Persistence.TornRestart
import FerricCache.Persistence.RotateCrash
import FerricCache.Persistence.SnapshotRace
import FerricCache.Persistence.TimedRun
import FerricCache.Persistence.TimedReplay
import FerricCache.Persistence.ScriptWrites
import FerricCache.Security.Acl
import FerricCache.Cluster.Ring
import FerricCache.Cluster.Membership
import FerricCache.Cluster.Gossip
import FerricCache.Protocol.Resp
import FerricCache.Protocol.Parse
import FerricCache.Protocol.Frames
import FerricCache.Protocol.ParseCommand
import FerricCache.Protocol.Rejections
import FerricCache.Protocol.Panics
import FerricCache.Protocol.Arguments
import FerricCache.Protocol.SetOptions
import FerricCache.Protocol.Client
import FerricCache.Transactions
import FerricCache.Pubsub
import FerricCache.Scripting
import FerricCache.Server.Execute
import FerricCache.Server.Requests
import FerricCache.Server.Delivery
import FerricCache.Server.Pipeline
import FerricCache.Server.Malformed
import FerricCache.Server.ReplyTexts
import FerricCache.Server.WrongType
import FerricCache.Server.Determinism
import FerricCache.Server.Replies
import FerricCache.Server.ExecReply
import FerricCache.Server.Interleave
import FerricCache.Server.TxHistory
import FerricCache.Server.Chokepoint
import FerricCache.Server.Scores
import FerricCache.Replication.Handshake
import FerricCache.Security.Isolation
import FerricCache.Security.Confinement
import FerricCache.Security.ScriptAccess
import FerricCache.Cluster.Routing
import FerricCache.Cluster.Replicas
import FerricCache.Cluster.Network
import FerricCache.Server.Steps
import FerricCache.Server.Watched
import FerricCache.Server.Contention
import FerricCache.Server.Chronicle
import FerricCache.Server.Serializable
import FerricCache.Server.Ledger
import FerricCache.Persistence.LogOrder
import FerricCache.Persistence.Numbering
import FerricCache.Persistence.Damage
import FerricCache.Data.Extremes
import FerricCache.Storage.Algebra
import FerricCache.Storage.Occurrences
import FerricCache.Storage.Tallies
import FerricCache.Server.Capacity
import FerricCache.Server.Deadlines
import FerricCache.Persistence.Loading
import FerricCache.Server.KeyOps
