import LoonyRedis.Lib.Runs
import LoonyRedis.Lib.Quorum
import LoonyRedis.Lib.Splice
import LoonyRedis.Lib.Utf8
import LoonyRedis.Lib.Text
import LoonyRedis.Lib.Float64
import LoonyRedis.Lib.FinMap
import LoonyRedis.Lib.Placement
import LoonyRedis.Lib.Incremental
import LoonyRedis.Lib.Footprint
import LoonyRedis.RaftNode
import LoonyRedis.RaftCluster
import LoonyRedis.RaftElection
import LoonyRedis.RaftLogs
import LoonyRedis.RaftBallots
import LoonyRedis.RaftAcks
import LoonyRedis.RaftSafety
import LoonyRedis.RaftReplies
import LoonyRedis.RaftDecisions
import LoonyRedis.Frame
import LoonyRedis.Wire
import LoonyRedis.Lib.Cursor
import LoonyRedis.ParseSafety
import LoonyRedis.Connection
import LoonyRedis.ReplyTexts
import LoonyRedis.Replies
import LoonyRedis.Collections
import LoonyRedis.SortedSet
import LoonyRedis.SortedSetIndexes
import LoonyRedis.Contents
import LoonyRedis.ListEncodings
import LoonyRedis.Store
import LoonyRedis.Slots
import LoonyRedis.Requests
import LoonyRedis.Aof
import LoonyRedis.Commands
import LoonyRedis.ScorePairs
import LoonyRedis.ErrorReplies
import LoonyRedis.Expiry
import LoonyRedis.ExpiredKeys
import LoonyRedis.Replay
import LoonyRedis.SameContents
import LoonyRedis.Unchanged
import LoonyRedis.FullSync
import LoonyRedis.Resync
import LoonyRedis.Determinism
import LoonyRedis.AofCoverage
import LoonyRedis.AofRecords
import LoonyRedis.WriteOrder
import LoonyRedis.Membership
import LoonyRedis.Migration
import LoonyRedis.Resharding
import LoonyRedis.SlotTables
import LoonyRedis.ReadOnly
import LoonyRedis.KeyAccess
import LoonyRedis.KeyNames
import LoonyRedis.Ownership
import LoonyRedis.Transfer
import LoonyRedis.ExpiryTransfer
import LoonyRedis.FailedMigration
import LoonyRedis.LiveMigration
import LoonyRedis.MembershipRaces
import LoonyRedis.Lib.Serial
import LoonyRedis.ConcurrentCommands
import LoonyRedis.ExpiredRace
import LoonyRedis.MigrateCommand
import LoonyRedis.OneHop
import LoonyRedis.EmptyCollections
import LoonyRedis.Lib.Checked
import LoonyRedis.CheckedTables
import LoonyRedis.CheckedValues
import LoonyRedis.CheckedRequests
import LoonyRedis.CheckedCluster
import LoonyRedis.Panics
import LoonyRedis.Lib.Window
import LoonyRedis.ListParts
import LoonyRedis.Counters
import LoonyRedis.Lib.FloatOrder
import LoonyRedis.SortedSetOrder
import LoonyRedis.SortedSetRemovals
import LoonyRedis.ScoreUpdates
import LoonyRedis.StoreInvariants
import LoonyRedis.SortedSetScores
import LoonyRedis.SetExpiry
import LoonyRedis.Lib.Ascii
import LoonyRedis.KeywordOptions
import LoonyRedis.HashEncodings
import LoonyRedis.SetEncodings
import LoonyRedis.Lib.Traces
import LoonyRedis.Thresholds
import LoonyRedis.SetAlgebra
import LoonyRedis.Lib.Grouping
import LoonyRedis.MigrationPlan
import LoonyRedis.Lib.Ranges
import LoonyRedis.SlotRanges
import LoonyRedis.ForgetNode
import LoonyRedis.Health
import LoonyRedis.Gossip
import LoonyRedis.RaftWire
import LoonyRedis.Lib.Crc
import LoonyRedis.KeySlots
import LoonyRedis.RaftIndexing
import LoonyRedis.Lib.Tally
import LoonyRedis.CommandMetrics
import LoonyRedis.RaftOrder
import LoonyRedis.Lib.Replicas
import LoonyRedis.RaftStore
import LoonyRedis.RaftTransport
import LoonyRedis.Heartbeats
import LoonyRedis.Lib.Sharding
import LoonyRedis.ShardedStore
import LoonyRedis.AutoHeal
import LoonyRedis.ReplicaLink
import LoonyRedis.FailureNews
import LoonyRedis.Scaling
import LoonyRedis.Lib.Journal
import LoonyRedis.Durability
import LoonyRedis.Observations
