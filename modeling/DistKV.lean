import DistKV.Raft.Storage
import DistKV.Raft.Node
import DistKV.Raft.Cluster
import DistKV.Lib.TermLog
import DistKV.Lib.TermLogSafety
import DistKV.Lib.Reconfigure
import DistKV.Lib.Run
import DistKV.Raft.Guard
import DistKV.Raft.Replay
import DistKV.Raft.Stored
import DistKV.Storage.Wal
import DistKV.Raft.Section
import DistKV.Raft.StoreStep
import DistKV.Raft.Sends
import DistKV.Raft.Chain
import DistKV.Raft.Progress
import DistKV.Raft.ApplyStream
import DistKV.Raft.Calm
import DistKV.Raft.Clean
import DistKV.Raft.SnapshotAtomic
import DistKV.Raft.HardState
import DistKV.Raft.DirtyFlag
import DistKV.Raft.Durable
import DistKV.Raft.Quorum
import DistKV.Raft.JointQuorum
import DistKV.Raft.FixedVoters
import DistKV.Raft.Polls
import DistKV.Raft.Election
import DistKV.Raft.Track
import DistKV.Raft.Ghost
import DistKV.Raft.Simulate
import DistKV.Raft.Accept
import DistKV.Raft.Refinement
import DistKV.Raft.Safety
import DistKV.Raft.Agreement
import DistKV.Raft.ReadIndex
import DistKV.Raft.LogMatching
import DistKV.Raft.Origin
import DistKV.Raft.ConfFold
import DistKV.Raft.ConfDisk
import DistKV.Raft.Reapply
import DistKV.Raft.Reach
import DistKV.Raft.Standing
import DistKV.Raft.Versions
import DistKV.Raft.Membership
import DistKV.Raft.ConfHistory
import DistKV.Raft.Pending
import DistKV.Lib.Search
import DistKV.Lib.SortedRun
import DistKV.Storage.SSTable
import DistKV.Storage.TableFrames
import DistKV.Storage.TableFormat
import DistKV.Storage.RoundTrip
import DistKV.Storage.Malformed
import DistKV.Storage.Engine
import DistKV.Storage.EngineRefines
import DistKV.Storage.EngineSpec
import DistKV.Storage.EngineRuns
import DistKV.Storage.EngineCrash
import DistKV.Storage.LongValue
import DistKV.Storage.Transfer
import DistKV.Lib.HighWater
import DistKV.Server.StateMachine
import DistKV.Server.Dedup
import DistKV.Lib.Overwrite
import DistKV.Server.KvSpec
import DistKV.Server.Rebuild
import DistKV.Server.Retries
import DistKV.Server.Service
import DistKV.Server.Steps
import DistKV.Server.Addresses
import DistKV.Server.Announce
import DistKV.Server.Waiters
import DistKV.Server.MemberCalls
import DistKV.Server.JointExit
import DistKV.Server.Acks
import DistKV.Raft.Bounds
import DistKV.Raft.AppendSafety
import DistKV.Raft.Backtrack
import DistKV.Raft.DiskMemory
import DistKV.Raft.Records
import DistKV.Raft.ConfCodec
import DistKV.Server.Reads
import DistKV.Lib.Keyed
import DistKV.Lib.Framed
import DistKV.Linearizability.Model
import DistKV.Lib.Links
import DistKV.Storage.Skiplist
import DistKV.Storage.SkiplistRefines
import DistKV.Storage.EngineFaults
import DistKV.Server.Atomic
import DistKV.Raft.FailedInstall
import DistKV.Raft.Targets
import DistKV.Raft.Lasting
import DistKV.Raft.Alone
import DistKV.Raft.MatchIndex
import DistKV.Server.RealTime
