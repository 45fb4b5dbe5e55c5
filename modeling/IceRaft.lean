import IceRaft.Lib.Runs
import IceRaft.Lib.Turn
import IceRaft.Lib.TermLog
import IceRaft.Lib.IndexedLog
import IceRaft.Lib.ReplicatedLog
import IceRaft.Lib.LeaderCompleteness
import IceRaft.Lib.SharedLog
import IceRaft.Lib.LabelledMoves
import IceRaft.Lib.DownwardScan
import IceRaft.Lib.BinarySearch
import IceRaft.Lib.CappedPrefix
import IceRaft.Model.Core
import IceRaft.Model.Storage
import IceRaft.Model.State
import IceRaft.Model.Node
import IceRaft.Model.Words
import IceRaft.Model.EventLoop
import IceRaft.Model.Cluster
import IceRaft.Model.Launch
import IceRaft.Analysis.LaunchRuns
import IceRaft.Interface.Observations
import IceRaft.Interface.Conditions
import IceRaft.Interface.StorageContract
import IceRaft.Analysis.Simulation
import IceRaft.Analysis.PureReads
import IceRaft.Analysis.TurnFrame
import IceRaft.Analysis.VoteFrame
import IceRaft.Analysis.SnapshotTurns
import IceRaft.Analysis.ElectionSafety
import IceRaft.Analysis.VoteDurability
import IceRaft.Analysis.Restart
import IceRaft.Analysis.Startup
import IceRaft.Analysis.MemLog
import IceRaft.Analysis.MirroredTurns
import IceRaft.Analysis.WordLog
import IceRaft.Analysis.Progress
import IceRaft.Analysis.ReplicationState
import IceRaft.Analysis.ReplicationTurns
import IceRaft.Analysis.ReplicationRequests
import IceRaft.Analysis.ReplicationCommit
import IceRaft.Analysis.ReplicationRun
import IceRaft.Analysis.LogMatching
import IceRaft.Analysis.CommitSafety
import IceRaft.Analysis.LeaderTurns
import IceRaft.Analysis.Bookkeeping
import IceRaft.Analysis.BookkeepingTurns
import IceRaft.Analysis.BookkeepingRun
import IceRaft.Analysis.IndexOrder
import IceRaft.Analysis.TermOrder
import IceRaft.Analysis.Delivery
import IceRaft.Analysis.Acknowledgement
import IceRaft.Analysis.StorageRefinement
import IceRaft.Analysis.StaleMessages
import IceRaft.Analysis.FollowerTurns
import IceRaft.Analysis.Truncation
import IceRaft.Analysis.CatchUp
import IceRaft.Analysis.ConflictSearch
import IceRaft.Analysis.Transitions
import IceRaft.Analysis.Candidacy
import IceRaft.Analysis.RoleState
import IceRaft.Analysis.Quorums
import IceRaft.Analysis.WaitingProposals
import IceRaft.Interface.FlakyStorage
import IceRaft.Analysis.PersistBeforeReply
import IceRaft.Analysis.FailedSaves
import IceRaft.Model.Timers
import IceRaft.Analysis.ElectionClock
import IceRaft.Analysis.Answers
import IceRaft.Analysis.ReadIndex
import IceRaft.Analysis.CommitChoice
import IceRaft.Analysis.ReplicateRequest
import IceRaft.Analysis.WordCatchUp
import IceRaft.Analysis.CappedReads
import IceRaft.Analysis.CompactedLog
import IceRaft.Analysis.SnapshotOrder
import IceRaft.Analysis.SnapshotSuffix
import IceRaft.Interface.ProbedStorage
import IceRaft.Analysis.SnapshotTransfer
import IceRaft.Analysis.ProgressTurns
import IceRaft.Analysis.ProgressOrder
import IceRaft.Model.Client
import IceRaft.Analysis.LeaderDiscovery
import IceRaft.Analysis.CommitCounter
import IceRaft.Analysis.ApplyStream
import IceRaft.Analysis.Limits
import IceRaft.Analysis.LeaderLog
import IceRaft.Analysis.LogRefinement
import IceRaft.Analysis.AgreedLog
import IceRaft.Analysis.WriteOrder
import IceRaft.Analysis.NodeMachine
import IceRaft.Analysis.Chronicle
import IceRaft.Analysis.LeaderHint
import IceRaft.Analysis.Partition
import IceRaft.Lib.Possibility
import IceRaft.Analysis.Schedules
import IceRaft.Analysis.Failover
import IceRaft.Analysis.Rounds
import IceRaft.Analysis.Recovery
import IceRaft.Analysis.Durability
import IceRaft.Analysis.TurnSteps
import IceRaft.Analysis.Provenance
import IceRaft.Analysis.ProposalOrder
import IceRaft.Analysis.Calls
import IceRaft.Analysis.CrashElections
