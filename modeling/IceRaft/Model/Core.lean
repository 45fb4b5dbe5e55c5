import Mathlib.Algebra.Group.Nat.Defs
import Mathlib.Data.Finset.Insert
import Mathlib.Data.List.AList

/-!
# Shared types

The primitive types, the configuration, the log entry, the persistent records and
the error type of `iceraft-core`, and the wire messages of `proto/raft.proto`.

Every `u64` of the source is a natural number here, and its aliases `Term` and
`LogIndex` are written `ℕ`.  Subtraction is where ordinary
runs of the code can leave the range of `u64`, so it has a definition of its own
(`u64Sub`); an addition of the model is the addition of the code as long as its
result is at most `u64Max`.  Which runs keep the sums in range is the subject of
`Analysis.Limits`; where a result speaks of the last values of `u64` itself, its log is a
`WordStorage`, whose sums wrap around as well (`u64Add`, `toU64`).
-/

set_option autoImplicit false

namespace IceRaft

/-- Unique identifier for a cluster member. -/
abbrev NodeId := ℕ

/-- `Vec<u8>`. -/
abbrev Bytes := List UInt8

/-- The sending half of a `oneshot` channel.  A sender cannot be cloned, so a number
that is used once stands for it. -/
abbrev Sender := ℕ

/-- `u64::MAX`. -/
def u64Max : ℕ := 2 ^ 64 - 1

/-- `a - b` on `u64` as a release build computes it: an underflow wraps around. -/
def u64Sub (a b : ℕ) : ℕ := if b ≤ a then a - b else a + 2 ^ 64 - b

/-- A difference in range is exact. -/
@[simp] theorem u64Sub_of_le {a b : ℕ} (h : b ≤ a) : u64Sub a b = a - b := if_pos h

/-- What arrives where a sum or product `a` is handed on as a `u64`: its low 64 bits. -/
def toU64 (a : ℕ) : ℕ := a % 2 ^ 64

/-- `a + b` on `u64` as a release build computes it: an overflow wraps around. -/
def u64Add (a b : ℕ) : ℕ := toU64 (a + b)

/-- A value in range stays. -/
@[simp] theorem toU64_of_le {a : ℕ} (h : a ≤ u64Max) : toU64 a = a :=
  Nat.mod_eq_of_lt (Nat.lt_of_le_pred (Nat.two_pow_pos 64) h)

/-- A sum in range is exact. -/
@[simp] theorem u64Add_of_le {a b : ℕ} (h : a + b ≤ u64Max) : u64Add a b = a + b := toU64_of_le h

/-- Every `u64` is at most the largest one. -/
theorem toU64_le (a : ℕ) : toU64 a ≤ u64Max := Nat.le_pred_of_lt (Nat.mod_lt _ (Nat.two_pow_pos 64))

/-- Behind the largest `u64` comes 0. -/
@[simp] theorem u64Add_max : u64Add u64Max 1 = 0 := by decide

/-- `Result::unwrap_or`. -/
def unwrapOr {ε α : Type} (r : Except ε α) (default : α) : α :=
  match r with
  | .ok a => a
  | .error _ => default

/-- A result is kept. -/
@[simp] theorem unwrapOr_ok {ε α : Type} (a d : α) : unwrapOr (.ok a : Except ε α) d = a := rfl

/-- An error is replaced by the default. -/
@[simp] theorem unwrapOr_error {ε α : Type} (e : ε) (d : α) :
    unwrapOr (.error e : Except ε α) d = d := rfl

/-! ## Errors -/

/-- `RaftError`, with the payload of each variant. -/
inductive RaftError
  | invalidConfig (message : String)
  | notLeader (leaderId : Option NodeId)
  | storage (message : String)
  | network (message : String)
  | shutdown
  | logCompacted (requested firstAvailable : ℕ)
  | logUnavailable (index : ℕ)
  | snapshot (message : String)
  | channelClosed
  | timeout
  | other (message : String)
  deriving DecidableEq, Repr

/-! ## Configuration -/

/-- `RaftConfig`: the fields the modelled functions read. -/
structure RaftConfig where
  /-- Unique ID of this node within the cluster. -/
  id : NodeId
  /-- All peer node IDs (NOT including self). -/
  peers : List NodeId
  heartbeatIntervalMs : ℕ := 100
  electionTimeoutMinMs : ℕ := 300
  electionTimeoutMaxMs : ℕ := 600
  /-- Maximum number of log entries per AppendEntries RPC. -/
  maxAppendEntries : ℕ := 128
  deriving DecidableEq, Repr

namespace RaftConfig

/-- `RaftConfig::validate`.
SRCLINE: iceraft-core/src/lib.rs:68-81 -/
def validate (cfg : RaftConfig) : Except RaftError Unit :=
  if cfg.electionTimeoutMinMs ≥ cfg.electionTimeoutMaxMs then
    .error (.invalidConfig
      "election_timeout_min_ms must be less than election_timeout_max_ms")
  else if cfg.heartbeatIntervalMs ≥ cfg.electionTimeoutMinMs then
    .error (.invalidConfig
      "heartbeat_interval_ms must be less than election_timeout_min_ms")
  else
    .ok ()

/-- All member IDs (self + peers).
SRCLINE: iceraft-core/src/lib.rs:83-88 -/
def members (cfg : RaftConfig) : Finset NodeId := insert cfg.id cfg.peers.toFinset

/-- Quorum size for the current configuration.
SRCLINE: iceraft-core/src/lib.rs:90-93 -/
def quorum (cfg : RaftConfig) : ℕ := (cfg.peers.length + 1) / 2 + 1

end RaftConfig

/-! ## Log entries and persistent records -/

/-- Type of a log entry. -/
inductive EntryType
  | normal
  | confChange
  deriving DecidableEq, Repr

/-- A single entry in the Raft log. -/
structure LogEntry where
  term : ℕ
  index : ℕ
  data : Bytes
  entryType : EntryType
  deriving DecidableEq, Repr

/-- Raft hard state; `vote = 0` says that no vote was cast in `term`. -/
structure HardState where
  term : ℕ := 0
  vote : NodeId := 0
  commit : ℕ := 0
  deriving DecidableEq, Repr

/-- Metadata attached to a snapshot. -/
structure SnapshotMeta where
  lastIncludedIndex : ℕ
  lastIncludedTerm : ℕ
  confNodes : List NodeId
  deriving DecidableEq, Repr

/-- A complete snapshot of the application state machine. -/
structure Snapshot where
  data : Bytes
  metadata : SnapshotMeta
  deriving DecidableEq, Repr

/-- A client proposal to append data to the Raft log. -/
structure Proposal where
  data : Bytes
  tx : Option Sender
  deriving DecidableEq, Repr

/-! ## Wire messages -/

/-- `raft.Entry`; `entry_type` travels as an `i32`. -/
structure ProtoEntry where
  term : ℕ
  index : ℕ
  data : Bytes
  entryType : ℤ
  deriving DecidableEq, Repr

/-- `ProtoEntryType::EntryNormal as i32`. -/
def entryNormal : ℤ := 0

/-- `ProtoEntryType::EntryConfChange as i32`. -/
def entryConfChange : ℤ := 1

/-- SRCLINE: iceraft-node/src/node.rs:852-863 -/
def protoEntryToLogEntry (e : ProtoEntry) : LogEntry where
  term := e.term
  index := e.index
  data := e.data
  entryType := if e.entryType = entryConfChange then .confChange else .normal

/-- SRCLINE: iceraft-node/src/node.rs:865-875 -/
def logEntryToProtoEntry (e : LogEntry) : ProtoEntry where
  term := e.term
  index := e.index
  data := e.data
  entryType := match e.entryType with
    | .normal => entryNormal
    | .confChange => entryConfChange

/-- An entry survives the wire. -/
@[simp] theorem protoEntryToLogEntry_logEntryToProtoEntry (e : LogEntry) :
    protoEntryToLogEntry (logEntryToProtoEntry e) = e := by
  obtain ⟨t, i, d, ty⟩ := e
  cases ty <;> rfl

/-- A batch of entries survives the wire. -/
@[simp] theorem map_protoEntryToLogEntry (es : List LogEntry) :
    (es.map logEntryToProtoEntry).map protoEntryToLogEntry = es := by
  simp [Function.comp_def]

/-- `raft.AppendEntriesRequest`. -/
structure AppendEntriesRequest where
  term : ℕ
  leaderId : NodeId
  prevLogIndex : ℕ
  prevLogTerm : ℕ
  entries : List ProtoEntry
  leaderCommit : ℕ
  deriving DecidableEq, Repr

/-- `raft.AppendEntriesResponse`. -/
structure AppendEntriesResponse where
  term : ℕ
  success : Bool
  conflictIndex : ℕ
  conflictTerm : ℕ
  deriving DecidableEq, Repr

/-- `raft.RequestVoteRequest`. -/
structure RequestVoteRequest where
  term : ℕ
  candidateId : NodeId
  lastLogIndex : ℕ
  lastLogTerm : ℕ
  preVote : Bool
  deriving DecidableEq, Repr

/-- `raft.RequestVoteResponse`. -/
structure RequestVoteResponse where
  term : ℕ
  voteGranted : Bool
  deriving DecidableEq, Repr

/-- `raft.InstallSnapshotRequest`, one chunk of a snapshot. -/
structure InstallSnapshotRequest where
  term : ℕ
  leaderId : NodeId
  lastIncludedIndex : ℕ
  lastIncludedTerm : ℕ
  offset : ℕ
  data : Bytes
  done : Bool
  deriving DecidableEq, Repr

/-- `raft.InstallSnapshotResponse`. -/
structure InstallSnapshotResponse where
  term : ℕ
  deriving DecidableEq, Repr

/-- `raft.SnapshotMetadata`, the metadata half of `snapshot_buf`. -/
structure SnapshotMetadata where
  index : ℕ
  term : ℕ
  confNodes : List NodeId
  deriving DecidableEq, Repr

end IceRaft
