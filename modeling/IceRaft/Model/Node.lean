import IceRaft.Lib.Turn
import IceRaft.Model.State
import IceRaft.Model.Storage
import Mathlib.Data.Finset.Card
import Mathlib.Data.Int.Basic

/-!
# The node

`RaftNodeInner` and its methods, from `iceraft-node/src/node.rs`.  A method runs under
the mutex of the node, so it is one turn: it changes the node and has effects, in
order, on the outside.  A task spawned for an RPC is the effect of spawning it; the
request it sends and the response it queues belong to the cluster.

Log output (`info!`, `warn!`, `debug!`, `error!`) is not modelled.  Three lines that
announce a transition are: they are the effects `electionStarted`, `becameLeader` and
`accepted`, which leave no other trace outside the memory of the node.
-/

set_option autoImplicit false

namespace IceRaft

/-! ## Effects -/

/-- A task that sends one RPC to `peer` and queues the response. -/
inductive RpcTask
  | requestVote (peer : NodeId) (req : RequestVoteRequest)
  | appendEntries (peer : NodeId) (reqLastIndex : ℕ) (req : AppendEntriesRequest)
  | installSnapshot (peer : NodeId) (reqLastIndex : ℕ) (req : InstallSnapshotRequest)
  deriving DecidableEq, Repr

/-- The node a task addresses. -/
def RpcTask.peer : RpcTask → NodeId
  | .requestVote peer _ => peer
  | .appendEntries peer _ _ => peer
  | .installSnapshot peer _ _ => peer

/-- The outcome of an RPC handler, with the request it answers. -/
inductive RpcReply
  | requestVote (req : RequestVoteRequest) (result : Except RaftError RequestVoteResponse)
  | appendEntries (req : AppendEntriesRequest)
      (result : Except RaftError AppendEntriesResponse)
  | installSnapshot (req : InstallSnapshotRequest)
      (result : Except RaftError InstallSnapshotResponse)

/-- What a turn of a node does outside its memory. -/
inductive Effect
  /-- a write to the storage returned -/
  | wrote
  /-- a task was spawned -/
  | spawned (task : RpcTask)
  /-- a reply was handed to the RPC server -/
  | replied (reply : RpcReply)
  /-- "starting election" -/
  | electionStarted (term : ℕ)
  /-- "became leader" -/
  | becameLeader (term : ℕ)
  /-- a proposal was appended as `entry` and `tx` waits for it -/
  | accepted (tx : Sender) (entry : LogEntry)
  /-- the outcome of a proposal or of a read index went out on `tx` -/
  | answered (tx : Sender) (result : Except RaftError ℕ)
  | answeredLeader (tx : Sender) (leader : Option NodeId)
  | answeredTerm (tx : Sender) (term : ℕ)
  /-- an entry was sent on `apply_tx` -/
  | applied (entry : LogEntry)
  /-- the restore block finished with this commit index -/
  | restored (commit : ℕ)

/-! ## State -/

/-- The gauge and counter values of `RaftMetrics`. -/
structure RaftMetrics where
  electionsStarted : ℕ := 0
  votesGranted : ℕ := 0
  leaderChanges : ℕ := 0
  appendEntriesReceived : ℕ := 0
  entriesCommitted : ℕ := 0
  snapshotsInstalled : ℕ := 0
  currentTerm : ℤ := 0
  commitIndex : ℤ := 0
  deriving DecidableEq, Repr

/-- `x as i64` of a `u64`. -/
def asI64 (x : ℕ) : ℤ := Int.bmod x (2 ^ 64)

/-- `RaftNodeInner`, less the configuration, which never changes and is an argument of
the methods that read it, and less the transport and the channels, whose use is an
effect. -/
structure RaftNodeInner (σ : Type) where
  sm : RaftStateMachine
  storage : σ
  metrics : RaftMetrics
  /-- Pending proposals waiting for their log entry to commit. -/
  pending : List (ℕ × Sender)
  /-- Snapshot data being assembled from InstallSnapshot chunks. -/
  snapshotBuf : Option (SnapshotMetadata × Bytes)

/-- The node `RaftNode::start` builds, before the event loop has restored anything.
SRCLINE: iceraft-node/src/node.rs:87-96 -/
def RaftNodeInner.new {σ : Type} (storage : σ) : RaftNodeInner σ :=
  ⟨.new, storage, {}, [], none⟩

/-- A turn of a node. -/
abbrev NodeTurn (σ : Type) := Turn (RaftNodeInner σ) Effect

namespace NodeTurn

variable {σ : Type}

/-- `self.sm`, at this point of the turn. -/
abbrev sm (x : NodeTurn σ) : RaftStateMachine := x.node.sm

/-- A change of the node. -/
abbrev update (f : RaftNodeInner σ → RaftNodeInner σ) (x : NodeTurn σ) : NodeTurn σ :=
  Turn.modify f x

/-- An effect of the node. -/
abbrev effect (e : Effect) (x : NodeTurn σ) : NodeTurn σ := Turn.emit e x

/-- A change of `self.sm`. -/
def modifySm (f : RaftStateMachine → RaftStateMachine) (x : NodeTurn σ) : NodeTurn σ :=
  x.update fun n => { n with sm := f n.sm }

/-- A change of `self.metrics`. -/
def modifyMetrics (f : RaftMetrics → RaftMetrics) (x : NodeTurn σ) : NodeTurn σ :=
  x.update fun n => { n with metrics := f n.metrics }

/-- A storage call that reads. -/
def read {α : Type} (op : σ → Except RaftError α × σ) (x : NodeTurn σ) :
    Except RaftError α × NodeTurn σ :=
  ((op x.node.storage).1, x.update fun n => { n with storage := (op x.node.storage).2 })

/-- A storage call that writes. -/
def write {α : Type} (op : σ → Except RaftError α × σ) (x : NodeTurn σ) :
    Except RaftError α × NodeTurn σ :=
  ((op x.node.storage).1,
    (x.update fun n => { n with storage := (op x.node.storage).2 }).effect .wrote)

variable [Storage σ]

/-- `self.storage.last_index().await.unwrap_or(0)` -/
def lastIndexOr0 (x : NodeTurn σ) : ℕ × NodeTurn σ :=
  let r := x.read Storage.lastIndex
  (unwrapOr r.1 0, r.2)

/-- `if index > 0 { self.storage.term(index).await.unwrap_or(0) } else { 0 }` -/
def termOr0 (index : ℕ) (x : NodeTurn σ) : ℕ × NodeTurn σ :=
  if index > 0 then
    let r := x.read (Storage.term index)
    (unwrapOr r.1 0, r.2)
  else (0, x)

/-! ## Helpers -/

/-- An error of the storage is logged and otherwise ignored.
SRCLINE: iceraft-node/src/node.rs:822-832 -/
def saveHardState (x : NodeTurn σ) : NodeTurn σ :=
  let hs : HardState := ⟨x.sm.currentTerm, x.sm.votedFor.getD 0, x.sm.commitIndex⟩
  let r := x.write (Storage.saveHardState hs)
  r.2.modifyMetrics fun m => { m with currentTerm := asI64 x.sm.currentTerm }

/-- `become_follower` followed by `save_hard_state`, as all six handlers do it when
they see a higher term. -/
def stepDown (term : ℕ) (leaderId : Option NodeId) (x : NodeTurn σ) : NodeTurn σ :=
  (x.modifySm (.becomeFollower term leaderId)).saveHardState

/-- The loop of `first_index_of_term`; it runs at most `hi - lo` times, and `fuel` is
that number. -/
def searchTerm (term : ℕ) : ℕ → ℕ → ℕ → NodeTurn σ → ℕ × NodeTurn σ
  | 0, lo, _, x => (lo, x)
  | fuel + 1, lo, hi, x =>
    if lo < hi then
      let mid := lo + (hi - lo) / 2
      match x.read (Storage.term mid) with
      | (.ok t, x) =>
        if t < term then searchTerm term fuel (mid + 1) hi x
        else searchTerm term fuel lo mid x
      | (.error _, x) => searchTerm term fuel lo mid x
    else (lo, x)

/-- Binary search for the first index at which `term` appears, up to `upper`.
SRCLINE: iceraft-node/src/node.rs:834-847 -/
def firstIndexOfTerm (term : ℕ) (upper : ℕ) (x : NodeTurn σ) :
    ℕ × NodeTurn σ :=
  let r := x.read Storage.firstIndex
  let first := unwrapOr r.1 1
  searchTerm term (upper - first) first upper r.2

/-! ## RPC handlers -/

/-- The `reject` closure of `on_append_entries`. -/
def reject (conflictIndex : ℕ) (conflictTerm term : ℕ) : AppendEntriesResponse :=
  ⟨term, false, conflictIndex, conflictTerm⟩

/-- The consistency check on `prev_log_index` / `prev_log_term`; `none` lets the
request through.
SRCLINE: iceraft-node/src/node.rs:327-342 -/
def checkPrevLog (req : AppendEntriesRequest) (x : NodeTurn σ) :
    Option AppendEntriesResponse × NodeTurn σ :=
  if req.prevLogIndex > 0 then
    match x.read (Storage.term req.prevLogIndex) with
    | (.error (.logCompacted _ _), x) =>
      -- Snapshot covers the prev entry – fine to continue.
      (none, x)
    | (.error _, x) => (some (reject req.prevLogIndex 0 x.sm.currentTerm), x)
    | (.ok t, x) =>
      if t ≠ req.prevLogTerm then
        -- Find first index of the conflicting term for fast rollback.
        let r := x.firstIndexOfTerm t req.prevLogIndex
        (some (reject r.1 t r.2.sm.currentTerm), r.2)
      else (none, x)
  else (none, x)

/-- SRCLINE: iceraft-node/src/node.rs:344-352 -/
def appendBatch (req : AppendEntriesRequest) (x : NodeTurn σ) :
    Except RaftError Unit × NodeTurn σ :=
  if req.entries.isEmpty then (.ok (), x)
  else x.write (Storage.appendEntries (req.entries.map protoEntryToLogEntry))

/-- SRCLINE: iceraft-node/src/node.rs:354-359 -/
def advanceCommit (req : AppendEntriesRequest) (x : NodeTurn σ) : NodeTurn σ :=
  if req.leaderCommit > x.sm.commitIndex then
    let r := x.lastIndexOr0
    (r.2.modifySm fun sm => { sm with commitIndex := min req.leaderCommit r.1 }).saveHardState
  else x

/-- SRCLINE: iceraft-node/src/node.rs:302-368 -/
def onAppendEntries (req : AppendEntriesRequest) (x : NodeTurn σ) :
    Except RaftError AppendEntriesResponse × NodeTurn σ :=
  -- Step down if we see a higher term.
  let x := if req.term > x.sm.currentTerm then x.stepDown req.term (some req.leaderId) else x
  if req.term < x.sm.currentTerm then
    (.ok (reject 0 0 x.sm.currentTerm), x)
  else
    let x := x.modifySm fun sm => { sm with leaderId := some req.leaderId }
    match x.checkPrevLog req with
    | (some resp, x) => (.ok resp, x)
    | (none, x) =>
      match x.appendBatch req with
      | (.error e, x) => (.error e, x)
      | (.ok (), x) =>
        let x := x.advanceCommit req
        let x := x.modifyMetrics fun m =>
          { m with appendEntriesReceived := m.appendEntriesReceived + 1 }
        (.ok ⟨x.sm.currentTerm, true, 0, 0⟩, x)

/-- `matches!(self.sm.voted_for, Some(v) if v != req.candidate_id)` -/
def alreadyVoted (sm : RaftStateMachine) (candidateId : NodeId) : Bool :=
  match sm.votedFor with
  | some v => v ≠ candidateId
  | none => false

/-- `candidate_log_ok`, for our last index and term. -/
def candidateLogOk (req : RequestVoteRequest) (ourLastIndex : ℕ) (ourLastTerm : ℕ) :
    Bool :=
  req.lastLogTerm > ourLastTerm ∨
    (req.lastLogTerm = ourLastTerm ∧ req.lastLogIndex ≥ ourLastIndex)

/-- SRCLINE: iceraft-node/src/node.rs:370-416 -/
def onRequestVote (req : RequestVoteRequest) (x : NodeTurn σ) :
    Except RaftError RequestVoteResponse × NodeTurn σ :=
  let x := if req.term > x.sm.currentTerm then x.stepDown req.term none else x
  if req.term < x.sm.currentTerm then
    (.ok ⟨x.sm.currentTerm, false⟩, x)
  else if alreadyVoted x.sm req.candidateId then
    (.ok ⟨x.sm.currentTerm, false⟩, x)
  else
    -- Check log up-to-dateness.
    let ourLastIndex := x.lastIndexOr0
    let ourLastTerm := ourLastIndex.2.termOr0 ourLastIndex.1
    let x := ourLastTerm.2
    if candidateLogOk req ourLastIndex.1 ourLastTerm.1 then
      let x := x.modifySm fun sm => { sm with votedFor := some req.candidateId }
      let x := x.saveHardState
      let x := x.modifyMetrics fun m => { m with votesGranted := m.votesGranted + 1 }
      (.ok ⟨x.sm.currentTerm, true⟩, x)
    else
      (.ok ⟨x.sm.currentTerm, false⟩, x)

/-- A failed `apply_snapshot` leaves the extended buffer behind.
SRCLINE: iceraft-node/src/node.rs:418-467 -/
def onInstallSnapshot (req : InstallSnapshotRequest) (x : NodeTurn σ) :
    Except RaftError InstallSnapshotResponse × NodeTurn σ :=
  let x := if req.term > x.sm.currentTerm then x.stepDown req.term (some req.leaderId) else x
  if req.term < x.sm.currentTerm then
    (.ok ⟨x.sm.currentTerm⟩, x)
  else
    let buf := x.node.snapshotBuf.getD (⟨req.lastIncludedIndex, req.lastIncludedTerm, []⟩, [])
    let data := buf.2 ++ req.data
    let x := x.update fun n => { n with snapshotBuf := some (buf.1, data) }
    if req.done then
      let snapshot : Snapshot := ⟨data, ⟨buf.1.index, buf.1.term, buf.1.confNodes⟩⟩
      match x.write (Storage.applySnapshot snapshot) with
      | (.error e, x) => (.error e, x)
      | (.ok (), x) =>
        let x := x.modifySm fun sm =>
          { sm with
            commitIndex := max sm.commitIndex req.lastIncludedIndex,
            lastApplied := max sm.lastApplied req.lastIncludedIndex }
        let x := x.update fun n => { n with snapshotBuf := none }
        let x := x.saveHardState
        let x := x.modifyMetrics fun m =>
          { m with snapshotsInstalled := m.snapshotsInstalled + 1 }
        (.ok ⟨x.sm.currentTerm⟩, x)
    else
      (.ok ⟨x.sm.currentTerm⟩, x)

/-! ## Replication -/

/-- SRCLINE: iceraft-node/src/node.rs:639-667 -/
def sendSnapshotTo (cfg : RaftConfig) (peer : NodeId) (x : NodeTurn σ) : NodeTurn σ :=
  match x.read Storage.snapshot with
  | (.ok (some snap), x) =>
    x.effect (.spawned (.installSnapshot peer snap.metadata.lastIncludedIndex
      { term := x.sm.currentTerm, leaderId := cfg.id,
        lastIncludedIndex := snap.metadata.lastIncludedIndex,
        lastIncludedTerm := snap.metadata.lastIncludedTerm,
        offset := 0, data := snap.data, done := true }))
  | (.ok none, x) => x
  | (.error _, x) => x

/-- The tail of `replicate_to`: build the request and spawn its task.
SRCLINE: iceraft-node/src/node.rs:616-636 -/
def sendAppend (cfg : RaftConfig) (peer : NodeId) (prevLogIndex : ℕ)
    (prevLogTerm : ℕ) (entries : List ProtoEntry) (x : NodeTurn σ) : NodeTurn σ :=
  x.effect (.spawned (.appendEntries peer (prevLogIndex + entries.length)
    { term := x.sm.currentTerm, leaderId := cfg.id, prevLogIndex := prevLogIndex,
      prevLogTerm := prevLogTerm, entries := entries, leaderCommit := x.sm.commitIndex }))

/-- SRCLINE: iceraft-node/src/node.rs:574-637 -/
def replicateTo (cfg : RaftConfig) (peer : NodeId) (x : NodeTurn σ) : NodeTurn σ :=
  match x.sm.progress.lookup peer with
  | none => x
  | some progress =>
    let prevLogIndex := u64Sub progress.nextIndex 1
    let prevLogTerm := x.termOr0 prevLogIndex
    let lastIndex := prevLogTerm.2.lastIndexOr0
    let x := lastIndex.2
    if lastIndex.1 ≥ progress.nextIndex then
      match x.read (Storage.entries progress.nextIndex (lastIndex.1 + 1)
          (some (cfg.maxAppendEntries * 4096))) with
      | (.ok es, x) =>
        x.sendAppend cfg peer prevLogIndex prevLogTerm.1 (es.map logEntryToProtoEntry)
      | (.error (.logCompacted _ _), x) =>
        -- Need to send snapshot instead.
        x.sendSnapshotTo cfg peer
      | (.error _, x) => x
    else
      x.sendAppend cfg peer prevLogIndex prevLogTerm.1 []

/-- Send AppendEntries (or heartbeat) to every peer.
SRCLINE: iceraft-node/src/node.rs:562-572 -/
def replicateAll (cfg : RaftConfig) (x : NodeTurn σ) : NodeTurn σ :=
  if x.sm.role ≠ .leader then x
  else cfg.peers.foldl (fun x peer => x.replicateTo cfg peer) x

/-! ## Proposal -/

/-- SRCLINE: iceraft-node/src/node.rs:471-503 -/
def onProposal (cfg : RaftConfig) (proposal : Proposal) (x : NodeTurn σ) : NodeTurn σ :=
  let answer (result : Except RaftError ℕ) (x : NodeTurn σ) : NodeTurn σ :=
    match proposal.tx with
    | some tx => x.effect (.answered tx result)
    | none => x
  if x.sm.role ≠ .leader then
    answer (.error (.notLeader x.sm.leaderId)) x
  else
    let lastIndex := x.lastIndexOr0
    let x := lastIndex.2
    let newIndex := lastIndex.1 + 1
    let entry : LogEntry := ⟨x.sm.currentTerm, newIndex, proposal.data, .normal⟩
    match x.write (Storage.appendEntries [entry]) with
    | (.error e, x) => answer (.error e) x
    | (.ok (), x) =>
      let x := match proposal.tx with
        | some tx =>
          (x.update fun n => { n with pending := n.pending ++ [(newIndex, tx)] }).effect
            (.accepted tx entry)
        | none => x
      -- Immediately attempt replication.
      x.replicateAll cfg

/-! ## Election -/

/-- `become_leader`, the two lines that announce it, and the immediate heartbeats. -/
def takeLeadership (cfg : RaftConfig) (x : NodeTurn σ) : NodeTurn σ :=
  let lastIndex := x.lastIndexOr0
  let x := lastIndex.2.modifySm (.becomeLeader cfg.id lastIndex.1 cfg.peers)
  let x := x.effect (.becameLeader x.sm.currentTerm)
  let x := x.modifyMetrics fun m => { m with leaderChanges := m.leaderChanges + 1 }
  x.replicateAll cfg

/-- SRCLINE: iceraft-node/src/node.rs:507-558 -/
def startElection (cfg : RaftConfig) (x : NodeTurn σ) : NodeTurn σ :=
  let x := x.modifySm (.becomeCandidate cfg.id)
  let x := x.saveHardState
  let lastIndex := x.lastIndexOr0
  let lastTerm := lastIndex.2.termOr0 lastIndex.1
  let x := lastTerm.2
  let x := x.effect (.electionStarted x.sm.currentTerm)
  let x := x.modifyMetrics fun m => { m with electionsStarted := m.electionsStarted + 1 }
  let req : RequestVoteRequest :=
    { term := x.sm.currentTerm, candidateId := cfg.id, lastLogIndex := lastIndex.1,
      lastLogTerm := lastTerm.1, preVote := false }
  -- Fan out RequestVote RPCs as independent tasks.
  let x := cfg.peers.foldl (fun x peer => x.effect (.spawned (.requestVote peer req))) x
  if x.sm.votesReceived.card ≥ cfg.quorum ∧ x.sm.role = .candidate then
    x.takeLeadership cfg
  else x

/-! ## Commit and apply -/

/-- The commit loop, at `n`: walk down to the highest index of the current term that a
quorum holds.
SRCLINE: iceraft-node/src/node.rs:758-779 -/
def commitScan (cfg : RaftConfig) : ℕ → NodeTurn σ → ℕ × NodeTurn σ
  | 0, x => (x.sm.commitIndex, x)
  | n + 1, x =>
    if n + 1 > x.sm.commitIndex then
      let entryTerm := x.read (Storage.term (n + 1))
      let x := entryTerm.2
      if unwrapOr entryTerm.1 0 = x.sm.currentTerm ∧ x.sm.replicated (n + 1) ≥ cfg.quorum then
        (n + 1, x)
      else commitScan cfg n x
    else (x.sm.commitIndex, x)

/-- One step of the notification loop. -/
def notifyOne (commit : ℕ) (x : NodeTurn σ) (waiting : ℕ × Sender) :
    NodeTurn σ :=
  if waiting.1 ≤ commit then x.effect (.answered waiting.2 (.ok waiting.1))
  else x.update fun n => { n with pending := n.pending ++ [waiting] }

/-- Notify pending proposals that have committed.
SRCLINE: iceraft-node/src/node.rs:791-800 -/
def notifyPending (x : NodeTurn σ) : NodeTurn σ :=
  let commit := x.sm.commitIndex
  let oldPending := x.node.pending
  oldPending.foldl (notifyOne commit) (x.update fun n => { n with pending := [] })

/-- SRCLINE: iceraft-node/src/node.rs:749-801 -/
def maybeAdvanceCommit (cfg : RaftConfig) (x : NodeTurn σ) : NodeTurn σ :=
  if x.sm.role ≠ .leader then x
  else
    let lastIndex := x.lastIndexOr0
    let scan := lastIndex.2.commitScan cfg lastIndex.1
    let newCommit := scan.1
    let x := scan.2
    let x := if newCommit > x.sm.commitIndex then
        let x := x.modifySm fun sm => { sm with commitIndex := newCommit }
        let x := x.saveHardState
        x.modifyMetrics fun m =>
          { m with
            entriesCommitted := m.entriesCommitted + u64Sub newCommit x.sm.lastApplied,
            commitIndex := asI64 newCommit }
      else x
    x.notifyPending

/-- Send one entry on `apply_tx`; nothing can come between the send and the update of
`last_applied`, so the effect is recorded after both. -/
def applyOne (x : NodeTurn σ) (entry : LogEntry) : NodeTurn σ :=
  (x.modifySm fun sm => { sm with lastApplied := entry.index }).effect (.applied entry)

/-- SRCLINE: iceraft-node/src/node.rs:803-818 -/
def applyCommitted (x : NodeTurn σ) : NodeTurn σ :=
  let lo := x.sm.lastApplied + 1
  let hi := x.sm.commitIndex
  if lo > hi then x
  else
    match x.read (Storage.entries lo (hi + 1) none) with
    | (.ok es, x) => es.foldl applyOne x
    | (.error _, x) => x

/-! ## Responses -/

/-- SRCLINE: iceraft-node/src/node.rs:673-695 -/
def handleVoteResponse (cfg : RaftConfig) (peer : NodeId) (resp : RequestVoteResponse)
    (x : NodeTurn σ) : NodeTurn σ :=
  if resp.term > x.sm.currentTerm then x.stepDown resp.term none
  else if resp.voteGranted ∧ x.sm.role = .candidate then
    let x := x.modifySm fun sm => { sm with votesReceived := insert peer sm.votesReceived }
    if x.sm.votesReceived.card ≥ cfg.quorum then x.takeLeadership cfg else x
  else x

/-- The new progress of a peer after an AppendEntries response.
SRCLINE: iceraft-node/src/node.rs:711-723 -/
def progressAfterAppend (reqLastIndex : ℕ) (resp : AppendEntriesResponse)
    (p : Progress) : Progress :=
  if resp.success then
    let matchIndex := max p.matchIndex reqLastIndex
    { matchIndex := matchIndex, nextIndex := matchIndex + 1, inFlight := false }
  else if resp.conflictIndex > 0 then
    { p with nextIndex := resp.conflictIndex }
  else
    { p with nextIndex := max (p.nextIndex - 1) 1 }

/-- The new progress of a peer after an InstallSnapshot response.
SRCLINE: iceraft-node/src/node.rs:741-745 -/
def progressAfterSnapshot (reqLastIndex : ℕ) (p : Progress) : Progress :=
  let matchIndex := max p.matchIndex reqLastIndex
  { matchIndex := matchIndex, nextIndex := matchIndex + 1, inFlight := false }

/-- `if let Some(p) = self.sm.progress.get_mut(&peer) { … }` -/
def updateProgress (peer : NodeId) (f : Progress → Progress) (sm : RaftStateMachine) :
    RaftStateMachine :=
  match sm.progress.lookup peer with
  | some p => { sm with progress := sm.progress.insert peer (f p) }
  | none => sm

/-- SRCLINE: iceraft-node/src/node.rs:697-725 -/
def handleAppendResponse (cfg : RaftConfig) (peer : NodeId) (reqLastIndex : ℕ)
    (resp : AppendEntriesResponse) (x : NodeTurn σ) : NodeTurn σ :=
  if resp.term > x.sm.currentTerm then x.stepDown resp.term none
  else if x.sm.role ≠ .leader then x
  else
    (x.modifySm (updateProgress peer (progressAfterAppend reqLastIndex resp))).maybeAdvanceCommit
      cfg

/-- SRCLINE: iceraft-node/src/node.rs:727-747 -/
def handleSnapshotResponse (cfg : RaftConfig) (peer : NodeId) (reqLastIndex : ℕ)
    (resp : InstallSnapshotResponse) (x : NodeTurn σ) : NodeTurn σ :=
  if resp.term > x.sm.currentTerm then x.stepDown resp.term none
  else if x.sm.role ≠ .leader then x
  else
    (x.modifySm (updateProgress peer (progressAfterSnapshot reqLastIndex))).maybeAdvanceCommit cfg

end NodeTurn

end IceRaft
