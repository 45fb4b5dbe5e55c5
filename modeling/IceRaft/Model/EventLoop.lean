import IceRaft.Lib.Runs
import IceRaft.Model.Node

/-!
# The event loop and the RPC server

The branches of `run_event_loop`, its restore block, and the three RPC entry points of
`RaftMessageHandler`.  Each takes the mutex once, so each is one turn.

A `Process` is a node with its event loop: the memory of the present uptime, whether
the loop still runs, and the history of all effects of all uptimes.  An activation of a
process runs one input to its end, or to a crash after any number of effects followed
by a restart on the same storage.
-/

set_option autoImplicit false

namespace IceRaft

/-- Messages handled by the event loop.
SRCLINE: iceraft-node/src/message.rs:7-47 -/
inductive RaftMessage
  | propose (proposal : Proposal)
  | readIndex (tx : Sender)
  | transferLeader (target : NodeId)
  | getLeader (tx : Sender)
  | getTerm (tx : Sender)
  | triggerSnapshot (index : ℕ)
  | shutdown
  | appendResponse (peer : NodeId) (reqLastIndex : ℕ) (resp : AppendEntriesResponse)
  | voteResponse (peer : NodeId) (resp : RequestVoteResponse)
  | snapshotResponse (peer : NodeId) (reqLastIndex : ℕ) (resp : InstallSnapshotResponse)
  deriving DecidableEq, Repr

/-- One activation of a node: an RPC request, or one branch of the `select!` of the
event loop.  The timer branch compares the clock with its two deadlines; `electionDue`
and `heartbeatDue` are the outcomes. -/
inductive Input
  | appendEntries (req : AppendEntriesRequest)
  | requestVote (req : RequestVoteRequest)
  | installSnapshot (req : InstallSnapshotRequest)
  | message (msg : RaftMessage)
  | timer (electionDue heartbeatDue : Bool)
  deriving DecidableEq, Repr

/-- A request, which the server handles whether or not the event loop runs. -/
def Input.isRpc : Input → Bool
  | .appendEntries _ => true
  | .requestVote _ => true
  | .installSnapshot _ => true
  | .message _ => false
  | .timer _ _ => false

/-- The peer whose response an input is. -/
def Input.responder? : Input → Option NodeId
  | .message (.voteResponse peer _) => some peer
  | .message (.appendResponse peer _ _) => some peer
  | .message (.snapshotResponse peer _ _) => some peer
  | _ => none

namespace NodeTurn

variable {σ : Type} [Storage σ]

/-- The restore block at the head of the event loop.
SRCLINE: iceraft-node/src/node.rs:195-207 -/
def restore (x : NodeTurn σ) : NodeTurn σ :=
  match x.read Storage.loadHardState with
  | (.ok hs, x) =>
    let x := x.modifySm fun sm =>
      { sm with
        currentTerm := hs.term,
        votedFor := if hs.vote = 0 then none else some hs.vote,
        commitIndex := hs.commit,
        lastApplied := hs.commit }
    x.effect (.restored x.sm.commitIndex)
  | (.error _, x) => x.effect (.restored x.sm.commitIndex)

/-- The `rx.recv()` branch.  `Shutdown` ends the loop, which is the business of
`Process.act`.
SRCLINE: iceraft-node/src/node.rs:226-267 -/
def handleMessage (cfg : RaftConfig) (msg : RaftMessage) (x : NodeTurn σ) : NodeTurn σ :=
  match msg with
  | .shutdown => x
  | .propose proposal => x.onProposal cfg proposal
  | .getLeader tx => x.effect (.answeredLeader tx x.sm.leaderId)
  | .getTerm tx => x.effect (.answeredTerm tx x.sm.currentTerm)
  | .readIndex tx => x.effect (.answered tx (.ok x.sm.commitIndex))
  | .transferLeader _ => x
  | .triggerSnapshot _ => x
  | .voteResponse peer resp => x.handleVoteResponse cfg peer resp
  | .appendResponse peer reqLastIndex resp => x.handleAppendResponse cfg peer reqLastIndex resp
  | .snapshotResponse peer reqLastIndex resp =>
    x.handleSnapshotResponse cfg peer reqLastIndex resp

/-- The timer branch.
SRCLINE: iceraft-node/src/node.rs:268-286 -/
def timerBranch (cfg : RaftConfig) (electionDue heartbeatDue : Bool) (x : NodeTurn σ) :
    NodeTurn σ :=
  if electionDue ∧ x.sm.role ≠ .leader then
    -- Election timeout fired → start election
    x.startElection cfg
  else if heartbeatDue ∧ x.sm.role = .leader then
    -- Heartbeat timeout fired → replicate / send heartbeats
    let x := x.replicateAll cfg
    let x := x.maybeAdvanceCommit cfg
    x.applyCommitted
  else x

/-- SRCLINE: iceraft-node/src/node.rs:161-167 -/
def handleAppendEntries (req : AppendEntriesRequest) (x : NodeTurn σ) : NodeTurn σ :=
  let r := x.onAppendEntries req
  r.2.effect (.replied (.appendEntries req r.1))

/-- SRCLINE: iceraft-node/src/node.rs:169-175 -/
def handleRequestVote (req : RequestVoteRequest) (x : NodeTurn σ) : NodeTurn σ :=
  let r := x.onRequestVote req
  r.2.effect (.replied (.requestVote req r.1))

/-- SRCLINE: iceraft-node/src/node.rs:177-183 -/
def handleInstallSnapshot (req : InstallSnapshotRequest) (x : NodeTurn σ) : NodeTurn σ :=
  let r := x.onInstallSnapshot req
  r.2.effect (.replied (.installSnapshot req r.1))

/-- The turn an input starts. -/
def run (cfg : RaftConfig) (input : Input) (x : NodeTurn σ) : NodeTurn σ :=
  match input with
  | .appendEntries req => x.handleAppendEntries req
  | .requestVote req => x.handleRequestVote req
  | .installSnapshot req => x.handleInstallSnapshot req
  | .message msg => x.handleMessage cfg msg
  | .timer electionDue heartbeatDue => x.timerBranch cfg electionDue heartbeatDue

end NodeTurn

/-! ## Processes -/

/-- A node with its event loop, and the effects of all its uptimes. -/
structure Process (σ : Type) where
  node : RaftNodeInner σ
  looping : Bool
  history : List Effect

namespace Process

variable {σ : Type} [Storage σ]

/-- `RaftNode::start` on `storage`, up to the end of the restore block, when no handler
takes the mutex in between; `Process.start` and `Process.restore` are the two apart.
SRCLINE: iceraft-node/src/node.rs:76-114, 160-207 -/
def boot (storage : σ) : Process σ :=
  let x := NodeTurn.restore (Turn.start (RaftNodeInner.new storage))
  ⟨x.node, true, x.effects⟩

/-- The turn of `input`. -/
def turn (cfg : RaftConfig) (input : Input) (p : Process σ) : NodeTurn σ :=
  NodeTurn.run cfg input (Turn.start p.node)

/-- The effects that happen when `input` is run and the process crashes as told. -/
def emitted (cfg : RaftConfig) (input : Input) (crashAt : Option ℕ) (p : Process σ) :
    List Effect :=
  match crashAt with
  | none => (p.turn cfg input).effects
  | some k => (p.turn cfg input).cutEffects k

/-- Run `input` to its end, or crash after the given number of effects and boot again
on the storage as it is then. -/
def act (cfg : RaftConfig) (input : Input) (crashAt : Option ℕ) (p : Process σ) : Process σ :=
  match crashAt with
  | none =>
    { node := (p.turn cfg input).node
      looping := p.looping && !decide (input = .message .shutdown)
      history := p.history ++ p.emitted cfg input none }
  | some k =>
    let next := boot ((p.turn cfg input).cutNode p.node k).storage
    { next with history := p.history ++ p.emitted cfg input (some k) ++ next.history }

/-- A process after a list of activations, each with the crash that may come with it. -/
abbrev exec (cfg : RaftConfig) (p : Process σ) (es : List (Input × Option ℕ)) : Process σ :=
  Runs.exec (fun p e => p.act cfg e.1 e.2) p es

end Process

end IceRaft
