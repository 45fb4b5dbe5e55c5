import IceRaft.Model.Core

/-!
# The in-memory Raft state

`RaftStateMachine` of `iceraft-node/src/state.rs` with its three role transitions
and `maybe_commit`.  The progress map is an association list without duplicate keys
and the vote set a finite set; only look-ups, insertions and counts are taken of
them, so the iteration order of the hash containers never shows.
-/

set_option autoImplicit false

namespace IceRaft

/-- The three roles a Raft node can occupy. -/
inductive RaftRole
  | follower
  | candidate
  | leader
  deriving DecidableEq, Repr

/-- Replication progress tracked per follower by the leader. -/
structure Progress where
  nextIndex : ℕ
  matchIndex : ℕ
  inFlight : Bool
  deriving DecidableEq, Repr

/-- `Progress::new`. -/
def Progress.new (nextIndex : ℕ) : Progress := ⟨nextIndex, 0, false⟩

/-- `HashMap<NodeId, Progress>`. -/
abbrev ProgressMap := AList fun _ : NodeId => Progress

/-- `map.values()`, in the order of the list. -/
def ProgressMap.values (m : ProgressMap) : List Progress := m.entries.map Sigma.snd

/-- All mutable Raft state held in memory. -/
structure RaftStateMachine where
  currentTerm : ℕ := 0
  votedFor : Option NodeId := none
  role : RaftRole := .follower
  commitIndex : ℕ := 0
  lastApplied : ℕ := 0
  leaderId : Option NodeId := none
  progress : ProgressMap := ∅
  votesReceived : Finset NodeId := ∅
  deriving DecidableEq

namespace RaftStateMachine

/-- `RaftStateMachine::new`. -/
def new : RaftStateMachine := {}

/-- Transition to follower for the given term.
SRCLINE: iceraft-node/src/state.rs:75-83 -/
def becomeFollower (term : ℕ) (leaderId : Option NodeId) (sm : RaftStateMachine) :
    RaftStateMachine :=
  { sm with
    role := .follower, currentTerm := term, votedFor := none, leaderId := leaderId,
    votesReceived := ∅, progress := ∅ }

/-- Transition to candidate and start an election.
SRCLINE: iceraft-node/src/state.rs:85-93 -/
def becomeCandidate (selfId : NodeId) (sm : RaftStateMachine) : RaftStateMachine :=
  { sm with
    currentTerm := sm.currentTerm + 1, role := .candidate, votedFor := some selfId,
    leaderId := none, votesReceived := {selfId} }

/-- The fresh progress map of a new leader. -/
def freshProgress (lastLogIndex : ℕ) (peers : List NodeId) : ProgressMap :=
  peers.foldl (fun m peer => m.insert peer (Progress.new (lastLogIndex + 1))) ∅

/-- Transition to leader.
SRCLINE: iceraft-node/src/state.rs:95-104 -/
def becomeLeader (selfId : NodeId) (lastLogIndex : ℕ) (peers : List NodeId)
    (sm : RaftStateMachine) : RaftStateMachine :=
  { sm with
    role := .leader, leaderId := some selfId,
    progress := freshProgress lastLogIndex peers }

/-- The number of nodes known to hold index `n`, the leader itself included. -/
def replicated (sm : RaftStateMachine) (n : ℕ) : ℕ :=
  sm.progress.values.countP (fun p => decide (p.matchIndex ≥ n)) + 1

/-- The loop of `maybe_commit`, at `n`. -/
def maybeCommitFrom (sm : RaftStateMachine) (quorum : ℕ) (currentTerm : ℕ)
    (termOf : ℕ → Option ℕ) : ℕ → RaftStateMachine × Option ℕ
  | 0 => (sm, none)
  | n + 1 =>
    if n + 1 > sm.commitIndex then
      -- Only commit entries from the current term (Raft safety rule).
      if termOf (n + 1) ≠ some currentTerm then
        maybeCommitFrom sm quorum currentTerm termOf n
      else if sm.replicated (n + 1) ≥ quorum then
        ({ sm with commitIndex := n + 1 }, some (n + 1))
      else
        maybeCommitFrom sm quorum currentTerm termOf n
    else (sm, none)

/-- Calculate the new commit index from the current match-index quorum.
SRCLINE: iceraft-node/src/state.rs:106-138 -/
def maybeCommit (sm : RaftStateMachine) (quorum : ℕ) (lastLogIndex : ℕ)
    (currentTerm : ℕ) (termOf : ℕ → Option ℕ) :
    RaftStateMachine × Option ℕ :=
  sm.maybeCommitFrom quorum currentTerm termOf lastLogIndex

end RaftStateMachine

end IceRaft
