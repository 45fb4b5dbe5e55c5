import IceRaft.Model.Node

/-!
# The client's search for the leader

`RaftClusterClient` of `iceraft-client`.  It probes the members one after the other with an
AppendEntries request; what the network makes of each probe, and the state in which the
probe finds the node, are arguments, so anything may happen in the cluster between two
probes.
-/

set_option autoImplicit false

namespace IceRaft

/-- A cluster client that discovers and follows the current leader. -/
structure RaftClusterClient where
  /-- Known current leader, refreshed on redirect. -/
  knownLeader : Option NodeId := none
  /-- All cluster member IDs. -/
  members : List NodeId
  deriving DecidableEq, Repr

/-- What the network makes of a probe. -/
inductive ProbeFate
  /-- the request does not get to the node -/
  | lost
  /-- the node handles it, but the reply does not get back -/
  | unanswered
  | answered
  deriving DecidableEq, Repr

/-- What becomes of one probe, and the node it finds. -/
structure Visit (σ : Type) where
  fate : ProbeFate
  node : RaftNodeInner σ

namespace RaftClusterClient

variable {σ : Type} [Storage σ]

/-- The heartbeat of a probe. -/
def pingRequest : AppendEntriesRequest where
  term := 0
  leaderId := 0
  prevLogIndex := 0
  prevLogTerm := 0
  entries := []
  leaderCommit := 0

/-- Whether the transport returns a reply, and the node behind the probe.
SRCLINE: iceraft-client/src/lib.rs:34-50 -/
def pingLeader (visit : Visit σ) : Bool × RaftNodeInner σ :=
  let r := NodeTurn.onAppendEntries pingRequest (Turn.start visit.node)
  match visit.fate with
  | .lost => (false, visit.node)
  | .unanswered => (false, r.2.node)
  | .answered =>
    match r.1 with
    | .ok _ => (true, r.2.node)
    | .error _ => (false, r.2.node)

/-- The loop of `find_leader`, with the visits it makes. -/
def tryMembers : List (NodeId × Visit σ) → Option NodeId × List (NodeId × Visit σ)
  | [] => (none, [])
  | (member, visit) :: rest =>
    if (pingLeader visit).1 then (some member, [(member, visit)])
    else ((tryMembers rest).1, (member, visit) :: (tryMembers rest).2)

/-- The members in their order, each with the visit that a probe would be. -/
def tour (client : RaftClusterClient) (visits : ℕ → Visit σ) : List (NodeId × Visit σ) :=
  client.members.mapIdx fun k member => (member, visits k)

/-- The leader found, the client with it as the known leader, and the visits made.
SRCLINE: iceraft-client/src/lib.rs:52-62 -/
def findLeader (client : RaftClusterClient) (visits : ℕ → Visit σ) :
    Option NodeId × RaftClusterClient × List (NodeId × Visit σ) :=
  let found := tryMembers (client.tour visits)
  (found.1, { client with knownLeader := found.1.or client.knownLeader }, found.2)

end RaftClusterClient

end IceRaft
