import IceRaft.Lib.Runs
import IceRaft.Model.Client
import IceRaft.Model.EventLoop

/-!
# The cluster

The processes of a cluster and the packets between them.  An RPC task puts a request
on the network, the handler of the peer turns it into a response, and the response is
delivered to the event loop of the sender.  The network delivers packets in any order;
it may keep one back, lose it or deliver it twice.  A crash loses the tasks of the
process: their requests stay on the network, but nobody waits for the responses.

A process that starts, or starts again after a crash, restores its hard state before its
handlers run; `Launch` has the runs in which it need not.
-/

set_option autoImplicit false

namespace IceRaft

namespace RaftConfig

/-- A quorum is more than half of the members.  Duplicates in `peers` only raise it. -/
theorem card_members_lt (cfg : RaftConfig) : cfg.members.card < 2 * cfg.quorum := by
  have hle : cfg.members.card ≤ cfg.peers.length + 1 := by
    rw [members]
    refine Nat.le_trans (Finset.card_insert_le _ _) ?_
    exact Nat.succ_le_succ (List.toFinset_card_le _)
  unfold quorum
  omega

/-- Two majorities of the members share a member, whoever counted them. -/
theorem quorum_inter {cfg cfg' : RaftConfig} (hmembers : cfg.members = cfg'.members)
    {Q Q' : Finset NodeId} (hQ : Q ⊆ cfg.members) (hQ' : Q' ⊆ cfg'.members)
    (hcard : cfg.quorum ≤ Q.card) (hcard' : cfg'.quorum ≤ Q'.card) : ∃ v, v ∈ Q ∧ v ∈ Q' := by
  have hsum : cfg.members.card < Q.card + Q'.card := by
    have hhalf := cfg.card_members_lt
    have hhalf' := cfg'.card_members_lt
    rw [← hmembers] at hhalf'
    omega
  rw [← hmembers] at hQ'
  obtain ⟨v, hv⟩ := Finset.inter_nonempty_of_card_lt_card_add_card hQ hQ' hsum
  exact ⟨v, (Finset.mem_inter.mp hv).1, (Finset.mem_inter.mp hv).2⟩

end RaftConfig

/-- A member set and a configuration for each member.  A node is not among its own
peers: the field `peers` of `RaftConfig` is documented so. -/
structure ClusterConfig where
  members : Finset NodeId
  config : NodeId → RaftConfig
  config_id : ∀ i ∈ members, (config i).id = i
  config_members : ∀ i ∈ members, (config i).members = members
  config_peers : ∀ i ∈ members, i ∉ (config i).peers

namespace ClusterConfig

/-- Two quorums of members, each of the size that some member asks for, share one. -/
theorem quorum_inter (cc : ClusterConfig) {i j : NodeId} (hi : i ∈ cc.members)
    (hj : j ∈ cc.members) {Q Q' : Finset NodeId} (hQ : Q ⊆ cc.members) (hQ' : Q' ⊆ cc.members)
    (hcard : (cc.config i).quorum ≤ Q.card) (hcard' : (cc.config j).quorum ≤ Q'.card) :
    ∃ v, v ∈ Q ∧ v ∈ Q' := by
  have hmi := cc.config_members i hi
  have hmj := cc.config_members j hj
  apply RaftConfig.quorum_inter (hmi.trans hmj.symm) _ _ hcard hcard'
  · rw [hmi]
    exact hQ
  · rw [hmj]
    exact hQ'

/-- The cluster of the given nodes, with the default configuration. -/
def ofIds (ids : List NodeId) (h : ids.Nodup) : ClusterConfig where
  members := ids.toFinset
  config i := { id := i, peers := ids.erase i }
  config_id _ _ := rfl
  config_members i hi := by
    ext k
    simp only [RaftConfig.members, Finset.mem_insert, List.mem_toFinset, h.mem_erase_iff]
    rw [List.mem_toFinset] at hi
    by_cases hk : k = i
    · simp [hk, hi]
    · simp [hk]
  config_peers i _ hmem := (h.mem_erase_iff.mp hmem).1 rfl

end ClusterConfig

/-- What is on the network. -/
inductive Packet
  /-- the request of a task of `src`, and whether the task still waits -/
  | request (src : NodeId) (waiting : Bool) (task : RpcTask)
  /-- a response message on its way into the event loop of `dst` -/
  | response (dst : NodeId) (msg : RaftMessage)
  deriving DecidableEq, Repr

/-- The message a task of `src` queues when it gets `reply`; an error ends the task.
SRCLINE: iceraft-node/src/node.rs:543-547, 628-636, 654-662 -/
def RpcTask.response (src : NodeId) : RpcTask → RpcReply → Option Packet
  | .requestVote peer _, .requestVote _ (.ok resp) =>
    some (.response src (.voteResponse peer resp))
  | .appendEntries peer reqLastIndex _, .appendEntries _ (.ok resp) =>
    some (.response src (.appendResponse peer reqLastIndex resp))
  | .installSnapshot peer reqLastIndex _, .installSnapshot _ (.ok resp) =>
    some (.response src (.snapshotResponse peer reqLastIndex resp))
  | _, _ => none

/-- The request a task sends, as an input of its peer. -/
def RpcTask.input : RpcTask → Input
  | .requestVote _ req => .requestVote req
  | .appendEntries _ _ req => .appendEntries req
  | .installSnapshot _ _ req => .installSnapshot req

/-- The packet an effect of `i` puts on the network; `asker` is the waiting task whose
request is being handled. -/
def Effect.packet (i : NodeId) (asker : Option (NodeId × RpcTask)) : Effect → Option Packet
  | .spawned task => some (.request i true task)
  | .replied reply =>
    match asker with
    | some (src, task) => task.response src reply
    | none => none
  | _ => none

/-- The packet of an effect is the request of the task it spawned, or the response to the
task it answered. -/
theorem Effect.packet_cases {i : NodeId} {asker : Option (NodeId × RpcTask)} {e : Effect}
    {p : Packet} (hp : e.packet i asker = some p) :
    (∃ task, e = .spawned task ∧ p = .request i true task) ∨
    (∃ src peer req resp, e = .replied (.requestVote req (.ok resp)) ∧
      p = .response src (.voteResponse peer resp)) ∨
    (∃ src peer last req resp, e = .replied (.appendEntries req (.ok resp)) ∧
      p = .response src (.appendResponse peer last resp)) ∨
    ∃ src peer last req resp, e = .replied (.installSnapshot req (.ok resp)) ∧
      p = .response src (.snapshotResponse peer last resp) := by
  cases e with
  | spawned task =>
    cases hp
    exact .inl ⟨task, rfl, rfl⟩
  | replied reply =>
    cases asker with
    | none => cases hp
    | some q =>
      obtain ⟨src, task⟩ := q
      simp only [Effect.packet, RpcTask.response] at hp
      split at hp
      · cases hp
        exact .inr (.inl ⟨src, _, _, _, rfl, rfl⟩)
      · cases hp
        exact .inr (.inr (.inl ⟨src, _, _, _, _, rfl, rfl⟩))
      · cases hp
        exact .inr (.inr (.inr ⟨src, _, _, _, _, rfl, rfl⟩))
      · cases hp
  | _ => cases hp

/-- What the death of process `i` does to a packet. -/
def Packet.orphan (i : NodeId) : Packet → Option Packet
  | .request src waiting task => some (.request src (waiting && !decide (src = i)) task)
  | .response dst msg => if dst = i then none else some (.response dst msg)

/-- The calls of a client; `propose`, `leader`, `term` and `shutdown` of `RaftNode`
create the channel of the message themselves.  The event loop also takes `ReadIndex`,
`TransferLeader` and `TriggerSnapshot`, for which `RaftNode` has no method: nothing in the
repository sends them. -/
inductive ClientCall
  | propose (data : Bytes)
  | readIndex
  | leader
  | term
  | transferLeader (target : NodeId)
  | triggerSnapshot (index : ℕ)
  | shutdown
  deriving DecidableEq, Repr

/-- The message of a call whose channel is `tx`.
SRCLINE: iceraft-node/src/node.rs:116-149, iceraft-node/src/message.rs:8-37 -/
def ClientCall.message (tx : Sender) : ClientCall → RaftMessage
  | .propose data => .propose ⟨data, some tx⟩
  | .readIndex => .readIndex tx
  | .leader => .getLeader tx
  | .term => .getTerm tx
  | .transferLeader target => .transferLeader target
  | .triggerSnapshot index => .triggerSnapshot index
  | .shutdown => .shutdown

/-- One thing that can happen in a cluster. -/
inductive Action
  /-- the timer branch of the event loop of `i` -/
  | timer (i : NodeId) (electionDue heartbeatDue : Bool)
  /-- a client message reaches the event loop of `i` -/
  | client (i : NodeId) (call : ClientCall)
  /-- the `ping_leader` of a cluster client reaches the handlers of `i` -/
  | ping (i : NodeId)
  /-- the `k`-th packet is delivered -/
  | deliver (k : ℕ)
  /-- the network copies the `k`-th packet -/
  | duplicate (k : ℕ)
  /-- the network loses the `k`-th packet -/
  | lose (k : ℕ)
  deriving DecidableEq, Repr

/-- An action; when `crashAt` is set, the process it activates crashes after that many
effects and is restarted. -/
structure Event where
  action : Action
  crashAt : Option ℕ := none
  deriving DecidableEq, Repr

/-- The state of a cluster. -/
structure Cluster (σ : Type) where
  proc : NodeId → Process σ
  net : List Packet
  /-- the next channel nobody has used -/
  nextSender : Sender

namespace Cluster

variable {σ : Type} [Storage σ]

/-- Every process has booted on its storage, and nothing is on the network. -/
def init (stores : NodeId → σ) : Cluster σ := ⟨fun i => .boot (stores i), [], 0⟩

/-- The process an action activates, and with which input. -/
def input? (cc : ClusterConfig) (c : Cluster σ) : Action → Option (NodeId × Input)
  | .timer i electionDue heartbeatDue =>
    if i ∈ cc.members ∧ (c.proc i).looping then some (i, .timer electionDue heartbeatDue)
    else none
  | .client i call =>
    if i ∈ cc.members ∧ (c.proc i).looping then
      some (i, .message (call.message c.nextSender))
    else none
  | .ping i =>
    if i ∈ cc.members then some (i, .appendEntries RaftClusterClient.pingRequest) else none
  | .deliver k =>
    match c.net[k]? with
    | some (.request _ _ task) =>
      if task.peer ∈ cc.members then some (task.peer, task.input) else none
    | some (.response dst msg) =>
      if dst ∈ cc.members ∧ (c.proc dst).looping then some (dst, .message msg) else none
    | none => none
  | .duplicate _ => none
  | .lose _ => none

/-- The waiting task whose request an action delivers. -/
def asker (c : Cluster σ) : Action → Option (NodeId × RpcTask)
  | .deliver k =>
    match c.net[k]? with
    | some (.request src true task) => some (src, task)
    | _ => none
  | _ => none

/-- What an action does to the packets already on the network. -/
def netAfter (c : Cluster σ) : Action → List Packet
  | .deliver k => c.net.eraseIdx k
  | .duplicate k => c.net ++ c.net[k]?.toList
  | .lose k => c.net.eraseIdx k
  | _ => c.net

/-- What an action, and the crash that may come with it, leaves of the packets. -/
def survivors (c : Cluster σ) (i : NodeId) (e : Event) : List Packet :=
  match e.crashAt with
  | none => c.netAfter e.action
  | some _ => (c.netAfter e.action).filterMap (Packet.orphan i)

/-- The packets an activation of `i` adds; those of a crashed process are orphans. -/
def added (cc : ClusterConfig) (c : Cluster σ) (i : NodeId) (input : Input) (e : Event) :
    List Packet :=
  let new := ((c.proc i).emitted (cc.config i) input e.crashAt).filterMap
    (Effect.packet i (c.asker e.action))
  match e.crashAt with
  | none => new
  | some _ => new.filterMap (Packet.orphan i)

/-- The process `i` runs `input`. -/
def activate (cc : ClusterConfig) (c : Cluster σ) (i : NodeId) (input : Input) (e : Event) :
    Cluster σ where
  proc := fun j => if j = i then (c.proc i).act (cc.config i) input e.crashAt else c.proc j
  net := c.survivors i e ++ c.added cc i input e
  nextSender := c.nextSender + 1

/-- One event. -/
def step (cc : ClusterConfig) (c : Cluster σ) (e : Event) : Cluster σ :=
  match c.input? cc e.action with
  | some (i, input) => c.activate cc i input e
  | none => { c with net := c.netAfter e.action }

/-- The state after a list of events. -/
abbrev exec (cc : ClusterConfig) (c : Cluster σ) (es : List Event) : Cluster σ :=
  Runs.exec (step cc) c es

/-- A condition on one activation: on the configuration and the state of the node, its
input, and the crash that may come with it. -/
abbrev Condition (σ : Type) := RaftConfig → RaftNodeInner σ → Input → Option ℕ → Prop

/-- The activation that `e` causes in `c`, if any, meets `cond`. -/
def Meets (cc : ClusterConfig) (cond : Condition σ) (c : Cluster σ) (e : Event) : Prop :=
  match c.input? cc e.action with
  | some (i, input) => cond (cc.config i) (c.proc i).node input e.crashAt
  | none => True

omit [Storage σ] in
/-- An event that meets a condition meets it at the process it activates. -/
theorem Meets.of_input {cc : ClusterConfig} {cond : Condition σ} {c : Cluster σ} {e : Event}
    (h : c.Meets cc cond e) {i : NodeId} {input : Input}
    (hin : c.input? cc e.action = some (i, input)) :
    cond (cc.config i) (c.proc i).node input e.crashAt := by
  unfold Meets at h
  rw [hin] at h
  exact h

omit [Storage σ] in
/-- A condition on activations may be weakened. -/
theorem Meets.mono {cc : ClusterConfig} {cond cond' : Condition σ}
    (himp : ∀ cfg n input crashAt, cond cfg n input crashAt → cond' cfg n input crashAt)
    {c : Cluster σ} {e : Event} (h : c.Meets cc cond e) : c.Meets cc cond' e := by
  unfold Meets at *
  split
  · rename_i heq
    rw [heq] at h
    exact himp _ _ _ _ h
  · trivial

instance (cc : ClusterConfig) (cond : Condition σ)
    [∀ cfg n input crash, Decidable (cond cfg n input crash)] (c : Cluster σ) (e : Event) :
    Decidable (c.Meets cc cond e) := by
  unfold Meets
  cases c.input? cc e.action with
  | none => exact inferInstanceAs (Decidable True)
  | some q => exact inferInstanceAs (Decidable (cond (cc.config q.1) (c.proc q.1).node q.2 _))

/-- Every activation of the run from `c` along `es` meets `cond`. -/
abbrev Within (cc : ClusterConfig) (cond : Condition σ) (c : Cluster σ) (es : List Event) :
    Prop :=
  Runs.Within (step cc) (Meets cc cond) c es

end Cluster

end IceRaft
