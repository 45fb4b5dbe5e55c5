import IceRaft.Analysis.History
import IceRaft.Analysis.ReplicationCommit
import IceRaft.Analysis.ReplicationRequests

/-!
# Runs of a replicated cluster

Every turn and every restart is followed, so every state of a run from empty storages is
related to a replicated log.  The one assumption is that no term has two leaders; it is
what lets a leadership become an ownership.
-/

set_option autoImplicit false

namespace IceRaft

open ReplicatedLog Cluster Abstraction

variable {cc : ClusterConfig} {p : Prop} {a b : Ghost} {i : NodeId} {h H : List Effect}

/-- Every turn keeps the relation. -/
theorem replication_turn (hi : i ∈ cc.members) {asker : Option (NodeId × RpcTask)}
    {n : RaftNodeInner MemStorage} {input : Input} {crashAt : Option ℕ} (hg : GoodGhost cc p a)
    (hr : Replica cc p a i h n) (hcause : Cause (PacketOk cc p a) i asker input)
    (hcond : StrictIf p (cc.config i) n input crashAt) :
    RepFollows cc p a i h asker n (Rep cc p i)
      (NodeTurn.run (cc.config i) input (Turn.start n)) := by
  have hx : RepFollows cc p a i h asker n (Rep cc p i) (Turn.start n) :=
    Follows.start hg hr.disk hr
  cases input with
  | appendEntries req =>
    exact RepFollows.handleAppendEntries hg hr hcause fun hp => (hcond hp).2.2
  | requestVote req => exact hx.handleRequestVote hi hg hcause
  | installSnapshot req =>
    obtain ⟨src, waiting, last, hpacket, -⟩ := hcause.installSnapshot
    exact absurd rfl (hpacket.snapshot src waiting i last req)
  | timer electionDue heartbeatDue => exact hx.timerBranch hi hg electionDue heartbeatDue
  | message msg =>
    cases msg with
    | propose proposal => exact hx.onProposal hi proposal
    | readIndex tx => exact hx.plain nofun fun _ _ _ _ => nofun
    | transferLeader target => exact hx
    | getLeader tx => exact hx.plain nofun fun _ _ _ _ => nofun
    | getTerm tx => exact hx.plain nofun fun _ _ _ _ => nofun
    | triggerSnapshot index => exact hx
    | shutdown => exact hx
    | appendResponse peer last resp =>
      exact RepFollows.handleAppendResponse hi hg hr hcause.appendResponse
        fun hp => (hcond hp).2.1
    | snapshotResponse peer last resp =>
      exact absurd rfl (hcause.snapshotResponse.installed i peer last resp)
    | voteResponse peer resp =>
      exact RepFollows.handleVoteResponse hi hg hr hcause.voteResponse fun hp => (hcond hp).1

/-- A process that boots on a disk is a replica. -/
theorem Disk.boot {s : MemStorage} (hd : Disk cc p a i h s) :
    Replica cc p a i (h ++ (Process.boot s).history) (Process.boot s).node where
  disk := hd.append (e := .restored s.hardState.commit) nofun
  memory := by
    refine ⟨hd.term, nofun, nofun, fun j pr hpr => ?_, fun _ => nofun, fun _ => nofun, hd.commit⟩
    simp [Process.boot, NodeTurn.restore, NodeTurn.read, NodeTurn.modifySm, Storage.loadHardState,
      RaftNodeInner.new, RaftStateMachine.new] at hpr

/-- Every turn of a member is steps of the replicated log. -/
theorem replication_simulation (hi : i ∈ cc.members) :
    Simulation (replication cc p) (cc.config i) i where
  turn hg hr hcause hcond := replication_turn hi hg hr hcause hcond
  restart _ _ hd := hd.boot

/-- Empty storages, and nothing on the network. -/
theorem replication_init :
    Simulation.Holds cc (replication cc p) (init fun _ => MemStorage.new) State.init where
  good := ⟨inv_init, fun _ => safe_init⟩
  node i _ := by
    have hd : Disk cc p State.init i [] MemStorage.new :=
      ⟨rfl, rfl, rfl, nofun, fun _ => .inl rfl, fun _ => nofun⟩
    exact hd.boot
  packet _ hp := nomatch hp

/-- A leadership that is recorded afterwards is nobody else's before. -/
theorem legal_of_uniqueLeaders {c : Cluster MemStorage} {e : Event}
    (hc : Simulation.Holds cc (replication cc p) c a) (hunique : (c.step cc e).UniqueLeaders cc)
    {input : Input} (hin : c.input? cc e.action = some (i, input)) {eff : Effect}
    (heff : eff ∈ (c.proc i).emitted (cc.config i) input e.crashAt) :
    (replication cc p).legal a i eff := by
  intro T hT j hj howner
  have hi : i ∈ cc.members := (Simulation.cause_of_input hc hin).1
  have hjm : j ∈ cc.members := hc.good.1.owner_eligible T j howner
  have hled : Effect.becameLeader T ∈ (c.proc j).history := (hc.node j hjm).disk.led T howner
  refine hj (hunique j hjm i hi T (mem_leaderships.mpr ?_) (mem_leaderships.mpr ?_))
  · exact (history_step cc c e j).subset hled
  · rw [← hT]
    exact mem_history_step hin heff

/-- A run, with unique leaders. -/
theorem replication_run {c : Cluster MemStorage} {es : List Event}
    (hc : Simulation.Holds cc (replication cc p) c a) (hunique : (exec cc c es).UniqueLeaders cc)
    (hcond : Within cc (StrictIf p) c es) :
    ∃ b, Grows a b ∧ Simulation.Holds cc (replication cc p) (exec cc c es) b := by
  obtain ⟨b, hab, hb⟩ := Simulation.holds_run (S := replication cc p)
    (fun i hi => replication_simulation hi) (fun _ _ hok _ _ hin => hok.1.of_input hin)
    (fun c a e hok hc i input hin eff heff => legal_of_uniqueLeaders hc hok.2 hin heff) hc
    (hcond.and hunique.within)
  refine ⟨b, ?_, hb⟩
  have hgood := hc.good
  clear hb hc
  induction hab using Relation.ReflTransGen.head_induction_on with
  | refl => exact Grows.refl b
  | head hstep _ ih =>
    obtain ⟨i, hs⟩ := hstep
    have hs : Step (clusterRules cc p) i _ _ := hs
    exact (hs.grows hgood.1).trans (ih (hgood.step hs))

end IceRaft
