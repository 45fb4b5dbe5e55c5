import IceRaft.Analysis.LeaderLog
import IceRaft.Analysis.LogMatching

/-!
# The cluster refines the replicated log

Beside every run of a cluster goes a run of the replicated log with one writer per term: an
event of the cluster is any number of steps of the log.  The stored logs and terms are those of
the log, the leaders are its owners, and what is under way are fragments of what an owner has
written.
-/

set_option autoImplicit false

namespace IceRaft

open ReplicatedLog Cluster Relation

/-- What a cluster shows of a replicated log; what concerns commitment counts under the strict
rules. -/
structure Mirrors (cc : ClusterConfig) (p : Prop) (a : Ghost) (c : Cluster MemStorage) :
    Prop where
  log : ∀ i ∈ cc.members, (c.store i).entries = a.log i
  saved : ∀ i ∈ cc.members, (c.store i).hardState.term = a.term i
  term : ∀ i ∈ cc.members, (c.sm i).currentTerm = a.term i
  led : ∀ i ∈ cc.members, ∀ T, c.Leads i T →
    a.owner T = some i ∧ (c.store i).entries = a.canon T
  owner : ∀ T i, a.owner T = some i → i ∈ cc.members ∧ T ∈ leaderships (c.proc i).history
  sent : ∀ src waiting peer last req,
    Packet.request src waiting (.appendEntries peer last req) ∈ c.net →
      a.owner req.term = some src ∧ (req.entries = [] ∨
        Fragment a req.term req.prevLogIndex req.prevLogTerm
          (req.entries.map protoEntryToLogEntry))
  committed : p → ∀ i ∈ cc.members, Settled (clusterRules cc p) a i (c.sm i).commitIndex
  applied : p → ∀ i ∈ cc.members, ∀ e ∈ applications (c.proc i).history, Chosen cc p a e

/-- The steps of the replicated log, whichever node takes them. -/
def LogSteps (cc : ClusterConfig) (p : Prop) : Ghost → Ghost → Prop :=
  ReflTransGen fun a b => ∃ i, Step (clusterRules cc p) i a b

variable {cc : ClusterConfig} {p : Prop} {a : Ghost} {c : Cluster MemStorage}

/-- A cluster beside its replicated log is mirrored by it. -/
theorem mirrors_of_holds (hc : Simulation.Holds cc (replication cc p) c a) :
    Mirrors cc p a c where
  log i hi := (hc.node i hi).disk.entries
  saved i hi := (hc.node i hi).disk.term
  term i hi := (hc.node i hi).memory.term
  led i hi _ hlead := leader_canon hc hi hlead
  owner T i howner := by
    have hi : i ∈ cc.members := hc.good.1.owner_eligible T i howner
    exact ⟨hi, mem_leaderships.mpr ((hc.node i hi).disk.led T howner)⟩
  sent src waiting peer last req hp := by
    have happend := (hc.packet _ hp).append src waiting peer last req rfl
    exact ⟨happend.owner, happend.shape.symm.imp_left And.left⟩
  committed hp i hi := (hc.node i hi).memory.commit hp
  applied hp i hi e he := (hc.node i hi).disk.applied hp e (mem_applications.mp he)

/-- One event is some steps of the log. -/
theorem replication_step {e : Event} (hc : Simulation.Holds cc (replication cc p) c a)
    (hstrict : c.Meets cc (StrictIf p) e) (hunique : (c.step cc e).UniqueLeaders cc) :
    ∃ b, LogSteps cc p a b ∧ Simulation.Holds cc (replication cc p) (c.step cc e) b := by
  refine Simulation.holds_step (fun i hi => replication_simulation hi) hc ?_ ?_
  · exact fun i input hin => hstrict.of_input hin
  · exact fun i input hin eff heff => legal_of_uniqueLeaders hc hunique hin heff

/-- **The cluster refines the replicated log**: a run from empty storages in which no term has
two leaders, with crashes after which the process restores before its handlers run, has beside it a
run of the replicated log that starts before anything has happened; after every event the cluster
shows the state of that log.  In a run under the strict rules, each election there has its quorum
of promises, what a node believes committed a quorum has acknowledged, and what it applied is part
of that.
SRCLINE: iceraft-node/src/node.rs:302-503, 507-801 -/
theorem cluster_refines_log (cc : ClusterConfig) (p : Prop) (es : List Event)
    (hstrict : Within cc (StrictIf p) (init fun _ => MemStorage.new) es)
    (hunique : (exec cc (init fun _ => MemStorage.new) es).UniqueLeaders cc) :
    ∃ log : ℕ → Ghost, log 0 = State.init ∧ (∀ k, LogSteps cc p (log k) (log (k + 1))) ∧
      ∀ k ≤ es.length,
        Mirrors cc p (log k) (exec cc (init fun _ => MemStorage.new) (es.take k)) := by
  obtain ⟨log, hzero, hsteps, hlog⟩ := (hstrict.and hunique.within).simulated
    (Simulation.Holds cc (replication cc p)) (LogSteps cc p) (fun a => ReflTransGen.refl)
    (fun c e a hc hok => replication_step hc hok.1 hok.2) replication_init
  exact ⟨log, hzero, hsteps, fun k hk => mirrors_of_holds (hlog k hk)⟩

/-- In the log beside this run node 1 owns term 1, and node 2 has both entries. -/
theorem cluster_refines_log_ackedRun :
    ∃ log : ℕ → Ghost, log 0 = State.init ∧ (∀ k, LogSteps trio True (log k) (log (k + 1))) ∧
      (log ackedRun.length).owner 1 = some 1 ∧
      (log ackedRun.length).log 2 = [⟨1, 1, [7], .normal⟩, ⟨1, 2, [8], .normal⟩] := by
  have hstrict : Within trio Strict (init fun _ => MemStorage.new) ackedRun := by decide +kernel
  obtain ⟨log, hzero, hsteps, hlog⟩ := cluster_refines_log trio True ackedRun
    (hstrict.mono fun _ _ hm => hm.mono fun _ _ _ _ hs _ => hs) (by decide +kernel)
  have hend := hlog ackedRun.length (Nat.le_refl _)
  rw [List.take_length] at hend
  refine ⟨log, hzero, hsteps, ?_, ?_⟩
  · exact (hend.led 1 (by decide) 1 (by decide +kernel)).1
  · rw [← hend.log 2 (by decide)]
    decide +kernel

end IceRaft
