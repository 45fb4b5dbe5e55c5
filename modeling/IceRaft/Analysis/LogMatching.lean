import IceRaft.Analysis.ElectionSafety
import IceRaft.Analysis.ReplicationRun

/-!
# Log matching

Each log is coherent with the logs the owners of the terms wrote, whatever is delayed,
duplicated, lost or crashed; coherent logs that share a term at an index agree up to it.
-/

set_option autoImplicit false

namespace IceRaft

open ReplicatedLog Cluster

variable {cc : ClusterConfig} {p : Prop} {a : Ghost} {c : Cluster MemStorage} {i j : NodeId}

/-- The logs of two nodes agree up to an index at which they have the same term. -/
theorem logs_agree (hc : Simulation.Holds cc (replication cc p) c a) (hi : i ∈ cc.members)
    (hj : j ∈ cc.members) {e e' : LogEntry} (he : e ∈ (c.store i).entries)
    (he' : e' ∈ (c.store j).entries) (hindex : e.index = e'.index) (hterm : e.term = e'.term) :
    (c.store i).entries.take e.index = (c.store j).entries.take e.index := by
  have hdi := (hc.node i hi).disk
  have hdj := (hc.node j hj).disk
  have hpi := hdi.plain hc.good
  have hpj := hdj.plain hc.good
  obtain ⟨k, hk, rfl⟩ := List.getElem_of_mem he
  obtain ⟨k', hk', rfl⟩ := List.getElem_of_mem he'
  have hidx := hpi.aligned k hk
  have hidx' := hpj.aligned k' hk'
  rw [hpi.firstIndex] at hidx
  rw [hpj.firstIndex] at hidx'
  obtain rfl : k = k' := Nat.add_left_cancel (hidx.symm.trans (hindex.trans hidx'))
  have hci := (hc.good.1.log_good i).coherent
  have hcj := (hc.good.1.log_good j).coherent
  rw [← hdi.entries] at hci
  rw [← hdj.entries] at hcj
  rw [hidx, Nat.add_comm 1 k]
  exact hci.take_eq hcj hk hk' hterm

/-- **Log matching.**  In a run from empty storages, with any crashes, in which no term
has two leaders, two nodes that hold an entry with the same index and term hold the same
entries up to that index.
SRCLINE: iceraft-node/src/node.rs:302-368, 574-637, 471-503 -/
theorem log_matching (cc : ClusterConfig) (es : List Event) (i j : NodeId) (e e' : LogEntry)
    (hunique : (exec cc (init fun _ => MemStorage.new) es).UniqueLeaders cc)
    (hi : i ∈ cc.members) (hj : j ∈ cc.members)
    (he : e ∈ ((exec cc (init fun _ => MemStorage.new) es).store i).entries)
    (he' : e' ∈ ((exec cc (init fun _ => MemStorage.new) es).store j).entries)
    (hindex : e.index = e'.index) (hterm : e.term = e'.term) :
    ∀ n ≤ e.index, ((exec cc (init fun _ => MemStorage.new) es).store i).get? n =
      ((exec cc (init fun _ => MemStorage.new) es).store j).get? n := by
  have hany : Within cc (StrictIf False) (init fun _ => MemStorage.new) es :=
    Runs.within_of_forall fun c e => by
      unfold Meets
      split
      · exact False.elim
      · trivial
  obtain ⟨b, -, hb⟩ := replication_run replication_init hunique hany
  intro n hn
  have hpi := (hb.node i hi).disk.plain hb.good
  have hpj := (hb.node j hj).disk.plain hb.good
  exact hpi.get?_eq_of_take hpj (logs_agree hb hi hj he he' hindex hterm) hn

/-- Node 1 is elected and replicates an entry to node 2, which crashes before it replies. -/
def matchingRun : List Event :=
  wonRun ++ [⟨.client 1 (.propose [7]), none⟩, ⟨.deliver 3, some 1⟩]

/-- The logs of nodes 1 and 2 agree up to their common entry. -/
theorem log_matching_matchingRun :
    ((exec trio (init fun _ => MemStorage.new) matchingRun).store 2).get? 1 =
        some ⟨1, 1, [7], .normal⟩ ∧
      ∀ n ≤ 1, ((exec trio (init fun _ => MemStorage.new) matchingRun).store 1).get? n =
        ((exec trio (init fun _ => MemStorage.new) matchingRun).store 2).get? n :=
  ⟨by decide +kernel,
    log_matching trio matchingRun 1 2 ⟨1, 1, [7], .normal⟩ ⟨1, 1, [7], .normal⟩
      (by decide +kernel) (by decide) (by decide) (by decide +kernel) (by decide +kernel) rfl rfl⟩

end IceRaft
