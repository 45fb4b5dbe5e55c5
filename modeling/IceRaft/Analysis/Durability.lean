import IceRaft.Analysis.WriteOrder

/-!
# What was answered stays on a quorum

An entry is committed when a quorum has acknowledged it, and a node acknowledges what it has
stored.  Under the strict rules nothing that is committed is ever cut off a log again, so the
entry of a proposal that was answered is in the storages of a quorum from then on.
-/

set_option autoImplicit false

namespace IceRaft

open ReplicatedLog Cluster MemStorage

/-- The nodes of `Q` are a quorum that holds `entry`, and their logs agree up to it. -/
structure HeldBy (cc : ClusterConfig) (c : Cluster MemStorage) (entry : LogEntry)
    (Q : Finset NodeId) : Prop where
  members : Q ⊆ cc.members
  quorum : ∃ i ∈ cc.members, (cc.config i).quorum ≤ Q.card
  held : ∀ j ∈ Q, (c.store j).get? entry.index = some entry
  agree : ∀ j ∈ Q, ∀ k ∈ Q, ∀ n ≤ entry.index, (c.store j).get? n = (c.store k).get? n

variable {cc : ClusterConfig} {a : Ghost} {c : Cluster MemStorage} {entry : LogEntry}

/-- A chosen entry is in the storages of a quorum. -/
theorem Chosen.heldBy (he : Chosen cc True a entry)
    (hc : Simulation.Holds cc (replication cc True) c a) : ∃ Q, HeldBy cc c entry Q := by
  obtain ⟨T, n, hcom, hpos, hle, hget⟩ := he
  obtain ⟨Q, ⟨hmembers, hquorum⟩, hheld⟩ := hcom.held (hc.good.2 trivial)
  have hplain : ∀ j ∈ Q, (c.store j).Plain := by
    intro j hj
    exact (hc.node j (hmembers hj)).disk.plain hc.good
  have hprefix : ∀ j ∈ Q, (a.canon T).take n <+: (c.store j).entries := by
    intro j hj
    rw [(hc.node j (hmembers hj)).disk.entries]
    exact hheld j hj
  have htake : ∀ j ∈ Q, (c.store j).entries.take n = (a.canon T).take n := by
    intro j hj
    obtain ⟨t, ht⟩ := hprefix j hj
    have hlen : ((a.canon T).take n).length = n := by
      rw [List.length_take, Nat.min_eq_left hcom.le]
    rw [← ht, List.take_append_of_le_length hlen.ge, List.take_take, Nat.min_self]
  refine ⟨Q, hmembers, hquorum, ?_, ?_⟩
  · intro j hj
    have hfirst := (hplain j hj).firstIndex
    have hplace : (c.store j).entries[entry.index - 1]? = some entry := by
      have hlt : entry.index - 1 < n := by omega
      rw [← hget, ← List.getElem?_take_of_lt hlt, htake j hj, List.getElem?_take_of_lt hlt]
    rw [(hplain j hj).aligned.get?_eq (by omega), hfirst]
    exact hplace
  · intro j hj k hk m hm
    exact (hplain j hj).get?_eq_of_take (hplain k hk) ((htake j hj).trans (htake k hk).symm)
      (hm.trans hle)

/-- **Durability**: in a run from empty storages in which no term has two leaders, with crashes
after which the process restores before its handlers run, and in which the strict rules are kept
and no entry is replaced that a proposal waits for, the entry of a proposal that was answered is in
the storages of a quorum ever after.
SRCLINE: iceraft-node/src/node.rs:302-368, 471-503, 697-725, 749-801 -/
theorem answered_durable (cc : ClusterConfig) (es es' : List Event) (i : NodeId) (tx : Sender)
    (k : ℕ) (entry : LogEntry)
    (h : Within cc (Strict.and PendingKept) (init fun _ => MemStorage.new) (es ++ es'))
    (hunique : (exec cc (init fun _ => MemStorage.new) (es ++ es')).UniqueLeaders cc)
    (hi : i ∈ cc.members)
    (haccepted : (tx, entry) ∈
      acceptances ((exec cc (init fun _ => MemStorage.new) es).proc i).history)
    (hanswer : (tx, k) ∈ answers ((exec cc (init fun _ => MemStorage.new) es).proc i).history) :
    entry.index = k ∧
      ∃ Q, HeldBy cc (exec cc (init fun _ => MemStorage.new) (es ++ es')) entry Q := by
  obtain ⟨h1, h2⟩ := (Runs.within_append _ _ _).mp h
  have happend : exec cc (init fun _ => MemStorage.new) (es ++ es') =
      exec cc (exec cc (init fun _ => MemStorage.new) es) es' := Runs.exec_append _ _ _
  rw [happend] at hunique ⊢
  have hgrown := history_exec cc (exec cc (init fun _ => MemStorage.new) es) es' i
  obtain ⟨a, ha⟩ := ordered_init.run h1 (hunique.of_grown fun i => history_exec cc _ es' i)
  obtain ⟨b, hb⟩ := ha.run h2 hunique
  have hanswer' := mem_answers.mpr (hgrown.subset (mem_answers.mp hanswer))
  obtain ⟨hidx, hchosen, -⟩ := (hb.accounts i hi).told _ hanswer' (Nat.zero_le tx) entry
    (hgrown.subset (mem_acceptances.mp haccepted))
  exact ⟨hidx, hchosen.heldBy hb.holds⟩

/-- Two proposals have been answered when the leader crashes and node 2 stands for election. -/
def crashedRun : List Event :=
  [⟨.timer 1 false true, some 0⟩, ⟨.timer 2 true false, none⟩]

/-- The answered entry is at a quorum after a crash. -/
theorem answered_durable_crashedRun :
    (4, 2) ∈ answers ((exec trio (init fun _ => MemStorage.new) ackedRun).proc 1).history ∧
      ∃ Q, HeldBy trio (exec trio (init fun _ => MemStorage.new) (ackedRun ++ crashedRun))
        ⟨1, 2, [8], .normal⟩ Q :=
  ⟨by decide +kernel, (answered_durable trio ackedRun crashedRun 1 4 2 ⟨1, 2, [8], .normal⟩
    (by decide +kernel) (by decide +kernel) (by decide) (by decide +kernel)
    (by decide +kernel)).2⟩

end IceRaft
