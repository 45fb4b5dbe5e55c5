import IceRaft.Analysis.ElectionSafety
import IceRaft.Analysis.ReplicationRun

/-!
# What is acknowledged, committed and applied

Under the strict rules an acknowledged prefix stays in the log of the follower for as
long as the term lasts, and a committed prefix is part of every later leader's log.  The
code breaks the strict rules in three places: a candidate counts a vote of an earlier
candidacy, a leader counts an acknowledgement of an earlier leadership, and a follower
cuts its log at the end of a late batch that it holds already.
-/

set_option autoImplicit false

namespace IceRaft

open ReplicatedLog Cluster

/-- Votes and acknowledgements count in their own term, and no late batch cuts a log. -/
abbrev Strict : Condition MemStorage := VotesCurrent.and (AcksCurrent.and KeepsAgreeing)

variable {cc : ClusterConfig} {p : Prop} {a b : Ghost} {c d : Cluster MemStorage}
  {i j : NodeId}

/-- A strict run has the replicated log beside it, from any state that has. -/
theorem strict_run {es : List Event} (hc : Simulation.Holds cc (replication cc True) c a)
    (hunique : (exec cc c es).UniqueLeaders cc) (h : Within cc Strict c es) :
    ∃ b, Grows a b ∧ Simulation.Holds cc (replication cc True) (exec cc c es) b :=
  replication_run hc hunique (h.mono fun _ _ hm => hm.mono fun _ _ _ _ hs _ => hs)

/-! ## Acknowledged entries -/

/-- What a follower of the term has acknowledged it still holds, as the leader does. -/
theorem matched_agree (hc : Simulation.Holds cc (replication cc True) c a)
    (hi : i ∈ cc.members) (hj : j ∈ cc.members) (hlead : (c.sm i).role = .leader)
    {pr : Progress} (hpr : (c.sm i).progress.lookup j = some pr)
    (hterm : (c.sm j).currentTerm = (c.sm i).currentTerm) :
    pr.matchIndex ≤ (c.store i).entries.length ∧
      (c.store j).entries.take pr.matchIndex = (c.store i).entries.take pr.matchIndex := by
  have hri := hc.node i hi
  have hrj := hc.node j hj
  have hterms : a.term j = a.term i := by
    rw [← hri.memory.term, ← hrj.memory.term]
    exact hterm
  have howner := hri.memory.leader hlead
  rw [hri.disk.entries, hrj.disk.entries, hc.good.1.owner_log _ i howner rfl]
  rcases hri.memory.matched trivial hlead j pr hpr with hzero | hacked
  · rw [hzero]
    exact ⟨Nat.zero_le _, rfl⟩
  · refine ⟨(hc.good.1.acked_canon j _ _ hacked).2, ?_⟩
    rcases (hc.good.2 trivial).kept j _ _ hacked with hpre | ⟨U, hlt, hle, -⟩
    · have hlen := (hc.good.1.acked_canon j _ _ hacked).2
      have htake := TermLog.take_eq_of_isPrefix (n := pr.matchIndex) hpre
        (by rw [List.length_take]; omega)
      rw [List.take_take, Nat.min_self] at htake
      exact htake.symm
    · -- no later term has reached the follower
      rw [hterms] at hle
      exact absurd hlt (Nat.not_lt_of_le hle)

/-- Node 1 is elected, takes two proposals, and node 2 acknowledges both. -/
def ackedRun : List Event :=
  wonRun ++ [⟨.client 1 (.propose [7]), none⟩, ⟨.client 1 (.propose [8]), none⟩,
    ⟨.deliver 5, none⟩, ⟨.deliver 6, none⟩]

/-- Afterwards node 2 gets the request with the first of the two entries. -/
def lateBatchRun : List Event := ackedRun ++ [⟨.deliver 3, none⟩]

/-- What two nodes have settled, at two times of a run, is the same. -/
theorem settled_agree (hc : Simulation.Holds cc (replication cc True) c a)
    (hd : Simulation.Holds cc (replication cc True) d b) (hab : Grows a b)
    (hi : i ∈ cc.members) (hj : j ∈ cc.members) {n : ℕ} (hpos : 0 < n)
    (hn : n ≤ (c.sm i).commitIndex) (hn' : n ≤ (d.sm j).commitIndex) :
    ∃ e, (c.store i).get? n = some e ∧ (d.store j).get? n = some e := by
  have hri := hc.node i hi
  have hrj := hd.node j hj
  have hpi := hri.disk.plain hc.good
  have hpj := hrj.disk.plain hd.good
  have hsi : Settled (clusterRules cc True) a i (c.sm i).commitIndex := hri.memory.commit trivial
  have hsj : Settled (clusterRules cc True) b j (d.sm j).commitIndex := hrj.memory.commit trivial
  -- the committed prefix that node `i` relied on is still one
  have hcom : ∃ T m, Committed (clusterRules cc True) b T m ∧ (c.sm i).commitIndex ≤ m ∧
      (b.canon T).take (c.sm i).commitIndex <+: (c.store i).entries := by
    rcases hsi with hzero | ⟨T, m, hcom, -, hle, hpre⟩
    · omega
    · refine ⟨T, m, hcom.grows hab, hle, ?_⟩
      rw [hab.take_canon (Nat.le_trans hle hcom.le), hri.disk.entries]
      exact hpre
  have hcom' : ∃ T m, Committed (clusterRules cc True) b T m ∧ (d.sm j).commitIndex ≤ m ∧
      (b.canon T).take (d.sm j).commitIndex <+: (d.store j).entries := by
    rcases hsj with hzero | ⟨T, m, hcom, -, hle, hpre⟩
    · omega
    · exact ⟨T, m, hcom, hle, by rw [hrj.disk.entries]; exact hpre⟩
  have htake := Settled.agree hd.good.1 (hd.good.2 trivial) hcom hcom' hn hn'
  have hget := hpi.get?_eq_of_take hpj htake (Nat.le_refl n)
  have hlt : n - 1 < (c.store i).entries.length := by
    rw [hri.disk.entries]
    exact Nat.lt_of_lt_of_le (Nat.sub_lt hpos Nat.one_pos) (Nat.le_trans hn hsi.le_length)
  rw [← hget, hpi.aligned.get?_eq (by rw [hpi.firstIndex]; exact hpos), hpi.firstIndex]
  exact ⟨_, List.getElem?_eq_getElem hlt, List.getElem?_eq_getElem hlt⟩

/-- **State machine safety.**  In a run from empty storages in which no term has two
leaders, and as long as the strict rules are kept, an index that is covered by the commit
index of one node, and at the same or a later time by that of another one, holds the same
entry on both; and no two nodes apply different entries for one index.
SRCLINE: iceraft-node/src/node.rs:302-368, 697-725, 749-801 -/
theorem state_machine_safety (cc : ClusterConfig) (es es' : List Event)
    (h : Within cc Strict (init fun _ => MemStorage.new) (es ++ es'))
    (hunique : (exec cc (init fun _ => MemStorage.new) (es ++ es')).UniqueLeaders cc) :
    (∀ i ∈ cc.members, ∀ j ∈ cc.members, ∀ n, 0 < n →
      n ≤ ((exec cc (init fun _ => MemStorage.new) es).sm i).commitIndex →
      n ≤ ((exec cc (init fun _ => MemStorage.new) (es ++ es')).sm j).commitIndex →
      ∃ e, ((exec cc (init fun _ => MemStorage.new) es).store i).get? n = some e ∧
        ((exec cc (init fun _ => MemStorage.new) (es ++ es')).store j).get? n = some e) ∧
    (∀ i ∈ cc.members, ∀ j ∈ cc.members, ∀ e e',
      e ∈ applications ((exec cc (init fun _ => MemStorage.new) (es ++ es')).proc i).history →
      e' ∈ applications ((exec cc (init fun _ => MemStorage.new) (es ++ es')).proc j).history →
      e.index = e'.index → e = e') := by
  obtain ⟨h1, h2⟩ := (Runs.within_append _ _ _).mp h
  have happend : exec cc (init fun _ => MemStorage.new) (es ++ es') =
      exec cc (exec cc (init fun _ => MemStorage.new) es) es' := Runs.exec_append _ _ _
  rw [happend] at hunique ⊢
  have hunique1 := hunique.of_grown fun i => history_exec cc _ es' i
  obtain ⟨a, -, ha⟩ := strict_run replication_init hunique1 h1
  obtain ⟨b, hab, hb⟩ := strict_run ha hunique h2
  refine ⟨fun i hi j hj n hpos hn hn' => settled_agree ha hb hab hi hj hpos hn hn', ?_⟩
  intro i hi j hj e e' he he' hindex
  exact Chosen.unique hb.good trivial
    ((hb.node i hi).disk.applied trivial e (mem_applications.mp he))
    ((hb.node j hj).disk.applied trivial e' (mem_applications.mp he')) hindex

/-- A heartbeat tells node 2 that both entries are committed. -/
def toldRun : List Event := [⟨.timer 1 false true, none⟩, ⟨.deliver 6, none⟩]

/-- Index 2 is the same entry at node 1 before, and at node 2 afterwards. -/
theorem state_machine_safety_toldRun :
    ∃ e, ((exec trio (init fun _ => MemStorage.new) ackedRun).store 1).get? 2 = some e ∧
      ((exec trio (init fun _ => MemStorage.new) (ackedRun ++ toldRun)).store 2).get? 2 = some e :=
  (state_machine_safety trio ackedRun toldRun (by decide +kernel) (by decide +kernel)).1 1
    (by decide) 2 (by decide) 2 (by decide) (by decide +kernel) (by decide +kernel)

/-- Node 1 has committed and applied both entries when the late batch cuts the log of
node 2.  Node 2 is elected by node 3, and commits an entry of its own at index 2. -/
def overwrittenRun : List Event :=
  [⟨.timer 1 false true, none⟩, ⟨.deliver 3, none⟩, ⟨.timer 2 true false, none⟩,
    ⟨.deliver 9, none⟩, ⟨.deliver 9, none⟩, ⟨.client 2 (.propose [9]), none⟩,
    ⟨.deliver 11, none⟩, ⟨.deliver 12, none⟩, ⟨.timer 2 false true, none⟩]

/-- A late batch takes a committed entry from a follower, and another takes its place. -/
theorem state_machine_unsafe :
    let before := exec trio (init fun _ => MemStorage.new) ackedRun
    let after := exec trio (init fun _ => MemStorage.new) (ackedRun ++ overwrittenRun)
    Within trio NoCrash (init fun _ => MemStorage.new) (ackedRun ++ overwrittenRun) ∧
      after.UniqueLeaders trio ∧
      (before.sm 1).commitIndex = 2 ∧ (before.store 1).get? 2 = some ⟨1, 2, [8], .normal⟩ ∧
      (after.sm 1).commitIndex = 2 ∧ (after.store 1).get? 2 = some ⟨2, 2, [9], .normal⟩ ∧
      ⟨1, 2, [8], .normal⟩ ∈ applications (after.proc 1).history ∧
      ⟨2, 2, [9], .normal⟩ ∈ applications (after.proc 2).history := by
  decide +kernel

end IceRaft
