import IceRaft.Analysis.CommitSafety

/-!
# The log of a leader

A leader only appends to its log, as long as it leads its term; and the log it was elected
with has everything that was committed before.
-/

set_option autoImplicit false

namespace IceRaft

open ReplicatedLog Cluster

variable {cc : ClusterConfig} {p : Prop} {a b : Ghost} {c d : Cluster MemStorage}
  {i j : NodeId}

/-- Where the strict rules do not count, every activation is admitted. -/
theorem within_weak (c : Cluster MemStorage) (es : List Event) :
    Within cc (StrictIf False) c es :=
  Runs.within_of_forall fun c e => by
    unfold Meets
    split
    · exact False.elim
    · trivial

/-- Two states of a run are followed one after the other. -/
theorem replication_append (es es' : List Event)
    (hunique : (exec cc (init fun _ => MemStorage.new) (es ++ es')).UniqueLeaders cc)
    (hcond : Within cc (StrictIf p) (init fun _ => MemStorage.new) (es ++ es')) :
    ∃ a b, Grows a b ∧
      Simulation.Holds cc (replication cc p) (exec cc (init fun _ => MemStorage.new) es) a ∧
      Simulation.Holds cc (replication cc p)
        (exec cc (init fun _ => MemStorage.new) (es ++ es')) b := by
  obtain ⟨h1, h2⟩ := (Runs.within_append _ _ _).mp hcond
  have happend : exec cc (init fun _ => MemStorage.new) (es ++ es') =
      exec cc (exec cc (init fun _ => MemStorage.new) es) es' := Runs.exec_append _ _ _
  rw [happend] at hunique ⊢
  have hunique1 := hunique.of_grown fun i => history_exec cc _ es' i
  obtain ⟨a, -, ha⟩ := replication_run replication_init hunique1 h1
  obtain ⟨b, hab, hb⟩ := replication_run ha hunique h2
  exact ⟨a, b, hab, ha, hb⟩

/-- The log of a leader is what the owner of its term wrote. -/
theorem leader_canon (hc : Simulation.Holds cc (replication cc p) c a) (hi : i ∈ cc.members)
    {term : ℕ} (hlead : c.Leads i term) :
    a.owner term = some i ∧ (c.store i).entries = a.canon term := by
  obtain ⟨hrole, rfl⟩ := hlead
  have hr : Replica cc p a i (c.proc i).history (c.proc i).node := hc.node i hi
  have howner := hr.memory.leader hrole
  rw [← hr.memory.term] at howner
  refine ⟨howner, ?_⟩
  rw [← hc.good.1.owner_log _ i howner hr.memory.term.symm]
  exact hr.disk.entries

/-- What the owner of a term adds is of that term. -/
theorem GoodGhost.canon_grown (ha : GoodGhost cc p a) (hb : GoodGhost cc p b) (hg : Grows a b)
    {term : ℕ} (howner : a.owner term ≠ none) :
    ∃ new, b.canon term = a.canon term ++ new ∧ ∀ e ∈ new, e.term = term := by
  obtain ⟨new, hnew⟩ := hg.canon term
  obtain ⟨t, ht, -⟩ := ha.1.canon_split term howner
  obtain ⟨t', ht', hstamp⟩ := hb.1.canon_split term (hg.owner_ne howner)
  refine ⟨new, hnew.symm, fun e he => ?_⟩
  rw [hg.elog term howner, ← hnew, ht, List.append_assoc] at ht'
  apply hstamp
  rw [← List.append_cancel_left ht']
  exact List.mem_append_right _ he

/-- **A leader only appends.**  In a run from empty storages in which no term has two leaders,
with crashes after which the process restores before its handlers run, a node that leads a term at
two moments has at the second the log of the first, followed by entries of that term.
SRCLINE: iceraft-node/src/node.rs:302-368, 471-503 -/
theorem leader_append_only (cc : ClusterConfig) (es es' : List Event) (i : NodeId) (term : ℕ)
    (hunique : (exec cc (init fun _ => MemStorage.new) (es ++ es')).UniqueLeaders cc)
    (hi : i ∈ cc.members) (hlead : (exec cc (init fun _ => MemStorage.new) es).Leads i term)
    (hlead' : (exec cc (init fun _ => MemStorage.new) (es ++ es')).Leads i term) :
    ∃ new, ((exec cc (init fun _ => MemStorage.new) (es ++ es')).store i).entries =
        ((exec cc (init fun _ => MemStorage.new) es).store i).entries ++ new ∧
      ∀ e ∈ new, e.term = term := by
  obtain ⟨a, b, hab, ha, hb⟩ := replication_append es es' hunique (within_weak _ _)
  obtain ⟨howner, hlog⟩ := leader_canon ha hi hlead
  obtain ⟨-, hlog'⟩ := leader_canon hb hi hlead'
  rw [hlog, hlog']
  apply GoodGhost.canon_grown ha.good hb.good hab
  rw [howner]
  exact Option.some_ne_none i

/-- After its election node 1 takes two proposals, which node 2 acknowledges. -/
def busyRun : List Event :=
  [⟨.client 1 (.propose [7]), none⟩, ⟨.client 1 (.propose [8]), none⟩, ⟨.deliver 5, none⟩,
    ⟨.deliver 6, none⟩]

/-- The log of node 1 grows by entries of its term while it leads. -/
theorem leader_append_only_busyRun :
    ∃ new, ((exec trio (init fun _ => MemStorage.new) (wonRun ++ busyRun)).store 1).entries =
        ((exec trio (init fun _ => MemStorage.new) wonRun).store 1).entries ++ new ∧
      ∀ e ∈ new, e.term = 1 :=
  leader_append_only trio wonRun busyRun 1 1 (by decide +kernel) (by decide) (by decide +kernel)
    (by decide +kernel)

/-- **Leader completeness.**  In a run from empty storages in which no term has two leaders and
a restarted process restores before its handlers run, and as long as the strict rules are kept,
what a node has committed at some moment is part of the log of whoever leads its term or a later
one from then on.
SRCLINE: iceraft-node/src/node.rs:370-416, 507-558, 673-695, 749-801 -/
theorem leader_completeness (cc : ClusterConfig) (es es' : List Event) (i j : NodeId) (term : ℕ)
    (h : Within cc Strict (init fun _ => MemStorage.new) (es ++ es'))
    (hunique : (exec cc (init fun _ => MemStorage.new) (es ++ es')).UniqueLeaders cc)
    (hi : i ∈ cc.members) (hj : j ∈ cc.members)
    (hterm : ((exec cc (init fun _ => MemStorage.new) es).sm i).currentTerm ≤ term)
    (hlead : (exec cc (init fun _ => MemStorage.new) (es ++ es')).Leads j term) :
    ((exec cc (init fun _ => MemStorage.new) es).store i).entries.take
        ((exec cc (init fun _ => MemStorage.new) es).sm i).commitIndex <+:
      ((exec cc (init fun _ => MemStorage.new) (es ++ es')).store j).entries := by
  obtain ⟨a, b, hab, ha, hb⟩ := replication_append (p := True) es es' hunique
    (h.mono fun _ _ hm => hm.mono fun _ _ _ _ hs _ => hs)
  generalize exec cc (init fun _ => MemStorage.new) es = c at *
  generalize exec cc (init fun _ => MemStorage.new) (es ++ es') = d at *
  have hri : Replica cc True a i (c.proc i).history (c.proc i).node := ha.node i hi
  obtain ⟨howner, hlog⟩ := leader_canon hb hj hlead
  have hterm' : (c.sm i).currentTerm = a.term i := hri.memory.term
  rw [hlog, show (c.store i).entries = a.log i from hri.disk.entries]
  rcases hri.memory.commit trivial with hzero | ⟨T, m, hcom, hT, hk, hpre⟩
  · rw [show (c.sm i).commitIndex = 0 from hzero, List.take_zero]
    exact List.nil_prefix
  · have hle : T ≤ term := by omega
    have hcommitted := (hcom.grows hab).isPrefix_canon hb.good.1 (hb.good.2 trivial) hle
      (by rw [howner]; exact Option.some_ne_none j)
    rw [hab.take_canon hcom.le] at hcommitted
    rw [TermLog.take_eq_take_of_isPrefix hpre (Nat.le_trans hk hcom.le)]
    exact (TermLog.take_prefix_of_le hk _).trans hcommitted

/-- Node 2 holds what node 1 has committed, and is elected by node 3. -/
def succeededRun : List Event :=
  [⟨.timer 2 true false, none⟩, ⟨.deliver 7, none⟩, ⟨.deliver 7, none⟩]

/-- The new leader has the two entries that the old one committed. -/
theorem leader_completeness_succeededRun :
    ((exec trio (init fun _ => MemStorage.new) ackedRun).sm 1).commitIndex = 2 ∧
      ((exec trio (init fun _ => MemStorage.new) ackedRun).store 1).entries.take
          ((exec trio (init fun _ => MemStorage.new) ackedRun).sm 1).commitIndex <+:
        ((exec trio (init fun _ => MemStorage.new) (ackedRun ++ succeededRun)).store 2).entries :=
  ⟨by decide +kernel, leader_completeness trio ackedRun succeededRun 1 2 2 (by decide +kernel)
    (by decide +kernel) (by decide) (by decide) (by decide +kernel) (by decide +kernel)⟩

end IceRaft
