import IceRaft.Analysis.LeaderLog
import IceRaft.Analysis.Provenance

/-!
# The order of proposals in a log

The leader that wrote an entry put it behind its own log, and what stands before the entry in
any log is what stood there then.  So along every log the entries were taken one after the
other.
-/

set_option autoImplicit false

namespace IceRaft

open ReplicatedLog Cluster MemStorage

variable {cc : ClusterConfig} {a b : Ghost} {c d : Cluster MemStorage} {i j : NodeId}

/-- What precedes an entry in a log is the log its leader had. -/
theorem prefix_of_taken (ha : Simulation.Holds cc (replication cc False) c a)
    (hb : Simulation.Holds cc (replication cc False) d b) (hg : Grows a b) (hi : i ∈ cc.members)
    (hj : j ∈ cc.members) (hrole : (c.sm j).role = .leader) {n : ℕ}
    (hn : n < (d.store i).entries.length) {data : Bytes}
    (hentry : (c.proc j).node.entryFor data = (d.store i).entries[n]) :
    (d.store i).entries.take n = (c.store j).entries := by
  have hri : Replica cc False b i (d.proc i).history (d.proc i).node := hb.node i hi
  have hrj : Replica cc False a j (c.proc j).history (c.proc j).node := ha.node j hj
  have hgood := hb.good.1.log_good i
  rw [← show (d.store i).entries = b.log i from hri.disk.entries] at hgood
  obtain ⟨-, hlog⟩ := leader_canon ha hj ⟨hrole, rfl⟩
  -- the entry stands behind the log of its leader
  have hindex : (d.store i).entries[n].index = n + 1 := hgood.fits n hn
  have hlast : (c.store j).lastIndex + 1 = n + 1 :=
    (congrArg LogEntry.index hentry).trans hindex
  have hplain : (c.store j).lastIndex = (c.store j).entries.length :=
    (hrj.disk.plain ha.good).lastIndex
  have hlen : (c.store j).entries.length = n := by omega
  have hterm : (d.store i).entries[n].term = (c.sm j).currentTerm :=
    (congrArg LogEntry.term hentry).symm
  have hshared : (d.store i).entries.take (n + 1) <+: b.canon (d.store i).entries[n].term :=
    hgood.coherent n hn
  rw [hterm] at hshared
  have hcanon : (a.canon (c.sm j).currentTerm).take n = (c.store j).entries := by
    rw [← hlog, ← hlen, List.take_length]
  rw [← hcanon, ← hg.take_canon (by rw [← hlog, hlen])]
  have htake := TermLog.take_eq_of_isPrefix hshared (n := n) (by rw [List.length_take]; omega)
  rw [List.take_take, Nat.min_eq_left (Nat.le_succ n)] at htake
  exact htake

/-- The entries up to a place were taken in their order. -/
theorem take_sublist_taken {n : ℕ} {es : List Event}
    (hunique : (exec cc (init fun _ => MemStorage.new) es).UniqueLeaders cc) (hi : i ∈ cc.members)
    (hn : n ≤ ((exec cc (init fun _ => MemStorage.new) es).store i).entries.length) :
    (((exec cc (init fun _ => MemStorage.new) es).store i).entries.take n).Sublist
      (taken cc (init fun _ => MemStorage.new) es) := by
  induction n generalizing es i with
  | zero => exact List.nil_sublist _
  | succ n ih =>
    have htaken : ((exec cc (init fun _ => MemStorage.new) es).store i).entries[n] ∈
        taken cc (init fun _ => MemStorage.new) es := by
      rcases (genuine_run cc (fun _ => MemStorage.new) es).stored i hi _
        (List.getElem_mem hn) with htaken | ⟨j, -, hnone⟩
      · exact htaken
      · cases hnone
    obtain ⟨before, e, after, rfl, hout⟩ := Runs.exists_of_mem_outputs htaken
    obtain ⟨j, proposal, hin, hrole, hentry⟩ := exists_of_taken? hout
    obtain ⟨a, b, hg, ha, hb⟩ := replication_append before (e :: after) hunique (within_weak _ _)
    have hj := mem_of_input hin
    have hbefore : (exec cc (init fun _ => MemStorage.new) before).UniqueLeaders cc := by
      have happend : exec cc (init fun _ => MemStorage.new) (before ++ e :: after) =
        exec cc (exec cc (init fun _ => MemStorage.new) before) (e :: after) :=
          Runs.exec_append _ _ _
      rw [happend] at hunique
      exact hunique.of_grown fun k => history_exec cc _ (e :: after) k
    have hprefix := prefix_of_taken ha hb hg hi hj hrole hn hentry
    have hlen : ((exec cc (init fun _ => MemStorage.new) before).store j).entries.length = n := by
      rw [← hprefix, List.length_take, Nat.min_eq_left (Nat.le_of_lt hn)]
    have hlog := ih hbefore hj (Nat.le_of_eq hlen.symm)
    rw [List.take_of_length_le (Nat.le_of_eq hlen), ← hprefix] at hlog
    rw [List.take_succ_eq_append_getElem hn, taken, Runs.outputs_split after hout]
    exact hlog.append (List.singleton_sublist.mpr List.mem_cons_self)

/-- **A log is made of proposals, in order**: in a run from empty storages in which no term has
two leaders, with crashes after which the process restores before its handlers run, the log of
every node is a subsequence of the entries that the leaders wrote, in the order in which they took
the proposals; so its payloads are some of those that clients submitted, in that order and each as
often as it was submitted at most.
SRCLINE: iceraft-node/src/node.rs:302-368, 370-416, 471-503, 574-637 -/
theorem log_of_proposals (cc : ClusterConfig) (es : List Event) (i : NodeId)
    (hunique : (exec cc (init fun _ => MemStorage.new) es).UniqueLeaders cc)
    (hi : i ∈ cc.members) :
    ((exec cc (init fun _ => MemStorage.new) es).store i).entries.Sublist
        (taken cc (init fun _ => MemStorage.new) es) ∧
      (((exec cc (init fun _ => MemStorage.new) es).store i).entries.map LogEntry.data).Sublist
        (es.filterMap Event.payload?) := by
  have hlog := take_sublist_taken hunique hi (Nat.le_refl _)
  rw [List.take_length] at hlog
  exact ⟨hlog, (hlog.map LogEntry.data).trans (taken_payloads cc _ es)⟩

/-- Of three proposals node 2 has lost the second when it takes the third as a leader. -/
theorem log_of_proposals_overwrittenRun :
    ((exec trio (init fun _ => MemStorage.new) (ackedRun ++ overwrittenRun)).store
        2).entries.map LogEntry.data = [[7], [9]] ∧
      (((exec trio (init fun _ => MemStorage.new) (ackedRun ++ overwrittenRun)).store
        2).entries.map LogEntry.data).Sublist
          ((ackedRun ++ overwrittenRun).filterMap Event.payload?) :=
  ⟨by decide +kernel, (log_of_proposals trio (ackedRun ++ overwrittenRun) 2 (by decide +kernel)
    (by decide)).2⟩

end IceRaft
