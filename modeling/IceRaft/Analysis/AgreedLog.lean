import IceRaft.Analysis.Answers
import IceRaft.Analysis.LeaderLog
import IceRaft.Analysis.ReadIndex
import IceRaft.Lib.SharedLog

/-!
# The cluster as one log

Seen from outside, a cluster under the strict rules is a single log to which entries are only
ever added.  What a node has committed is a beginning of it, what it hands to the application
and what it answers with are taken from it, and a leader that is not out of date holds all of
it.
-/

set_option autoImplicit false

namespace IceRaft

open ReplicatedLog Cluster

/-- What the cluster shows of the log `log`. -/
structure Shows (cc : ClusterConfig) (c : Cluster MemStorage) (log : List LogEntry) : Prop where
  indexed : ∀ k (h : k < log.length), log[k].index = k + 1
  committed : ∀ i ∈ cc.members, (c.sm i).commitIndex ≤ log.length ∧
    (c.store i).entries.take (c.sm i).commitIndex <+: log
  applied : ∀ i ∈ cc.members, ∀ e ∈ applications (c.proc i).history, e ∈ log
  answered : ∀ i ∈ cc.members, ∀ q ∈ answers (c.proc i).history, q.2 ≤ log.length
  led : ∀ i ∈ cc.members, ∀ term, c.Leads i term → (∀ e ∈ log, e.term ≤ term) →
    log <+: (c.store i).entries

variable {cc : ClusterConfig} {a b : Ghost} {c : Cluster MemStorage} {e : Event}
  {i j : NodeId} {log : List LogEntry}

/-- What a run under the strict rules keeps: the cluster is a replicated log, whose shared log
is `log`, and nothing behind it was ever answered. -/
structure OneLog (cc : ClusterConfig) (a : Ghost) (c : Cluster MemStorage)
    (log : List LogEntry) : Prop where
  holds : Simulation.Holds cc (replication cc True) c a
  shared : Shared (clusterRules cc True) a log
  told : ∀ i ∈ cc.members, ∀ q ∈ answers (c.proc i).history, Reached (clusterRules cc True) a q.2

/-! ## What is shown -/

/-- A chosen entry is in the shared log. -/
theorem Chosen.mem_shared (h : Shared (clusterRules cc True) a log) {e : LogEntry}
    (he : Chosen cc True a e) : e ∈ log := by
  obtain ⟨T, n, hcom, hpos, hle, hget⟩ := he
  apply (h.covers T n hcom).subset
  apply List.mem_of_getElem? (i := e.index - 1)
  rw [List.getElem?_take, if_pos (by omega)]
  exact hget

/-- What the nodes show of the log is what the cluster has agreed on. -/
theorem OneLog.shows (h : OneLog cc a c log) : Shows cc c log := by
  have hgood := h.holds.good
  refine ⟨fun k hk => ?_, fun i hi => ?_, fun i hi e he => ?_, fun i hi q hq => ?_,
    fun i hi term hlead hterm => ?_⟩
  · exact (h.shared.good hgood.1).fits k hk
  · have hr : Replica cc True a i (c.proc i).history (c.proc i).node := h.holds.node i hi
    have hs : Settled (clusterRules cc True) a i (c.sm i).commitIndex := hr.memory.commit trivial
    refine ⟨h.shared.reached_iff.mp (hs.reached (Nat.le_refl _)), ?_⟩
    rw [show (c.store i).entries = a.log i from hr.disk.entries]
    exact h.shared.take_isPrefix hs
  · have hr : Replica cc True a i (c.proc i).history (c.proc i).node := h.holds.node i hi
    exact (hr.disk.applied trivial e (mem_applications.mp he)).mem_shared h.shared
  · exact h.shared.reached_iff.mp (h.told i hi q hq)
  · obtain ⟨howner, hlog⟩ := leader_canon h.holds hi hlead
    rw [hlog]
    rcases h.shared.attained with rfl | ⟨T, n, hcom, rfl⟩
    · exact List.nil_prefix
    · -- the shared log ends in an entry of the term it was committed in
      obtain ⟨m, rfl⟩ := Nat.exists_eq_add_of_lt hcom.pos
      rw [Nat.zero_add] at hterm hcom ⊢
      have hlt : m < (a.canon T).length := hcom.le
      have hT : T ≤ term := by
        rw [← hcom.stamp, TermLog.termAt_succ hlt]
        exact hterm _ (List.mem_take_iff_getElem.mpr ⟨m, by omega, rfl⟩)
      apply hcom.isPrefix_canon hgood.1 (hgood.2 trivial) hT
      rw [howner]
      exact Option.some_ne_none i

/-! ## One event -/

/-- What an event makes a node answer. -/
theorem answers_step {q : Sender × ℕ} (h : q ∈ answers ((c.step cc e).proc j).history) :
    q ∈ answers (c.proc j).history ∨ ∃ input, c.input? cc e.action = some (j, input) ∧
      q ∈ answers ((c.proc j).emitted (cc.config j) input e.crashAt) := by
  rcases mem_history_of_step (mem_answers.mp h) with hold | ⟨input, hin, hnew⟩ | ⟨k, hboot⟩
  · exact .inl (mem_answers.mpr hold)
  · exact .inr ⟨input, hin, mem_answers.mpr hnew⟩
  · cases hboot

/-- What is answered is committed. -/
theorem reached_of_answer (hc : Simulation.Holds cc (replication cc True) c a)
    (hb : Simulation.Holds cc (replication cc True) (c.step cc e) b) (hg : Grows a b)
    {input : Input} (hin : c.input? cc e.action = some (j, input)) {q : Sender × ℕ}
    (hq : q ∈ answers ((c.proc j).emitted (cc.config j) input e.crashAt)) :
    Reached (clusterRules cc True) b q.2 := by
  have hj := (Simulation.cause_of_input hc hin).1
  have hr : Replica cc True a j (c.proc j).history (c.proc j).node := hc.node j hj
  have hr' : Replica cc True b j ((c.step cc e).proc j).history ((c.step cc e).proc j).node :=
    hb.node j hj
  rw [proc_step hin] at hr'
  by_cases hread : ∃ tx, input = .message (.readIndex tx)
  · obtain ⟨tx, rfl⟩ := hread
    rw [Process.emitted_readIndex hq]
    exact ((hr.memory.commit trivial).reached (Nat.le_refl _)).grows hg
  · obtain ⟨-, hcover, -⟩ := Process.emitted_covered (fun tx heq => hread ⟨tx, heq⟩) hq
    rcases hcover with hle | ⟨hle, -⟩
    · exact ((hr.memory.commit trivial).reached hle).grows hg
    · exact (hr'.disk.commit trivial).reached hle

/-- Every state of a cluster has a shared log. -/
theorem GoodGhost.exists_shared (hgood : GoodGhost cc True a) :
    ∃ log, Shared (clusterRules cc True) a log :=
  ReplicatedLog.exists_shared hgood.1 (hgood.2 trivial) cc.members fun _ hi => hi

/-- At the start the log is empty. -/
theorem oneLog_init : ∃ a, OneLog cc a (init fun _ => MemStorage.new) [] := by
  refine ⟨State.init, replication_init, ⟨fun T n hcom => ?_, .inl rfl⟩, nofun⟩
  rw [show (State.init : Ghost).canon T = [] from rfl, List.take_nil]

/-- **Step lemma**: the shared log only grows. -/
theorem OneLog.step (h : OneLog cc a c log) (hstrict : c.Meets cc Strict e)
    (hunique : (c.step cc e).UniqueLeaders cc) :
    ∃ b log', log <+: log' ∧ Grows a b ∧ OneLog cc b (c.step cc e) log' := by
  have hunique' : (exec cc c [e]).UniqueLeaders cc := hunique
  have hone : Within cc Strict c [e] := ⟨hstrict, trivial⟩
  obtain ⟨b, hg, hb⟩ := strict_run h.holds hunique' hone
  change Simulation.Holds cc (replication cc True) (c.step cc e) b at hb
  obtain ⟨log', hlog'⟩ := hb.good.exists_shared
  refine ⟨b, log', h.shared.isPrefix_of_grows hlog' hg, hg, hb, hlog', ?_⟩
  intro j hj q hq
  rcases answers_step hq with hold | ⟨input, hin, hnew⟩
  · exact (h.told j hj q hold).grows hg
  · exact reached_of_answer h.holds hb hg hin hnew

/-- **A cluster is one log.**  A run from empty storages in which no term has two leaders, a
restarted process restores before its handlers run, and the strict rules are kept, has beside it a
log for each moment, to which entries are only added, and of which every node shows a part: what
it has committed, applied and answered.
SRCLINE: iceraft-node/src/node.rs:302-368, 471-503, 697-725, 749-818 -/
theorem agreed_log (cc : ClusterConfig) (es : List Event)
    (h : Within cc Strict (init fun _ => MemStorage.new) es)
    (hunique : (exec cc (init fun _ => MemStorage.new) es).UniqueLeaders cc) :
    ∃ log : ℕ → List LogEntry, log 0 = [] ∧ (∀ k, log k <+: log (k + 1)) ∧
      ∀ k ≤ es.length, Shows cc (exec cc (init fun _ => MemStorage.new) (es.take k)) (log k) := by
  obtain ⟨log, hzero, hgrow, hlog⟩ := (h.and hunique.within).simulated
    (fun c log => ∃ a, OneLog cc a c log) (fun log log' => log <+: log') List.prefix_refl
    (fun c e log ⟨a, hc⟩ hok => by
      obtain ⟨b, log', hpre, -, hb⟩ := hc.step hok.1 hok.2
      exact ⟨log', hpre, b, hb⟩) oneLog_init
  refine ⟨log, hzero, hgrow, ?_⟩
  intro k hk
  obtain ⟨a, ha⟩ := hlog k hk
  exact ha.shows

/-- In this run two entries are agreed on. -/
theorem agreed_log_readRun :
    ∃ log : ℕ → List LogEntry, log 0 = [] ∧ (∀ k, log k <+: log (k + 1)) ∧
      2 ≤ (log readRun.length).length := by
  obtain ⟨log, hzero, hgrow, hlog⟩ := agreed_log trio readRun (by decide +kernel)
    (by decide +kernel)
  refine ⟨log, hzero, hgrow, ?_⟩
  have hcommit : ((exec trio (init fun _ => MemStorage.new) readRun).sm 1).commitIndex = 2 := by
    decide +kernel
  have hend := ((hlog readRun.length (Nat.le_refl _)).committed 1 (by decide)).1
  rw [List.take_length, hcommit] at hend
  exact hend

end IceRaft
