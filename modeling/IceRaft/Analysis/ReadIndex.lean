import IceRaft.Analysis.Acknowledgement
import IceRaft.Analysis.Answers
import IceRaft.Analysis.FollowerTurns
import IceRaft.Analysis.IndexOrder
import IceRaft.Analysis.Transitions

/-!
# Reads

Every node answers a read index at once, with its own commit index.  At a leader of the
latest term that has committed an entry of that term, this is at least every index that
has been answered before; elsewhere it need not be.
-/

set_option autoImplicit false

namespace IceRaft

open ReplicatedLog Cluster Abstraction

variable {cc : ClusterConfig} {a b : Ghost} {c : Cluster MemStorage} {e : Event}
  {i j : NodeId}

/-! ## The strict rules keep the commit index -/

/-- Under the strict rules no accepted batch ends below the commit index. -/
theorem commitKept_of_strict (hc : Simulation.Holds cc (replication cc True) c a)
    (h : c.Meets cc Strict e) : c.Meets cc CommitKept e := by
  cases hin : c.input? cc e.action with
  | none =>
    unfold Meets
    rw [hin]
    trivial
  | some q =>
    obtain ⟨i, input⟩ := q
    have hkeep := (h.of_input hin).2.2
    obtain ⟨hi, hcause⟩ := Simulation.cause_of_input hc hin
    have hr : Replica cc True a i (c.proc i).history (c.proc i).node := hc.node i hi
    unfold Meets
    rw [hin]
    dsimp only
    cases input with
    | appendEntries req =>
      intro haccepts hne
      obtain ⟨-, rfl⟩ | ⟨src, waiting, last, hpacket, -⟩ := hcause.appendEntries
      · exact absurd rfl hne
      obtain ⟨hle, hprev⟩ := (NodeTurn.accepts_iff _ req).mp haccepts
      have hsuffix := hkeep haccepts hne
      -- the node that gets the batch has stepped down to its term
      have hstart : RepFollows cc True a i (c.proc i).history none (c.proc i).node
          (Rep cc True i) (Turn.start (c.proc i).node) := Follows.start hc.good hr.disk hr
      have hdown := hstart.descend req.term (some req.leaderId)
      have hbooks := sameBooks_descend req.term (some req.leaderId)
        (Turn.start (c.proc i).node : NodeTurn MemStorage)
      obtain ⟨-, -, hterm, -⟩ := NodeTurn.descend_entered req.term (some req.leaderId)
        (Turn.start (c.proc i).node : NodeTurn MemStorage)
      have hwrote : ∀ eff ∈ (NodeTurn.descend req.term (some req.leaderId)
          (Turn.start (c.proc i).node : NodeTurn MemStorage)).effects,
          (replication cc True).legal a i eff := by
        unfold NodeTurn.descend
        split
        · intro eff heff T hT
          rw [List.mem_singleton.mp heff] at hT
          cases hT
        · nofun
      obtain ⟨b, hab, hgood, -, hrb⟩ := hdown.2 hwrote
      have hok := (packet_steps (replication cc True) hab hc.good hpacket).append src waiting i last
        req rfl
      generalize (NodeTurn.descend req.term (some req.leaderId)
        (Turn.start (c.proc i).node : NodeTurn MemStorage)) = y at hbooks hterm hrb
      have hlog := MemStorage.eq_of_log hbooks.entries hbooks.snapshot
      have hyterm : y.node.sm.currentTerm = req.term := hterm.trans (Nat.max_eq_right hle)
      obtain ⟨-, hr'⟩ := hrb.accept hgood hok hyterm (by rw [hlog]; exact hprev) hne
        (by rw [hlog]; exact fun _ => hsuffix)
      have hend := (hr'.memory.commit trivial).le_length
      have hlen : ((b.accept i last).log i).length ≤ last := by
        simp [State.accept]
      have hcommit : y.node.sm.commitIndex = (c.proc i).node.sm.commitIndex := hbooks.commitIndex
      rw [← hcommit, ← hok.last]
      exact Nat.le_trans hend hlen
    | _ => trivial

/-! ## What is known of an answer -/

/-- What is known of an answer `k` of node `j`, which is in state `n` now: the node led a
term `U` when it gave the answer, `k` was committed by then, and while it still leads that
term its commit index covers `k`. -/
def Known (cc : ClusterConfig) (a : Ghost) (j : NodeId) (n : RaftNodeInner MemStorage) (k : ℕ) :
    Prop :=
  k = 0 ∨ ∃ U T m, a.owner U = some j ∧ Committed (clusterRules cc True) a T m ∧ T ≤ U ∧ k ≤ m ∧
    (n.sm.role = .leader → n.sm.currentTerm = U → k ≤ n.sm.commitIndex)

/-- An index that every leader has to know stays known as the leaders of later terms are elected.
-/
theorem Known.step {n n' : RaftNodeInner MemStorage} {k : ℕ} (h : Known cc a j n k)
    (hg : Grows a b) (hlead : ∀ U, a.owner U = some j → n'.sm.role = .leader →
      n'.sm.currentTerm = U → n.sm.role = .leader ∧ n.sm.currentTerm = U ∧
        n.sm.commitIndex ≤ n'.sm.commitIndex) : Known cc b j n' k := by
  refine h.imp_right ?_
  rintro ⟨U, T, m, howner, hcom, hT, hk, hcover⟩
  refine ⟨U, T, m, hg.owner U j howner, hcom.grows hg, hT, hk, ?_⟩
  intro hrole hterm
  obtain ⟨hrole', hterm', hle⟩ := hlead U howner hrole hterm
  exact Nat.le_trans (hcover hrole' hterm') hle

/-- It stays known while the node stays as it is. -/
theorem Known.grows {n : RaftNodeInner MemStorage} {k : ℕ} (h : Known cc a j n k)
    (hg : Grows a b) : Known cc b j n k :=
  h.step hg fun _ _ hrole hterm => ⟨hrole, hterm, Nat.le_refl _⟩

/-- What a leader has settled it may answer with. -/
theorem Known.of_settled {n : RaftNodeInner MemStorage} {k c : ℕ} {U : ℕ}
    (howner : a.owner U = some j) (hterm : a.term j = U)
    (hs : Settled (clusterRules cc True) a j c) (hk : k ≤ c)
    (hcover : n.sm.role = .leader → k ≤ n.sm.commitIndex) : Known cc a j n k := by
  rcases hs with rfl | ⟨T, m, hcom, hT, hm, -⟩
  · exact .inl (Nat.le_zero.mp hk)
  · exact .inr ⟨U, T, m, howner, hcom, hterm ▸ hT, Nat.le_trans hk hm, fun hrole _ => hcover hrole⟩

/-- A restarted process follows. -/
theorem Process.follower_of_crash (cfg : RaftConfig) (input : Input) (k : ℕ)
    (q : Process MemStorage) : (q.act cfg input (some k)).node.sm.role = .follower := by
  obtain ⟨term, vote, commit, hboot⟩ :=
    Process.boot_volatile ((q.turn cfg input).cutNode q.node k).storage
  exact congrArg (fun m => m.sm.role) hboot

/-- A node that owns a term leads it for as long as it stays leader in that term. -/
theorem Replica.leads_before {p : Prop} {h : List Effect} {q : Process MemStorage}
    (hr : Replica cc p a i h q.node) (hgood : GoodGhost cc p a) {U : ℕ}
    (howner : a.owner U = some i) {cfg : RaftConfig} {input : Input} {crashAt : Option ℕ}
    (hrole : (q.act cfg input crashAt).node.sm.role = .leader)
    (hterm : (q.act cfg input crashAt).node.sm.currentTerm = U) :
    crashAt = none ∧ q.node.sm.role = .leader ∧ q.node.sm.currentTerm = U := by
  cases crashAt with
  | some k =>
    rw [Process.follower_of_crash] at hrole
    cases hrole
  | none =>
    refine ⟨rfl, ?_⟩
    by_contra hno
    -- a follower of its own term never comes back
    have hlost : U ≤ q.node.sm.currentTerm ∧
        (q.node.sm.currentTerm = U → q.node.sm.role = .follower) := by
      rw [hr.memory.term]
      refine ⟨hgood.1.owner_le U i howner, ?_⟩
      intro heq
      cases hq : q.node.sm.role with
      | follower => rfl
      | candidate => exact absurd (heq ▸ howner) (hr.memory.candidate hq).1
      | leader => exact absurd ⟨hq, hr.memory.term.trans heq⟩ hno
    have hkeeps : U ≤ (q.turn cfg input).node.volatile.sm.currentTerm ∧
        ((q.turn cfg input).node.volatile.sm.currentTerm = U →
          (q.turn cfg input).node.volatile.sm.role = .follower) := by
      refine Process.turn_keeps (I := fun m => U ≤ m.sm.currentTerm ∧
        (m.sm.currentTerm = U → m.sm.role = .follower)) (fun m m' hmove hm => ?_) hlost
      obtain ⟨hle, hrole⟩ := hm
      cases hmove with
      | stepDown leader hinput hlt => exact ⟨Nat.le_trans hle (Nat.le_of_lt hlt), fun _ => rfl⟩
      | stand hinput hrole' =>
        refine ⟨Nat.le_succ_of_le hle, ?_⟩
        intro heq
        have hnext : m.sm.currentTerm + 1 = U := heq
        omega
      | count hinput hrole' =>
        refine ⟨hle, ?_⟩
        intro heq
        rw [hrole heq] at hrole'
        cases hrole'
      | lead last hrole' hquorum =>
        refine ⟨hle, ?_⟩
        intro heq
        rw [hrole heq] at hrole'
        cases hrole'
      | progress peer f hrole' hf =>
        obtain ⟨progress, hsm⟩ := NodeTurn.updateProgress_eq peer f m.sm
        dsimp only
        rw [hsm]
        exact ⟨hle, hrole⟩
      | _ => exact ⟨hle, hrole⟩
    have hfollower := hkeeps.2 hterm
    rw [show (q.turn cfg input).node.volatile.sm.role = .leader from hrole] at hfollower
    cases hfollower

/-! ## Reads -/

namespace Cluster

/-- The node that gets a read index, and the channel it is to answer on. -/
def readAt? (cc : ClusterConfig) (c : Cluster MemStorage) (e : Event) :
    Option (NodeId × Sender) :=
  match c.input? cc e.action with
  | some (i, .message (.readIndex tx)) => some (i, tx)
  | _ => none

/-- Nobody has led a later term than that of node `i`. -/
def NoLaterLeader (cc : ClusterConfig) (c : Cluster MemStorage) (i : NodeId) : Prop :=
  ∀ j ∈ cc.members, ∀ term ∈ leaderships (c.proc j).history, term ≤ (c.sm i).currentTerm

instance (cc : ClusterConfig) (c : Cluster MemStorage) (i : NodeId) :
    Decidable (c.NoLaterLeader cc i) :=
  inferInstanceAs (Decidable (∀ j ∈ cc.members, ∀ term ∈ leaderships (c.proc j).history, _))

/-- Node `i` leads the latest term, and has committed an entry of it. -/
def LeadsLatest (cc : ClusterConfig) (c : Cluster MemStorage) (i : NodeId) : Prop :=
  (c.sm i).role = .leader ∧ c.NoLaterLeader cc i ∧
    (c.store i).term (c.sm i).commitIndex = .ok (c.sm i).currentTerm

instance (cc : ClusterConfig) (c : Cluster MemStorage) (i : NodeId) :
    Decidable (c.LeadsLatest cc i) := inferInstanceAs (Decidable (_ ∧ _ ∧ _))

/-- A read index reaches a leader of the latest term that has committed an entry of it. -/
def ReadsAtLatest (cc : ClusterConfig) (c : Cluster MemStorage) (e : Event) : Prop :=
  ∀ q ∈ c.readAt? cc e, c.LeadsLatest cc q.1

instance (cc : ClusterConfig) (c : Cluster MemStorage) (e : Event) :
    Decidable (ReadsAtLatest cc c e) :=
  inferInstanceAs (Decidable (∀ q ∈ c.readAt? cc e, c.LeadsLatest cc q.1))

/-- A read index is answered with no less than any index that was answered before, by
whichever node, and by a node that leads and that nobody has deposed. -/
def ReadsLinearizable (cc : ClusterConfig) (c : Cluster MemStorage) (e : Event) : Prop :=
  ∀ q ∈ c.readAt? cc e, ∀ r ∈ answers ((c.proc q.1).emitted (cc.config q.1)
      (.message (.readIndex q.2)) e.crashAt),
    (∀ j ∈ cc.members, ∀ told ∈ answers (c.proc j).history, told.2 ≤ r.2) ∧
      (c.sm q.1).role = .leader ∧ c.NoLaterLeader cc q.1

instance (cc : ClusterConfig) (c : Cluster MemStorage) (e : Event) :
    Decidable (ReadsLinearizable cc c e) :=
  inferInstanceAs (Decidable (∀ q ∈ c.readAt? cc e, ∀ r ∈ answers _, _ ∧ _ ∧ _))

/-- A read is asked for where the message is taken. -/
theorem mem_readAt? {tx : Sender} :
    (i, tx) ∈ c.readAt? cc e ↔ c.input? cc e.action = some (i, .message (.readIndex tx)) := by
  unfold readAt?
  split
  · rename_i j tx' heq
    rw [heq]
    simp [Option.mem_def]
  · rename_i hno
    exact iff_of_false nofun fun heq => hno i tx heq

end Cluster

/-- What a run with reads at the latest leader keeps: the cluster is a replicated log, the
indices are in order, and every answer is known. -/
structure ReadState (cc : ClusterConfig) (a : Ghost) (c : Cluster MemStorage) : Prop where
  holds : Simulation.Holds cc (replication cc True) c a
  books : Booking.Holds .any (fun _ n => Indices 0 0 n) cc c
  known : ∀ j ∈ cc.members, ∀ q ∈ answers (c.proc j).history, Known cc a j (c.proc j).node q.2

/-- At the start there is nothing to know. -/
theorem readState_init : ReadState cc State.init (init fun _ => MemStorage.new) where
  holds := replication_init
  books := Booking.holds_init fun _ _ => ⟨Fresh.aligned (.inl rfl), Fresh.indices (.inl rfl)⟩
  known _ _ _ hq := nomatch hq

/-- **Reads**: a leader of the latest term that has committed an entry of it has committed
every index that was answered. -/
theorem ReadState.covers (hc : ReadState cc a c) (hi : i ∈ cc.members) (hlead : c.LeadsLatest cc i)
    (hj : j ∈ cc.members) {q : Sender × ℕ} (hq : q ∈ answers (c.proc j).history) :
    q.2 ≤ (c.sm i).commitIndex := by
  obtain ⟨hrole, hlatest, hown⟩ := hlead
  have hri : Replica cc True a i (c.proc i).history (c.proc i).node := hc.holds.node i hi
  have hrj : Replica cc True a j (c.proc j).history (c.proc j).node := hc.holds.node j hj
  have hgood := hc.holds.good
  have hterm : (c.sm i).currentTerm = a.term i := hri.memory.term
  have howner := hri.memory.leader hrole
  rcases hc.known j hj q hq with hzero | ⟨U, T, m, howner', hcom, hT, hk, hcover⟩
  · omega
  have hUle : U ≤ (c.sm i).currentTerm :=
    hlatest j hj U (mem_leaderships.mpr (hrj.disk.led U howner'))
  rcases Nat.lt_or_eq_of_le (Nat.le_trans hT hUle) with hlt | heq
  · -- the leader was elected with everything that was committed then, and went beyond it
    have hstamp : TermLog.termAt LogEntry.term (a.canon (c.sm i).currentTerm)
        (c.sm i).commitIndex = (c.sm i).currentTerm := by
      have hpl := hri.disk.plain hgood
      rw [hterm, ← hgood.1.owner_log _ i howner rfl, ← hri.disk.entries, ← hpl.unwrapOr_term,
        hown, ← hterm]
      rfl
    have hbefore := hcom.lt_of_stamp hgood.1 (hgood.2 trivial) hlt (hterm ▸ howner) hstamp
    omega
  · -- it is the leader that answered
    obtain rfl : U = (c.sm i).currentTerm := by omega
    obtain rfl : j = i := by
      rw [hterm, howner] at howner'
      exact (Option.some.inj howner').symm
    exact hcover hrole rfl

/-- What one activation may rely on. -/
structure ReadStep (cc : ClusterConfig) (c : Cluster MemStorage) (e : Event) : Prop where
  strict : c.Meets cc Strict e
  reads : c.ReadsAtLatest cc e
  unique : (c.step cc e).UniqueLeaders cc

/-- A strict event keeps the log and the commit index. -/
theorem ReadState.kept (hc : ReadState cc a c) (h : c.Meets cc Strict e) :
    c.Meets cc (LogKept.and CommitKept) e := by
  have hcommit := commitKept_of_strict hc.holds h
  unfold Meets at *
  cases hin : c.input? cc e.action with
  | none => trivial
  | some q =>
    rw [hin] at hcommit
    have hi := (Simulation.cause_of_input hc.holds hin).1
    exact ⟨logKept_of_none (hc.holds.node q.1 hi).disk.snapshot, hcommit⟩

/-- The commit index does not fall within a turn. -/
theorem ReadState.commit_le (hc : ReadState cc a c) (h : c.Meets cc Strict e) {input : Input}
    (hin : c.input? cc e.action = some (i, input)) :
    (c.sm i).commitIndex ≤ ((c.proc i).turn (cc.config i) input).node.sm.commitIndex := by
  obtain ⟨hi, hcause⟩ := hc.books.cause hin
  obtain ⟨hbase, hI⟩ := hc.books.node i hi
  have hmeets := (hc.kept h).of_input hin
  have hI' : Indices (c.sm i).commitIndex 0 (c.proc i).node :=
    ⟨hI.ordered, hI.saved, Nat.le_refl _, Nat.zero_le _⟩
  obtain ⟨_, hend⟩ := (indices_keeps (h := []) hmeets.2 _ _).turn_passes hbase hI' trivial
    hmeets.1 hcause (.inl rfl)
  exact hend.commit

/-- An activation adds what it answers; a restart answers nothing. -/
theorem Process.answers_act (cfg : RaftConfig) (input : Input) (crashAt : Option ℕ)
    (p : Process MemStorage) : answers (p.act cfg input crashAt).history =
      answers p.history ++ answers (p.emitted cfg input crashAt) := by
  cases crashAt with
  | none => exact answers_append _ _
  | some k =>
    show answers (p.history ++ p.emitted cfg input (some k) ++ [.restored _]) = _
    rw [answers_append, answers_append]
    exact List.append_nil _

/-- What the activation of a read index answers with. -/
theorem Process.emitted_readIndex {cfg : RaftConfig} {tx : Sender} {crashAt : Option ℕ}
    {p : Process MemStorage} {q : Sender × ℕ}
    (hq : q ∈ answers (p.emitted cfg (.message (.readIndex tx)) crashAt)) :
    q = (tx, p.node.sm.commitIndex) := by
  have hall : answers (p.turn cfg (.message (.readIndex tx))).effects =
      [(tx, p.node.sm.commitIndex)] := rfl
  refine List.mem_singleton.mp (hall ▸ ?_)
  cases crashAt with
  | none => exact hq
  | some k =>
    obtain ⟨tx', m⟩ := q
    have hsub : (p.turn cfg (.message (.readIndex tx))).cutEffects k ⊆
        (p.turn cfg (.message (.readIndex tx))).effects :=
      List.map_subset _ (List.take_subset k _)
    exact mem_answers.mpr (hsub (mem_answers.mp hq))

/-- What an activation answers is known afterwards. -/
theorem ReadState.answer (hc : ReadState cc a c) (hreads : c.ReadsAtLatest cc e) {input : Input}
    (hin : c.input? cc e.action = some (i, input)) (hg : Grows a b) {h : List Effect}
    (hb : Replica cc True b i h ((c.proc i).act (cc.config i) input e.crashAt).node)
    {q : Sender × ℕ} (hq : q ∈ answers ((c.proc i).emitted (cc.config i) input e.crashAt)) :
    Known cc b i ((c.proc i).act (cc.config i) input e.crashAt).node q.2 := by
  have hi := (Simulation.cause_of_input hc.holds hin).1
  have hr : Replica cc True a i (c.proc i).history (c.proc i).node := hc.holds.node i hi
  -- after a crash nothing is asked of the commit index
  have hend : (e.crashAt = none →
        q.2 ≤ ((c.proc i).act (cc.config i) input e.crashAt).node.sm.commitIndex) →
      ((c.proc i).act (cc.config i) input e.crashAt).node.sm.role = .leader →
        q.2 ≤ ((c.proc i).act (cc.config i) input e.crashAt).node.sm.commitIndex := by
    intro hnone hrole
    cases hcrash : e.crashAt with
    | none => exact hcrash ▸ hnone hcrash
    | some k =>
      rw [hcrash, Process.follower_of_crash] at hrole
      cases hrole
  by_cases hread : ∃ tx, input = .message (.readIndex tx)
  · obtain ⟨tx, rfl⟩ := hread
    have hlead := (hreads _ (mem_readAt?.mpr hin)).1
    obtain rfl := Process.emitted_readIndex hq
    refine Known.grows ?_ hg
    refine .of_settled (hr.memory.leader hlead) rfl (hr.memory.commit trivial) (Nat.le_refl _)
      (hend fun hnone => ?_)
    rw [hnone]
    exact Nat.le_refl _
  · obtain ⟨hlead, hcover, hlast⟩ :=
      Process.emitted_covered (fun tx heq => hread ⟨tx, heq⟩) hq
    have howner := hr.memory.leader hlead
    rcases hcover with hle | ⟨hle, hterm⟩
    · exact Known.grows (.of_settled howner rfl (hr.memory.commit trivial) hle (hend hlast)) hg
    · refine .of_settled (hg.owner _ i howner) ?_ (hb.disk.commit trivial) hle (hend hlast)
      rw [← hb.disk.term, hterm]
      exact hr.memory.term

/-- **Step lemma.** -/
theorem ReadState.step (hc : ReadState cc a c) (h : ReadStep cc c e) :
    ∃ b, ReadState cc b (c.step cc e) := by
  have hunique : (exec cc c [e]).UniqueLeaders cc := h.unique
  have hstrict : Within cc Strict c [e] := ⟨h.strict, trivial⟩
  have hkept : Within cc (LogKept.and CommitKept) c [e] := ⟨hc.kept h.strict, trivial⟩
  obtain ⟨b, hg, hb⟩ := strict_run hc.holds hunique hstrict
  change Simulation.Holds cc (replication cc True) (c.step cc e) b at hb
  have hbooks : Booking.Holds .any (fun _ n => Indices 0 0 n) cc (c.step cc e) :=
    indices_booking.holds_run (fun _ _ hok _ _ hin => hok.of_input hin) hc.books hkept
  refine ⟨b, hb, hbooks, ?_⟩
  intro j hj q hq
  cases hin : c.input? cc e.action with
  | none =>
    have hsame : (c.step cc e).proc = c.proc := by
      unfold Cluster.step
      rw [hin]
    rw [hsame] at hq ⊢
    exact (hc.known j hj q hq).grows hg
  | some w =>
    obtain ⟨i, input⟩ := w
    by_cases hji : j = i
    · subst hji
      have hbj : Replica cc True b j ((c.step cc e).proc j).history ((c.step cc e).proc j).node :=
        hb.node j hj
      rw [proc_step hin] at hq hbj ⊢
      rw [Process.answers_act] at hq
      rcases List.mem_append.mp hq with hold | hnew
      · apply (hc.known j hj q hold).step hg
        intro U howner hrole hterm
        obtain ⟨hcrash, hrole', hterm'⟩ :=
          (hc.holds.node j hj).leads_before hc.holds.good howner hrole hterm
        refine ⟨hrole', hterm', ?_⟩
        rw [hcrash]
        exact hc.commit_le h.strict hin
      · exact hc.answer h.reads hin hg hbj hnew
    · have hsame : (c.step cc e).proc j = c.proc j := by
        unfold Cluster.step
        rw [hin]
        exact if_neg hji
      rw [hsame] at hq ⊢
      exact (hc.known j hj q hq).grows hg

/-- **Reads are linearizable** in a run from empty storages in which no term has two leaders,
the strict rules are kept, and every read index reaches a leader of the latest term that
has committed an entry of it.
SRCLINE: iceraft-node/src/node.rs:244-247, 749-801 -/
theorem reads_linearizable (cc : ClusterConfig) (es : List Event)
    (h : Within cc Strict (init fun _ => MemStorage.new) es)
    (hunique : (exec cc (init fun _ => MemStorage.new) es).UniqueLeaders cc)
    (hreads : Runs.Within (Cluster.step cc) (ReadsAtLatest cc) (init fun _ => MemStorage.new) es) :
    Runs.Within (Cluster.step cc) (ReadsLinearizable cc) (init fun _ => MemStorage.new) es := by
  have hsteps : Runs.Within (Cluster.step cc) (ReadStep cc) (init fun _ => MemStorage.new) es :=
    ((h.and hreads).and hunique.within).mono fun _ _ hok => ⟨hok.1.1, hok.1.2, hok.2⟩
  have hrun := hsteps.with_invariant (fun c => ∃ a, ReadState cc a c)
    (fun c e ⟨a, hc⟩ hok => hc.step hok) ⟨State.init, readState_init⟩
  refine hrun.mono ?_
  rintro c e ⟨⟨a, hc⟩, hok⟩ ⟨i, tx⟩ hread r hr
  have hlead := hok.reads _ hread
  obtain rfl := Process.emitted_readIndex hr
  have hi := (Simulation.cause_of_input hc.holds (mem_readAt?.mp hread)).1
  exact ⟨fun j hj told htold => hc.covers hi hlead hj htold, hlead.1, hlead.2.1⟩

/-- Node 1 commits two proposals, answers them, and gets a read index. -/
def readRun : List Event := ackedRun ++ [⟨.client 1 .readIndex, none⟩]

/-- The read index that node 1 gives out covers both proposals it has answered. -/
theorem reads_linearizable_readRun :
    ReadsLinearizable trio (exec trio (init fun _ => MemStorage.new) ackedRun)
      ⟨.client 1 .readIndex, none⟩ :=
  ((Runs.within_append _ _ _).mp (reads_linearizable trio readRun (by decide +kernel)
    (by decide +kernel) (by decide +kernel))).2.1

/-- Node 1 leads term 1 and hears nothing of term 2, in which node 2 is elected by node 3
and answers a proposal. -/
def deposedRun : List Event :=
  wonRun ++ [⟨.timer 2 true false, none⟩, ⟨.deliver 4, none⟩, ⟨.deliver 4, none⟩,
    ⟨.client 2 (.propose [9]), none⟩, ⟨.deliver 7, none⟩, ⟨.deliver 7, none⟩]

/-- A deposed leader and a follower both answer with a read index below an answered proposal. -/
theorem stale_reads :
    let c := exec trio (init fun _ => MemStorage.new) deposedRun
    Within trio (NoCrash.and Strict) (init fun _ => MemStorage.new) deposedRun ∧
      c.UniqueLeaders trio ∧ (6, ⟨2, 1, [9], .normal⟩) ∈ acceptances (c.proc 2).history ∧
      answers (c.proc 2).history = [(6, 1)] ∧
      (c.sm 1).role = .leader ∧
      answers ((c.step trio ⟨.client 1 .readIndex, none⟩).proc 1).history = [(9, 0)] ∧
      ¬ ReadsLinearizable trio c ⟨.client 1 .readIndex, none⟩ ∧
      (c.sm 3).role = .follower ∧
      answers ((c.step trio ⟨.client 3 .readIndex, none⟩).proc 3).history = [(9, 0)] ∧
      ¬ ReadsLinearizable trio c ⟨.client 3 .readIndex, none⟩ := by
  decide +kernel

end IceRaft
