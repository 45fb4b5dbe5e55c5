import IceRaft.Analysis.ElectionSafety
import IceRaft.Analysis.LeaderTurns
import IceRaft.Analysis.Limits
import IceRaft.Analysis.RoleState
import IceRaft.Analysis.Schedules
import Mathlib.Data.Finset.Lattice.Fold
import Mathlib.Data.Finset.Max
import Mathlib.Data.Prod.Lex

/-!
# A quorum without a leader elects one

Whatever state a cluster is in, a quorum of running nodes none of which leads can elect one of
them, and needs nobody else for it, as long as there is a term above theirs.  The candidate is the
node with the most advanced log; it stands until its term is above all others, and then nothing
keeps a voter from granting its vote.
-/

set_option autoImplicit false

namespace IceRaft

open MemStorage Cluster NodeTurn

/-- The last index of a log and its term, as a candidate names and a voter compares them. -/
def MemStorage.tip (s : MemStorage) : ℕ × ℕ :=
  (s.lastIndex, if s.lastIndex > 0 then unwrapOr (s.term s.lastIndex) 0 else 0)

/-- How advanced a log is: by the term of its last entry, then by its last index. -/
def MemStorage.rank (s : MemStorage) : ℕ ×ₗ ℕ := toLex (s.tip.2, s.tip.1)

/-- The request for votes of candidate `id` in `term`, with the log of `s`. -/
def ballot (s : MemStorage) (id : NodeId) (term : ℕ) : RequestVoteRequest :=
  ⟨term, id, s.tip.1, s.tip.2, false⟩

/-- Log and snapshot buffer are the same. -/
structure SameLog (n n' : RaftNodeInner MemStorage) : Prop where
  entries : n'.storage.entries = n.storage.entries
  snapshot : n'.storage.snapshot = n.storage.snapshot
  buffer : n'.snapshotBuf = n.snapshotBuf

/-- A node has its own log. -/
theorem SameLog.refl (n : RaftNodeInner MemStorage) : SameLog n n := ⟨rfl, rfl, rfl⟩

/-- To have the same log is transitive. -/
theorem SameLog.trans {a b c : RaftNodeInner MemStorage} (h : SameLog a b) (h' : SameLog b c) :
    SameLog a c :=
  ⟨h'.entries.trans h.entries, h'.snapshot.trans h.snapshot, h'.buffer.trans h.buffer⟩

/-- Then only the hard state may differ. -/
theorem SameLog.storage {n n' : RaftNodeInner MemStorage} (h : SameLog n n') :
    n'.storage = { n.storage with hardState := n'.storage.hardState } :=
  eq_of_log h.entries h.snapshot

/-- Then the last entry is the same. -/
theorem SameLog.tip {n n' : RaftNodeInner MemStorage} (h : SameLog n n') :
    n'.storage.tip = n.storage.tip := by
  rw [h.storage]
  rfl

/-- A voter whose log is not more advanced finds the log of the candidate good enough. -/
theorem candidateLogOk_of_rank {s s' : MemStorage} (h : s'.rank ≤ s.rank) (id : NodeId)
    (term : ℕ) : candidateLogOk (ballot s id term) s'.tip.1 s'.tip.2 = true := by
  unfold candidateLogOk ballot
  rw [decide_eq_true_eq]
  rcases Prod.Lex.toLex_le_toLex.mp h with hlt | ⟨heq, hle⟩
  · exact .inl hlt
  · exact .inr ⟨heq.symm, hle⟩

/-! ## The three turns of an election -/

section

variable {cfg : RaftConfig} {n : RaftNodeInner MemStorage}

/-- A fan-out sends the request to each peer. -/
theorem NodeTurn.fanOut_effects (peers : List NodeId) (req : RequestVoteRequest)
    (x : NodeTurn MemStorage) :
    (peers.foldl (fun y peer => y.effect (.spawned (.requestVote peer req))) x).effects =
      x.effects ++ peers.map fun peer => .spawned (.requestVote peer req) := by
  induction peers generalizing x with
  | nil => exact (List.append_nil _).symm
  | cons peer peers ih =>
    rw [List.foldl_cons, ih, Turn.emit_effects, List.append_assoc]
    rfl

/-- The node that stands. -/
def RaftNodeInner.standing (cfg : RaftConfig) (n : RaftNodeInner MemStorage) :
    RaftNodeInner MemStorage :=
  (NodeTurn.modifyMetrics (fun m => { m with electionsStarted := m.electionsStarted + 1 })
    (NodeTurn.modifySm (.becomeCandidate cfg.id) (Turn.start n)).saveHardState).node

/-- The election timer makes a candidate of a node that does not lead. -/
theorem timer_stands (hrole : n.sm.role ≠ .leader) (hquorum : 1 < cfg.quorum)
    (heartbeatDue : Bool) :
    let x := NodeTurn.run cfg (.timer true heartbeatDue) (Turn.start n)
    x.node = n.standing cfg ∧ ∀ peer ∈ cfg.peers,
      Effect.spawned (.requestVote peer (ballot n.storage cfg.id (n.sm.currentTerm + 1))) ∈
        x.effects := by
  have hstand : NodeTurn.run cfg (.timer true heartbeatDue) (Turn.start n) =
      NodeTurn.startElection cfg (Turn.start n) := if_pos ⟨rfl, hrole⟩
  dsimp only
  rw [hstand]
  unfold NodeTurn.startElection
  dsimp only
  rw [lastIndexOr0_eq, termOr0_eq]
  dsimp only
  rw [if_neg]
  · refine ⟨fanOut_node _ _ _, ?_⟩
    intro peer hpeer
    rw [NodeTurn.fanOut_effects]
    exact List.mem_append_right _ (List.mem_map_of_mem hpeer)
  · unfold NodeTurn.sm
    rw [fanOut_node]
    intro hwon
    exact absurd hwon.1 (Nat.not_le.mpr hquorum)

/-- A new leader has the log it had. -/
theorem takeLeadership_log (cfg : RaftConfig) (x : NodeTurn MemStorage) :
    SameLog x.node (x.takeLeadership cfg).node := by
  unfold NodeTurn.takeLeadership
  rw [lastIndexOr0_eq]
  dsimp only
  rw [replicateAll_node]
  exact ⟨rfl, rfl, rfl⟩

/-- A node that is a quorum by itself leads as soon as it stands. -/
theorem timer_leads (hrole : n.sm.role ≠ .leader) (hquorum : cfg.quorum ≤ 1)
    (heartbeatDue : Bool) :
    let x := NodeTurn.run cfg (.timer true heartbeatDue) (Turn.start n)
    x.sm = (n.standing cfg).sm.becomeLeader cfg.id n.storage.lastIndex cfg.peers ∧
      SameLog n x.node := by
  have hstand : NodeTurn.run cfg (.timer true heartbeatDue) (Turn.start n) =
      NodeTurn.startElection cfg (Turn.start n) := if_pos ⟨rfl, hrole⟩
  have hfan := fun req => fanOut_node cfg.peers req (NodeTurn.modifyMetrics
    (fun m => { m with electionsStarted := m.electionsStarted + 1 }) (NodeTurn.effect
      (.electionStarted (n.sm.currentTerm + 1))
      (NodeTurn.modifySm (.becomeCandidate cfg.id) (Turn.start n)).saveHardState))
  dsimp only
  rw [hstand]
  unfold NodeTurn.startElection
  dsimp only
  rw [lastIndexOr0_eq, termOr0_eq]
  dsimp only
  rw [if_pos]
  · refine ⟨?_, SameLog.trans ?_ (takeLeadership_log cfg _)⟩
    · rw [takeLeadership_sm]
      unfold NodeTurn.sm
      rw [fanOut_node]
      rfl
    · rw [fanOut_node]
      exact ⟨rfl, rfl, rfl⟩
  · unfold NodeTurn.sm
    rw [fanOut_node]
    exact ⟨hquorum, rfl⟩

/-- A voter in an earlier term votes for a candidate whose log is not behind its own. -/
theorem request_grants (cfg : RaftConfig) {s : MemStorage} (id : NodeId) {term : ℕ}
    (hterm : n.sm.currentTerm < term) (hrank : n.storage.rank ≤ s.rank) :
    let x := NodeTurn.run cfg (.requestVote (ballot s id term)) (Turn.start n)
    x.sm.currentTerm = term ∧ x.sm.role = .follower ∧ SameLog n x.node ∧
      Effect.replied (.requestVote (ballot s id term) (.ok ⟨term, true⟩)) ∈ x.effects := by
  have hok := candidateLogOk_of_rank hrank id term
  have hdown : (if (ballot s id term).term > (NodeTurn.sm (Turn.start n)).currentTerm
      then NodeTurn.stepDown (ballot s id term).term none (Turn.start n) else Turn.start n) =
      NodeTurn.stepDown term none (Turn.start n) := if_pos hterm
  have hrun : NodeTurn.run cfg (.requestVote (ballot s id term)) (Turn.start n) =
      NodeTurn.handleRequestVote (ballot s id term) (Turn.start n) := rfl
  dsimp only
  rw [hrun]
  unfold NodeTurn.handleRequestVote NodeTurn.onRequestVote
  dsimp only
  rw [hdown]
  have hsm : (NodeTurn.stepDown term none (Turn.start n)).sm = n.sm.becomeFollower term none := rfl
  have hlog : SameLog n (NodeTurn.stepDown term none (Turn.start n)).node := ⟨rfl, rfl, rfl⟩
  generalize NodeTurn.stepDown term none (Turn.start n) = y at hsm hlog
  rw [← hlog.tip] at hok
  have hle : ¬ (ballot s id term).term < y.sm.currentTerm := by
    rw [hsm]
    exact Nat.lt_irrefl term
  have hfree : ¬ alreadyVoted y.sm (ballot s id term).candidateId = true := by
    rw [hsm]
    exact Bool.false_ne_true
  rw [if_neg hle, if_neg hfree, lastIndexOr0_eq, termOr0_eq]
  dsimp only
  unfold MemStorage.tip at hok
  rw [if_pos hok]
  refine ⟨congrArg RaftStateMachine.currentTerm hsm, congrArg RaftStateMachine.role hsm,
    hlog.trans ⟨rfl, rfl, rfl⟩, ?_⟩
  rw [Turn.emit_effects]
  apply List.mem_append_right
  rw [show term = y.sm.currentTerm by rw [hsm]; rfl]
  exact List.mem_singleton_self _

/-- A node that leads `term` and knows nothing of its peers yet. -/
structure NewLeader (cfg : RaftConfig) (last term : ℕ) (sm : RaftStateMachine) : Prop where
  role : sm.role = .leader
  term : sm.currentTerm = term
  progress : sm.progress = RaftStateMachine.freshProgress last cfg.peers

/-- A candidate of `term` with at least the votes of `voters`, which are too few. -/
structure Candidate (cfg : RaftConfig) (term : ℕ) (voters : List NodeId)
    (sm : RaftStateMachine) : Prop where
  role : sm.role = .candidate
  term : sm.currentTerm = term
  votes : ∀ j ∈ voters, j ∈ sm.votesReceived
  few : sm.votesReceived.card < cfg.quorum

/-- A granted vote is counted, and the last one that is missing makes the candidate a leader;
a leader does not count any more. -/
theorem vote_counts {term : ℕ} {voters : List NodeId}
    (h : NewLeader cfg n.storage.lastIndex term n.sm ∨ Candidate cfg term voters n.sm)
    (peer : NodeId) :
    let x := NodeTurn.run cfg (.message (.voteResponse peer ⟨term, true⟩)) (Turn.start n)
    SameLog n x.node ∧ (NewLeader cfg n.storage.lastIndex term x.sm ∨
      Candidate cfg term (voters ++ [peer]) x.sm) := by
  rcases h with hleader | hcand
  · have hle : ¬ term > n.sm.currentTerm := by
      rw [hleader.term]
      exact Nat.lt_irrefl term
    have hskip : NodeTurn.run cfg (.message (.voteResponse peer ⟨term, true⟩)) (Turn.start n) =
        Turn.start n :=
      (if_neg hle).trans (if_neg fun h => RaftRole.noConfusion (hleader.role.symm.trans h.2))
    dsimp only
    rw [hskip]
    exact ⟨.refl n, .inl hleader⟩
  · have hle : ¬ term > n.sm.currentTerm := by
      rw [hcand.term]
      exact Nat.lt_irrefl term
    have hcount : NodeTurn.run cfg (.message (.voteResponse peer ⟨term, true⟩)) (Turn.start n) =
        let x := NodeTurn.modifySm (fun sm => { sm with
          votesReceived := insert peer sm.votesReceived }) (Turn.start n)
        if x.sm.votesReceived.card ≥ cfg.quorum then x.takeLeadership cfg else x :=
      (if_neg hle).trans (if_pos ⟨rfl, hcand.role⟩)
    dsimp only at hcount ⊢
    rw [hcount]
    split
    · have hlog := takeLeadership_log cfg (NodeTurn.modifySm (fun sm => { sm with
        votesReceived := insert peer sm.votesReceived }) (Turn.start n))
      refine ⟨⟨hlog.entries, hlog.snapshot, hlog.buffer⟩, .inl ?_⟩
      rw [takeLeadership_sm]
      exact ⟨rfl, hcand.term, rfl⟩
    · rename_i hfew
      refine ⟨⟨rfl, rfl, rfl⟩, .inr ⟨hcand.role, hcand.term, ?_, Nat.lt_of_not_le hfew⟩⟩
      intro j hj
      rcases List.mem_append.mp hj with hold | hlast
      · exact Finset.mem_insert_of_mem (hcand.votes j hold)
      · rw [List.mem_singleton.mp hlast]
        exact Finset.mem_insert_self _ _

end

/-! ## The election -/

section

variable {cc : ClusterConfig} {c₀ c d : Cluster MemStorage} {Q : Finset NodeId} {i : NodeId}
  {T : ℕ} {own : Action → Prop}

/-- The nodes of `Q` run, with the logs they had in `c₀`, and no other node has moved. -/
structure Kept (c₀ : Cluster MemStorage) (Q : Finset NodeId) (c : Cluster MemStorage) : Prop where
  outside : ∀ k, k ∉ Q → c.proc k = c₀.proc k
  looping : ∀ j ∈ Q, (c.proc j).looping = true
  log : ∀ j ∈ Q, SameLog (c₀.proc j).node (c.proc j).node

/-- An activation that keeps the log of its process keeps what the quorum needs. -/
theorem Kept.activated {input : Input} {asker : Option (NodeId × RpcTask)} {gone : Option Packet}
    {j : NodeId} (h : Kept c₀ Q c) (hj : j ∈ Q) (hd : Activated cc c j input asker gone d)
    (hinput : input ≠ .message .shutdown)
    (hlog : SameLog (c.proc j).node ((c.proc j).turn (cc.config j) input).node) :
    Kept c₀ Q d where
  outside k hk := by
    rw [hd.others k fun heq => hk (heq ▸ hj)]
    exact h.outside k hk
  looping k hk := by
    by_cases hkj : k = j
    · subst hkj
      rw [hd.proc]
      show ((c.proc k).looping && !decide (input = .message .shutdown)) = true
      rw [h.looping k hk, decide_eq_false hinput]
      rfl
    · rw [hd.others k hkj]
      exact h.looping k hk
  log k hk := by
    by_cases hkj : k = j
    · subst hkj
      rw [hd.proc]
      exact (h.log k hk).trans hlog
    · rw [hd.others k hkj]
      exact h.log k hk

/-- Node `i` stands for election, again and again; nobody else has moved. -/
structure Campaign (c₀ : Cluster MemStorage) (Q : Finset NodeId) (i : NodeId)
    (c : Cluster MemStorage) : Prop where
  kept : Kept c₀ Q c
  rest : ∀ j, j ≠ i → c.proc j = c₀.proc j
  role : (c.sm i).role ≠ .leader
  term : (c₀.sm i).currentTerm ≤ (c.sm i).currentTerm

/-- Candidate `i` has asked for votes in `T`: those of `served` have gone out and been counted,
or the election is over; the others are still asked for. -/
structure Election (cc : ClusterConfig) (c₀ : Cluster MemStorage) (Q : Finset NodeId) (i : NodeId)
    (T : ℕ) (served : List NodeId) (c : Cluster MemStorage) : Prop where
  kept : Kept c₀ Q c
  outcome : NewLeader (cc.config i) (c.store i).lastIndex T (c.sm i) ∨
    Candidate (cc.config i) T (i :: served) (c.sm i)
  voted : ∀ j ∈ served, (c.sm j).currentTerm = T
  asked : ∀ j ∈ Q, j ≠ i → j ∉ served → (c.sm j).currentTerm < T ∧
    .request i true (.requestVote j (ballot (c₀.store i) i T)) ∈ c.net

/-- A node that stands alone is a quorum only when it has no peers. -/
theorem RaftConfig.one_lt_quorum_iff (cfg : RaftConfig) : 1 < cfg.quorum ↔ cfg.peers ≠ [] := by
  rw [← List.length_pos_iff]
  unfold RaftConfig.quorum
  omega

/-- A member that is not the node itself is one of its peers. -/
theorem ClusterConfig.mem_peers {j : NodeId} (hi : i ∈ cc.members) (hj : j ∈ cc.members)
    (hne : j ≠ i) : j ∈ (cc.config i).peers := by
  have hmem : j ∈ (cc.config i).members := (cc.config_members i hi).symm ▸ hj
  rw [RaftConfig.members, cc.config_id i hi] at hmem
  rcases Finset.mem_insert.mp hmem with heq | hpeer
  · exact absurd heq hne
  · exact List.mem_toFinset.mp hpeer

/-- The last time the candidate stands, its term is above all others. -/
theorem Campaign.stands (h : Campaign c₀ Q i c) (hQ : Q ⊆ cc.members) (hi : i ∈ Q)
    (hterm : ∀ j ∈ Q, (c₀.sm j).currentTerm ≤ (c.sm i).currentTerm) :
    Can cc Q (Timeout Q) (fun d => Election cc c₀ Q i ((c.sm i).currentTerm + 1) [] d) c := by
  have hmem := hQ hi
  refine (can_timer ⟨i, hi, rfl⟩ hmem (h.kept.looping i hi)).mono ?_
  intro d hd
  have hbelow : ∀ j ∈ Q, j ≠ i → (d.sm j).currentTerm < (c.sm i).currentTerm + 1 := by
    intro j hj hne
    have hsame : d.sm j = c₀.sm j :=
      congrArg (fun p => p.node.sm) ((hd.others j hne).trans (h.rest j hne))
    rw [hsame]
    exact Nat.lt_succ_of_le (hterm j hj)
  have htip := (h.kept.log i hi).tip
  by_cases hpeers : 1 < (cc.config i).quorum
  · obtain ⟨hnode, hsent⟩ := timer_stands h.role hpeers false
    have hkept := h.kept.activated hi hd (by intro heq; cases heq) (by
      rw [show ((c.proc i).turn (cc.config i) _).node = _ from hnode]
      exact ⟨rfl, rfl, rfl⟩)
    have hsm : d.sm i = (c.sm i).becomeCandidate (cc.config i).id :=
      hd.sm.trans (congrArg RaftNodeInner.sm hnode)
    refine ⟨hkept, .inr ?_, ?_, ?_⟩
    · rw [hsm]
      refine ⟨rfl, rfl, ?_, hpeers⟩
      intro j hj
      rw [List.mem_singleton.mp hj, cc.config_id i hmem]
      exact Finset.mem_singleton_self i
    · intro j hj
      cases hj
    · intro j hj hne _
      refine ⟨hbelow j hj hne, ?_⟩
      have hpeer := hsent j (ClusterConfig.mem_peers hmem (hQ hj) hne)
      rw [cc.config_id i hmem] at hpeer
      have hballot : ballot (c.store i) i ((c.sm i).currentTerm + 1) =
          ballot (c₀.store i) i ((c.sm i).currentTerm + 1) := by
        unfold ballot
        rw [htip]
      rw [← hballot]
      exact hd.sent _ hpeer _ rfl
  · -- a candidate without peers is elected at once, and there is nobody else in the quorum
    obtain ⟨hsm', hlog⟩ := timer_leads h.role (Nat.le_of_not_lt hpeers) false
    have hnone : (cc.config i).peers = [] := by
      rwa [RaftConfig.one_lt_quorum_iff, not_not] at hpeers
    have hkept := h.kept.activated hi hd (by intro heq; cases heq) hlog
    have hsm : d.sm i = ((c.proc i).node.standing (cc.config i)).sm.becomeLeader
        (cc.config i).id (c.store i).lastIndex (cc.config i).peers := hd.sm.trans hsm'
    have hlast : (d.store i).lastIndex = (c.store i).lastIndex :=
      congrArg Prod.fst ((hkept.log i hi).tip.trans htip.symm)
    refine ⟨hkept, .inl ?_, ?_, ?_⟩
    · rw [hsm, hlast]
      exact ⟨rfl, rfl, rfl⟩
    · intro j hj
      cases hj
    · intro j hj hne _
      have hpeer := ClusterConfig.mem_peers hmem (hQ hj) hne
      rw [hnone] at hpeer
      cases hpeer

/-- `T` is the term behind the highest one of `Q`. -/
structure NextTerm (c : Cluster MemStorage) (Q : Finset NodeId) (T : ℕ) : Prop where
  above : ∀ j ∈ Q, (c.sm j).currentTerm < T
  least : ∃ j ∈ Q, T = (c.sm j).currentTerm + 1

/-- The candidate stands until its term is above all others, and no longer. -/
theorem Campaign.runs (h : Campaign c₀ Q i c) (hQ : Q ⊆ cc.members) (hi : i ∈ Q)
    (hstart : (c.sm i).currentTerm = (c₀.sm i).currentTerm) :
    Can cc Q (Timeout Q) (fun d => ∃ T, NextTerm c₀ Q T ∧ Election cc c₀ Q i T [] d) c := by
  have hmem := hQ hi
  have hhigh : Can cc Q (Timeout Q) (fun d => Campaign c₀ Q i d ∧
      (∃ j ∈ Q, (d.sm i).currentTerm ≤ (c₀.sm j).currentTerm) ∧
      ∀ j ∈ Q, (c₀.sm j).currentTerm ≤ (d.sm i).currentTerm) c := by
    refine Runs.Possible.countdown (P := fun n d => Campaign c₀ Q i d ∧
      (∃ j ∈ Q, (d.sm i).currentTerm ≤ (c₀.sm j).currentTerm) ∧
      Q.sup (fun j => (c₀.sm j).currentTerm) - (d.sm i).currentTerm = n) ?_
      ⟨h, ⟨i, hi, hstart.le⟩, rfl⟩
    rintro n t ⟨ht, hlow, rfl⟩
    by_cases hall : ∀ j ∈ Q, (c₀.sm j).currentTerm ≤ (t.sm i).currentTerm
    · exact .inl ⟨ht, hlow, hall⟩
    · obtain ⟨j, hj, hlt⟩ : ∃ j ∈ Q, (t.sm i).currentTerm < (c₀.sm j).currentTerm := by
        simpa using hall
      have hne : j ≠ i := by
        rintro rfl
        have := ht.term
        omega
      have hpeers : 1 < (cc.config i).quorum := by
        rw [RaftConfig.one_lt_quorum_iff]
        exact List.ne_nil_of_mem (ClusterConfig.mem_peers hmem (hQ hj) hne)
      refine .inr ((can_timer ⟨i, hi, rfl⟩ hmem (ht.kept.looping i hi)).mono ?_)
      intro d hd
      obtain ⟨hnode, -⟩ := timer_stands ht.role hpeers false
      have hsm : d.sm i = (t.sm i).becomeCandidate (cc.config i).id :=
        hd.sm.trans (congrArg RaftNodeInner.sm hnode)
      have hnext : (d.sm i).currentTerm = (t.sm i).currentTerm + 1 := by
        rw [hsm]
        rfl
      have hsup := Finset.le_sup (f := fun j => (c₀.sm j).currentTerm) hj
      refine ⟨_, ?_, ⟨?_, ?_, ?_, ?_⟩, ⟨j, hj, hnext.trans_le hlt⟩, rfl⟩
      · omega
      · refine ht.kept.activated hi hd (by intro heq; cases heq) ?_
        rw [show ((t.proc i).turn (cc.config i) _).node = _ from hnode]
        exact ⟨rfl, rfl, rfl⟩
      · intro k hk
        exact (hd.others k hk).trans (ht.rest k hk)
      · rw [hsm]
        exact RaftRole.noConfusion
      · have := ht.term
        omega
  refine hhigh.bind ?_
  rintro t ⟨ht, ⟨j, hj, hle⟩, hall⟩
  refine (ht.stands hQ hi hall).mono ?_
  intro d hd
  refine ⟨_, ⟨fun k hk => Nat.lt_succ_of_le (hall k hk), j, hj, ?_⟩, hd⟩
  rw [Nat.le_antisymm hle (hall j hj)]

/-- A voter that has not been served is served: it votes, and its vote is counted. -/
theorem Election.serve {served : List NodeId} {j : NodeId} (h : Election cc c₀ Q i T served c)
    (hQ : Q ⊆ cc.members) (hi : i ∈ Q) (hj : j ∈ Q) (hne : j ≠ i) (hnew : j ∉ served)
    (hserved : i ∉ served) (hrank : (c₀.store j).rank ≤ (c₀.store i).rank) :
    Can cc Q own (Election cc c₀ Q i T (served ++ [j])) c := by
  obtain ⟨hbelow, hasked⟩ := h.asked j hj hne hnew
  have hlog : (c.store j).rank ≤ (c₀.store i).rank := by
    unfold MemStorage.rank
    rw [(h.kept.log j hj).tip]
    exact hrank
  refine (can_ask hasked hQ hi hj).bind ?_
  intro d hd
  obtain ⟨hterm, -, hsame, hreply⟩ := request_grants (cc.config j) i hbelow hlog
  have hkept := h.kept.activated hj hd (by intro heq; cases heq) hsame
  have hvote := hd.sent _ hreply _ rfl
  have houtcome : NewLeader (cc.config i) (d.store i).lastIndex T (d.sm i) ∨
      Candidate (cc.config i) T (i :: served) (d.sm i) := by
    unfold Cluster.sm Cluster.store
    rw [hd.others i (Ne.symm hne)]
    exact h.outcome
  refine (can_answer hvote hQ hi hj rfl (hkept.looping i hi)).mono ?_
  intro f hf
  obtain ⟨hsame', hcounted⟩ := vote_counts houtcome j
  have hkept' := hkept.activated hi hf (by intro heq; cases heq) hsame'
  refine ⟨hkept', ?_, ?_, ?_⟩
  · have hlast : (f.store i).lastIndex = (d.store i).lastIndex :=
      congrArg Prod.fst ((hkept'.log i hi).tip.trans (hkept.log i hi).tip.symm)
    rw [hlast, hf.sm]
    exact hcounted
  · intro k hk
    rcases List.mem_append.mp hk with hold | hlast
    · have hki : k ≠ i := fun heq => hserved (heq ▸ hold)
      have hkj : k ≠ j := fun heq => hnew (heq ▸ hold)
      rw [hf.sm_other hki, hd.sm_other hkj]
      exact h.voted k hold
    · rw [List.mem_singleton.mp hlast, hf.sm_other hne]
      exact (congrArg RaftStateMachine.currentTerm hd.sm).trans hterm
  · intro k hk hki hnot
    obtain ⟨hold, hkj⟩ := not_or.mp (List.mem_append.not.mp hnot)
    rw [List.mem_singleton] at hkj
    obtain ⟨hlt, hpacket⟩ := h.asked k hk hki hold
    rw [hf.sm_other hki, hd.sm_other hkj]
    refine ⟨hlt, hf.kept _ (hd.kept _ hpacket ?_) ?_⟩
    · intro heq
      cases heq
      exact hkj rfl
    · intro heq
      cases heq

/-- When all of the quorum are served, the election is won. -/
theorem Election.won (h : Election cc c₀ Q i T (Q.erase i).toList c)
    (hquorum : (cc.config i).quorum ≤ Q.card) :
    NewLeader (cc.config i) (c.store i).lastIndex T (c.sm i) := by
  rcases h.outcome with hleader | ⟨-, -, hvotes, hfew⟩
  · exact hleader
  · have hall : Q ⊆ (c.sm i).votesReceived := by
      intro j hj
      apply hvotes j
      by_cases hji : j = i
      · exact hji ▸ List.mem_cons_self
      · exact List.mem_cons_of_mem _ (Finset.mem_toList.mpr (Finset.mem_erase.mpr ⟨hji, hj⟩))
    exact absurd (hquorum.trans (Finset.card_le_card hall)) (Nat.not_le.mpr hfew)

/-- The node of the quorum with the most advanced log is elected. -/
theorem elected (hQ : Q ⊆ cc.members) (hne : Q.Nonempty)
    (hquorum : ∀ j ∈ Q, (cc.config j).quorum ≤ Q.card)
    (hloop : ∀ j ∈ Q, (c.proc j).looping = true) (hrole : ∀ j ∈ Q, (c.sm j).role ≠ .leader) :
    ∃ i ∈ Q, Can cc Q (Timeout Q) (fun d => ∃ T, NextTerm c Q T ∧ Kept c Q d ∧
      NewLeader (cc.config i) (d.store i).lastIndex T (d.sm i) ∧
      ∀ j ∈ Q, (d.sm j).currentTerm = T) c := by
  obtain ⟨i, hi, hbest⟩ := Finset.exists_max_image Q (fun j => (c.store j).rank) hne
  have hcampaign : Campaign c Q i c :=
    ⟨⟨fun _ _ => rfl, hloop, fun _ _ => .refl _⟩, fun _ _ => rfl, hrole i hi, Nat.le_refl _⟩
  refine ⟨i, hi, (hcampaign.runs hQ hi rfl).bind ?_⟩
  rintro t ⟨T, hnext, helection⟩
  have hall : Can cc Q (Timeout Q) (Election cc c Q i T (Q.erase i).toList) t := by
    refine Runs.Possible.each (Q.erase i).toList ?_ helection
    intro served j waiting hl u hu
    have hnodup := Finset.nodup_toList (Q.erase i)
    have hj : j ∈ Q.erase i := by
      rw [← Finset.mem_toList, hl]
      exact List.mem_append_right _ List.mem_cons_self
    have hsub : i ∉ served := by
      intro hmem
      have hin : i ∈ Q.erase i := by
        rw [← Finset.mem_toList, hl]
        exact List.mem_append_left _ hmem
      exact (Finset.mem_erase.mp hin).1 rfl
    have hnew : j ∉ served := by
      rw [hl] at hnodup
      intro hmem
      exact (List.nodup_append.mp hnodup).2.2 j hmem j List.mem_cons_self rfl
    obtain ⟨hji, hjQ⟩ := Finset.mem_erase.mp hj
    exact hu.serve hQ hi hjQ hji hnew hsub (hbest j hjQ)
  refine hall.mono ?_
  intro d hd
  have hwon := hd.won (hquorum i hi)
  refine ⟨T, hnext, hd.kept, hwon, ?_⟩
  intro j hj
  by_cases hji : j = i
  · rw [hji]
    exact hwon.term
  · exact hd.voted j (Finset.mem_toList.mpr (Finset.mem_erase.mpr ⟨hji, hj⟩))

end

/-- **Failover**: in any state of a cluster over `MemStorage` in which the sums of the quorum fit
a `u64`, a quorum of running nodes none of which leads can elect one of them, in the term behind
the highest of theirs and without a change of their logs, by their own election timeouts and the
delivery of packets among themselves alone.
SRCLINE: iceraft-node/src/node.rs:268-286, 370-416, 507-558, 673-695,
iceraft-node/src/state.rs:85-104 -/
theorem quorum_elects (cc : ClusterConfig) (c : Cluster MemStorage) (Q : Finset NodeId)
    (hQ : Q ⊆ cc.members) (hne : Q.Nonempty) (hquorum : ∀ j ∈ Q, (cc.config j).quorum ≤ Q.card)
    (hloop : ∀ j ∈ Q, (c.proc j).looping = true) (hrole : ∀ j ∈ Q, (c.sm j).role ≠ .leader)
    (hfit : ∀ j ∈ Q, SumsFit (c.proc j).node) :
    ∃ i ∈ Q, ∃ term es, Runs.Within (step cc) (Orderly Q (Timeout Q)) c es ∧
      (∀ j ∈ Q, (c.sm j).currentTerm < term) ∧ term ≤ u64Max ∧
      (exec cc c es).Leads i term ∧
      (∀ j ∈ Q, ((exec cc c es).sm j).currentTerm = term ∧
        ((exec cc c es).store j).entries = (c.store j).entries ∧
        ((exec cc c es).store j).snapshot = (c.store j).snapshot) ∧
      ∀ k, k ∉ Q → (exec cc c es).proc k = c.proc k := by
  obtain ⟨i, hi, es, hes, term, ⟨hbelow, j, hj, hnext⟩, hkept, hleader, hterms⟩ :=
    elected hQ hne hquorum hloop hrole
  have hmax : term ≤ u64Max := hnext.trans_le (hfit j hj).term
  refine ⟨i, hi, term, es, hes, hbelow, hmax, ⟨hleader.role, hleader.term⟩, ?_, hkept.outside⟩
  intro j hj
  exact ⟨hterms j hj, (hkept.log j hj).entries, (hkept.log j hj).snapshot⟩

/-- Node 1 leads three nodes. -/
def wonCluster : Cluster MemStorage := exec trio (init fun _ => MemStorage.new) wonRun

/-- Nodes 2 and 3 can replace the leader of three. -/
theorem quorum_elects_wonCluster :
    wonCluster.Leads 1 1 ∧ ∃ i ∈ ({2, 3} : Finset NodeId), ∃ term es,
      Runs.Within (step trio) (Orderly {2, 3} (Timeout {2, 3})) wonCluster es ∧
      (∀ j ∈ ({2, 3} : Finset NodeId), (wonCluster.sm j).currentTerm < term) ∧ term ≤ u64Max ∧
      (exec trio wonCluster es).Leads i term ∧
      (∀ j ∈ ({2, 3} : Finset NodeId), ((exec trio wonCluster es).sm j).currentTerm = term ∧
        ((exec trio wonCluster es).store j).entries = (wonCluster.store j).entries ∧
        ((exec trio wonCluster es).store j).snapshot = (wonCluster.store j).snapshot) ∧
      ∀ k, k ∉ ({2, 3} : Finset NodeId) → (exec trio wonCluster es).proc k = wonCluster.proc k :=
  ⟨by decide +kernel, quorum_elects trio wonCluster {2, 3} (by decide) (by decide) (by decide)
    (by decide +kernel) (by decide +kernel) (by decide +kernel)⟩

end IceRaft
