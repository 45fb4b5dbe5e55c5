import IceRaft.Analysis.CatchUp
import IceRaft.Analysis.NodeMachine
import IceRaft.Analysis.ProgressTurns

/-!
# Rounds between a leader and a follower

A round is a heartbeat, its delivery to one follower and the delivery of the response.  It lowers
a count that falls while the next index falls, and then while the match index rises.  What the
leader does for others in the meantime makes no difference.
-/

set_option autoImplicit false

namespace IceRaft

open MemStorage Cluster NodeTurn

/-! ## The turns of the leader -/

section

variable {cfg : RaftConfig} {n n' : RaftNodeInner MemStorage} {s f : MemStorage} {term : ℕ}
  {peer : NodeId} {pr : Progress}

/-- A leader of `term` with the log of `s`. -/
structure Heads (s : MemStorage) (term : ℕ) (n : RaftNodeInner MemStorage) : Prop where
  role : n.sm.role = .leader
  term : n.sm.currentTerm = term
  entries : n.storage.entries = s.entries
  snapshot : n.storage.snapshot = s.snapshot

/-- A leader with the same chart heads the same log. -/
theorem Heads.same (h : Heads s term n) (hs : SameChart n n') : Heads s term n' :=
  ⟨hs.role.trans h.role, hs.term.trans h.term, hs.entries.trans h.entries,
    hs.snapshot.trans h.snapshot⟩

/-- A report does not change what it heads. -/
theorem Heads.reported (h : Heads s term n) (peer : NodeId) (g : Progress → Progress) :
    Heads s term { n with sm := updateProgress peer g n.sm } := by
  obtain ⟨m, hm⟩ := updateProgress_eq peer g n.sm
  refine ⟨?_, ?_, h.entries, h.snapshot⟩
  · show (updateProgress peer g n.sm).role = .leader
    rw [hm]
    exact h.role
  · show (updateProgress peer g n.sm).currentTerm = term
    rw [hm]
    exact h.term

/-- With the same chart it is as far with its peer. -/
theorem Leading.same (h : Leading s term peer pr n) (hs : SameChart n n') :
    Leading s term peer pr n' where
  role := hs.role.trans h.role
  term := hs.term.trans h.term
  progress := by
    rw [hs.progress]
    exact h.progress
  entries := hs.entries.trans h.entries
  snapshot := hs.snapshot.trans h.snapshot

/-- Code that keeps the chart only adds effects. -/
theorem Still.effects {x y : NodeTurn MemStorage} (h : Still x y) : x.effects ⊆ y.effects := by
  obtain ⟨t, ht, -⟩ := h.trace
  intro e he
  rw [Turn.effects, ht, List.map_append]
  exact List.mem_append_left _ he

/-- Among what a leader sends to its peers is what it sends to this one. -/
theorem replicateAll_sends {x : NodeTurn MemStorage} (h : Leading s term peer pr x.node)
    (halign : s.Aligned) (hlo : s.firstIndex ≤ pr.nextIndex) (hhi : pr.nextIndex ≤ s.lastIndex + 1)
    (hpeer : peer ∈ cfg.peers) :
    ∃ es, Batch s pr.nextIndex es ∧
      Effect.spawned (.appendEntries peer (pr.nextIndex - 1 + es.length)
        { term := term, leaderId := cfg.id, prevLogIndex := pr.nextIndex - 1,
          prevLogTerm := unwrapOr (s.term (pr.nextIndex - 1)) 0,
          entries := es.map logEntryToProtoEntry, leaderCommit := x.sm.commitIndex }) ∈
        (x.replicateAll cfg).effects := by
  have hgrows : ∀ (l : List NodeId) (y : NodeTurn MemStorage), (∀ k ∈ l, k ∈ cfg.peers) →
      y.node = x.node → y.effects ⊆ (l.foldl (fun y k => y.replicateTo cfg k) y).effects := by
    intro l
    induction l with
    | nil => exact fun y _ _ => List.Subset.refl _
    | cons k l ih =>
      intro y hl hy
      have hrole : y.sm.role = .leader := by
        rw [show y.sm = x.sm from congrArg RaftNodeInner.sm hy]
        exact h.role
      have hgo : Goes (fun _ => True) cfg (.timer false true) y (y.replicateTo cfg k) :=
        Goes.replicateTo (hl k List.mem_cons_self) hrole
      obtain ⟨es, heff, -⟩ := hgo
      refine List.Subset.trans ?_ (ih (y.replicateTo cfg k)
        (fun k' hk' => hl k' (List.mem_cons_of_mem _ hk')) ((replicateTo_node k y).trans hy))
      rw [heff]
      exact List.subset_append_left _ _
  have hrole : ¬ x.sm.role ≠ .leader := not_not_intro h.role
  unfold NodeTurn.replicateAll
  rw [if_neg hrole]
  obtain ⟨l, l', hsplit⟩ := List.append_of_mem hpeer
  have hnode : (l.foldl (fun y k => y.replicateTo cfg k) x).node = x.node :=
    Turn.foldl_keeps Turn.node (fun y k => replicateTo_node k y) l x
  rw [hsplit, List.foldl_append, List.foldl_cons]
  generalize l.foldl (fun y k => y.replicateTo cfg k) x = y at hnode
  obtain ⟨es, hb, hsent⟩ := Leading.sendsAppend cfg (x := y) (hnode ▸ h) halign hlo hhi
  refine ⟨es, hb, hgrows l' _ ?_ ((replicateTo_node peer y).trans hnode) ?_⟩
  · intro k hk
    rw [hsplit]
    exact List.mem_append_right _ (List.mem_cons_of_mem _ hk)
  · rw [hsent, Turn.emit_effects]
    apply List.mem_append_right
    rw [show y.sm.commitIndex = x.sm.commitIndex from congrArg (fun n => n.sm.commitIndex) hnode]
    exact List.mem_singleton_self _

/-- Whoever waits for an index that is committed now is answered. -/
theorem maybeAdvanceCommit_answers {x : NodeTurn MemStorage} (hlead : x.sm.role = .leader)
    {w : ℕ × Sender} (hw : w ∈ x.node.pending) (hle : w.1 ≤ nextCommit cfg x) :
    Effect.answered w.2 (.ok w.1) ∈ (x.maybeAdvanceCommit cfg).effects := by
  have hloop : ∀ y : NodeTurn MemStorage, y.node.pending = x.node.pending →
      y.sm.commitIndex = nextCommit cfg x →
      Effect.answered w.2 (.ok w.1) ∈ y.notifyPending.effects := by
    intro y hpending hcommit
    rw [notifyPending_effects]
    apply List.mem_append_right
    refine List.mem_map.mpr ⟨w, List.mem_filter.mpr ⟨hpending ▸ hw, ?_⟩, rfl⟩
    rw [hcommit]
    exact decide_eq_true hle
  unfold NodeTurn.maybeAdvanceCommit
  rw [if_neg (not_not_intro hlead), lastIndexOr0_eq]
  dsimp only
  rw [(commitScan_cases cfg x.node.storage.lastIndex x).1, ← nextCommit_of_leader cfg hlead]
  split
  · exact hloop _ rfl rfl
  · rename_i hle'
    exact hloop x rfl (nextCommit_of_not_lt hle').symm

/-- The commit step of a leader keeps or answers whoever waits. -/
theorem maybeAdvanceCommit_waits {x : NodeTurn MemStorage} (hlead : x.sm.role = .leader)
    {w : ℕ × Sender} (hw : w ∈ x.node.pending) :
    w ∈ (x.maybeAdvanceCommit cfg).node.pending ∨
      Effect.answered w.2 (.ok w.1) ∈ (x.maybeAdvanceCommit cfg).effects := by
  rcases Nat.lt_or_ge (nextCommit cfg x) w.1 with hlt | hle
  · left
    rw [(maybeAdvanceCommit_pending cfg hlead).1]
    exact List.mem_filter.mpr ⟨hw, decide_eq_true hlt⟩
  · exact .inr (maybeAdvanceCommit_answers hlead hw hle)

/-- Applying entries leaves the waiting proposals and the commit index alone. -/
theorem applyCommitted_waits (x : NodeTurn MemStorage) :
    x.applyCommitted.node.pending = x.node.pending ∧
      x.applyCommitted.sm.commitIndex = x.sm.commitIndex := by
  unfold NodeTurn.applyCommitted
  dsimp only
  split
  · exact ⟨rfl, rfl⟩
  · rw [read_entries]
    cases x.node.storage.readEntries (x.sm.lastApplied + 1) (x.sm.commitIndex + 1) none with
    | error e => exact ⟨rfl, rfl⟩
    | ok es =>
      have hpending : ∀ (y : NodeTurn MemStorage) e,
          (y.applyOne e).node.pending = y.node.pending := fun _ _ => rfl
      have hcommit : ∀ (y : NodeTurn MemStorage) e,
          (y.applyOne e).sm.commitIndex = y.sm.commitIndex := fun _ _ => rfl
      exact ⟨Turn.foldl_keeps (fun y => y.node.pending) hpending es x,
        Turn.foldl_keeps (fun y : NodeTurn MemStorage => y.sm.commitIndex) hcommit es x⟩

/-- The last index of a leader is committed when its entry is of the current term and a quorum
holds it. -/
theorem lastIndex_le_nextCommit {x : NodeTurn MemStorage} (hlead : x.sm.role = .leader)
    (hterm : unwrapOr (x.node.storage.term x.node.storage.lastIndex) 0 = x.sm.currentTerm)
    (hquorum : cfg.quorum ≤ x.sm.replicated x.node.storage.lastIndex) :
    x.node.storage.lastIndex ≤ nextCommit cfg x := by
  rw [nextCommit_of_leader cfg hlead]
  cases hlast : x.node.storage.lastIndex with
  | zero => exact Nat.zero_le _
  | succ k =>
    rw [hlast] at hterm hquorum
    unfold commitScan
    rw [read_term]
    dsimp only
    split
    · rw [if_pos ⟨hterm, hquorum⟩]
    · rename_i hge
      exact Nat.le_of_not_lt hge

/-- The heartbeat of a leader. -/
theorem heartbeat_run (hrole : n.sm.role = .leader) :
    NodeTurn.run cfg (.timer false true) (Turn.start n) =
      ((NodeTurn.replicateAll cfg (Turn.start n)).maybeAdvanceCommit cfg).applyCommitted := by
  show NodeTurn.timerBranch cfg false true (Turn.start n) = _
  unfold NodeTurn.timerBranch
  rw [if_neg fun h => Bool.false_ne_true h.1, if_pos ⟨rfl, hrole⟩]

/-- A heartbeat keeps the chart, sends what is due, and loses no caller. -/
theorem heartbeat_keeps (cfg : RaftConfig) (hrole : n.sm.role = .leader) :
    let x := NodeTurn.run cfg (.timer false true) (Turn.start n)
    SameChart n x.node ∧
      (NodeTurn.replicateAll cfg (Turn.start n)).effects ⊆ x.effects ∧
      ∀ w ∈ n.pending, w ∈ x.node.pending ∨ Effect.answered w.2 (.ok w.1) ∈ x.effects := by
  dsimp only
  rw [heartbeat_run hrole]
  have hnode : (NodeTurn.replicateAll cfg (Turn.start n)).node = n := replicateAll_node cfg _
  generalize NodeTurn.replicateAll cfg (Turn.start n) = y at hnode
  have hstill : Still y (y.maybeAdvanceCommit cfg).applyCommitted :=
    (Still.maybeAdvanceCommit y).next (Still.applyCommitted _)
  refine ⟨hnode ▸ hstill.node, hstill.effects, ?_⟩
  intro w hw
  rw [(applyCommitted_waits _).1]
  rw [← hnode] at hrole hw
  exact (maybeAdvanceCommit_waits hrole hw).imp_right fun h =>
    (Still.applyCommitted _).effects h

/-- The heartbeat of a leader whose last entry a quorum holds commits it, and answers whoever
waits for it. -/
theorem heartbeat_commits (hrole : n.sm.role = .leader)
    (hterm : unwrapOr (n.storage.term n.storage.lastIndex) 0 = n.sm.currentTerm)
    (hquorum : cfg.quorum ≤ n.sm.replicated n.storage.lastIndex) :
    let x := NodeTurn.run cfg (.timer false true) (Turn.start n)
    n.storage.lastIndex ≤ x.sm.commitIndex ∧ ∀ w ∈ n.pending, w.1 ≤ n.storage.lastIndex →
      Effect.answered w.2 (.ok w.1) ∈ x.effects := by
  dsimp only
  rw [heartbeat_run hrole]
  have hnode : (NodeTurn.replicateAll cfg (Turn.start n)).node = n := replicateAll_node cfg _
  generalize NodeTurn.replicateAll cfg (Turn.start n) = y at hnode
  subst hnode
  have hnext := lastIndex_le_nextCommit hrole hterm hquorum
  refine ⟨?_, ?_⟩
  · rw [(applyCommitted_waits _).2]
    unfold NodeTurn.sm
    rw [(maybeAdvanceCommit_node cfg y).1]
    exact hnext
  · intro w hw hle
    apply (Still.applyCommitted _).effects
    exact maybeAdvanceCommit_answers hrole hw (hle.trans hnext)

/-- A response of a peer moves its progress, and the commit step follows. -/
theorem report_keeps (cfg : RaftConfig) (h : Heads s term n) (peer : NodeId) {last : ℕ}
    {resp : AppendEntriesResponse} (hresp : resp.term ≤ term) :
    let x := NodeTurn.run cfg (.message (.appendResponse peer last resp)) (Turn.start n)
    SameChart { n with sm := updateProgress peer (progressAfterAppend last resp) n.sm } x.node ∧
      ∀ w ∈ n.pending, w ∈ x.node.pending ∨ Effect.answered w.2 (.ok w.1) ∈ x.effects := by
  have hle : resp.term ≤ (NodeTurn.sm (Turn.start n)).currentTerm := by
    rw [show (NodeTurn.sm (Turn.start n)).currentTerm = term from h.term]
    exact hresp
  have hrun : NodeTurn.run cfg (.message (.appendResponse peer last resp)) (Turn.start n) =
      (NodeTurn.modifySm (updateProgress peer (progressAfterAppend last resp))
        (Turn.start n)).maybeAdvanceCommit cfg :=
    NodeTurn.handleResponse_of_leader cfg peer (progressAfterAppend last resp) h.role hle
  dsimp only
  rw [hrun]
  have hstill : Still _ ((NodeTurn.modifySm (updateProgress peer (progressAfterAppend last resp))
      (Turn.start n)).maybeAdvanceCommit cfg) := Still.maybeAdvanceCommit _
  refine ⟨hstill.node, ?_⟩
  intro w hw
  apply maybeAdvanceCommit_waits _ hw
  obtain ⟨m, hm⟩ := updateProgress_eq peer (progressAfterAppend last resp) n.sm
  show (updateProgress peer (progressAfterAppend last resp) n.sm).role = .leader
  rw [hm]
  exact h.role

/-- The progress of the peer afterwards. -/
theorem Leading.reported (h : Leading s term peer pr n) (g : Progress → Progress) :
    Leading s term peer (g pr) { n with sm := updateProgress peer g n.sm } := by
  have hsm : updateProgress peer g n.sm =
      { n.sm with progress := n.sm.progress.insert peer (g pr) } := by
    unfold updateProgress
    rw [h.progress]
  refine ⟨?_, ?_, ?_, h.entries, h.snapshot⟩
  · show (updateProgress peer g n.sm).role = .leader
    rw [hsm]
    exact h.role
  · show (updateProgress peer g n.sm).currentTerm = term
    rw [hsm]
    exact h.term
  · show (updateProgress peer g n.sm).progress.lookup peer = some (g pr)
    rw [hsm]
    exact AList.lookup_insert _

/-- The progress of the others stays. -/
theorem Leading.elsewhere {other : NodeId} (h : Leading s term peer pr n) (g : Progress → Progress)
    (hne : peer ≠ other) : Leading s term peer pr { n with sm := updateProgress other g n.sm } := by
  obtain ⟨m, hm⟩ := updateProgress_eq other g n.sm
  refine ⟨?_, ?_, ?_, h.entries, h.snapshot⟩
  · show (updateProgress other g n.sm).role = .leader
    rw [hm]
    exact h.role
  · show (updateProgress other g n.sm).currentTerm = term
    rw [hm]
    exact h.term
  · show (updateProgress other g n.sm).progress.lookup peer = some pr
    unfold updateProgress
    split
    · exact (AList.lookup_insert_ne hne).trans h.progress
    · exact h.progress

end

/-! ## A round -/

section

variable {cfg : RaftConfig} {L F : RaftNodeInner MemStorage} {s f : MemStorage} {term m : ℕ}
  {peer : NodeId} {pr : Progress} {es : List LogEntry}

/-- A follower that agrees up to the previous entry takes the batch. -/
theorem Agreed.accepts (hs : s.Aligned) (hF : Ready term F) (h : Agreed s F.storage m)
    (hb : Batch s (m + 1) es) (id : NodeId) (commit : ℕ) :
    let req : AppendEntriesRequest :=
      ⟨term, id, m, unwrapOr (s.term m) 0, es.map logEntryToProtoEntry, commit⟩
    let y := NodeTurn.onAppendEntries req (Turn.start F)
    y.1 = .ok ⟨term, true, 0, 0⟩ ∧ Ready term y.2.node ∧
      Agreed s y.2.node.storage (m + es.length) := by
  dsimp only
  generalize hreq : (⟨term, id, m, unwrapOr (s.term m) 0, es.map logEntryToProtoEntry,
    commit⟩ : AppendEntriesRequest) = req
  have haccepts : Accepts F req = true := by
    rw [accepts_iff, ← hreq]
    exact ⟨hF.term, h.prev.imp_right .inl⟩
  obtain ⟨hresp, hnode⟩ := onAppendEntries_accepted (x := Turn.start F) haccepts
  have hreqterm : req.term = term := by rw [← hreq]
  have hbatch : req.entries.map protoEntryToLogEntry = es := by
    rw [← hreq]
    exact map_protoEntryToLogEntry es
  have hstore : (NodeTurn.onAppendEntries req (Turn.start F)).2.node.storage =
      { F.storage.appendEntries es with
        hardState := (NodeTurn.onAppendEntries req (Turn.start F)).2.node.storage.hardState } := by
    refine eq_of_log ?_ ?_
    · rw [hnode.entries, hbatch]
      rfl
    · rw [hnode.snapshot, appendEntries_snapshot]
      rfl
  have hext := h.extend hs hb
  refine ⟨?_, ⟨hnode.snapshotBuf.trans hF.snapshotBuf, (hnode.term.trans hreqterm).le⟩, ?_⟩
  · rw [hresp, hreqterm]
  · rw [hstore]
    exact ⟨hext.aligned, hext.first, hext.last, hext.prev, hext.same⟩

/-- A follower without a snapshot that does not have the previous entry hints at an earlier
index, and keeps its log. -/
theorem Ready.refuses (hF : Ready term F) (hone : F.storage.firstIndex = 1) {prev : ℕ}
    (hprev : ¬ (prev = 0 ∨ F.storage.term prev = .ok (unwrapOr (s.term prev) 0))) (id : NodeId)
    (entries : List ProtoEntry) (commit : ℕ) :
    let req : AppendEntriesRequest :=
      ⟨term, id, prev, unwrapOr (s.term prev) 0, entries, commit⟩
    let y := NodeTurn.onAppendEntries req (Turn.start F)
    ∃ c t, y.1 = .ok (reject c t term) ∧ 1 ≤ c ∧ c ≤ prev ∧ Ready term y.2.node ∧
      y.2.node.storage.entries = F.storage.entries ∧
      y.2.node.storage.snapshot = F.storage.snapshot := by
  dsimp only
  obtain ⟨hne, hterm⟩ := not_or.mp hprev
  generalize hreq : (⟨term, id, prev, unwrapOr (s.term prev) 0, entries, commit⟩ :
    AppendEntriesRequest) = req
  have hreqterm : req.term = term := by rw [← hreq]
  have hreqprev : req.prevLogIndex = prev := by rw [← hreq]
  have hnot : ¬ PrevOk F.storage req := by
    rw [← hreq]
    rintro (h0 | hok | ⟨r, c, herr⟩)
    · exact hne h0
    · exact hterm hok
    · -- nothing is compacted, so the read does not fail in this way
      have herr' : F.storage.term prev = .error (.logCompacted r c) := herr
      rw [term_of_firstIndex_le (by omega)] at herr'
      unfold termInLog at herr'
      rw [if_neg (by omega)] at herr'
      split at herr'
      · cases herr'
      · cases herr'
  have hrefused : Accepts F req = false :=
    Bool.eq_false_iff.mpr fun hacc => hnot ((accepts_iff _ _).mp hacc).2
  obtain ⟨c, t, hresp, hc1, hc, hnode⟩ := onAppendEntries_refused (x := Turn.start F)
    (hF.term.trans_eq hreqterm.symm)
    (by show F.storage.firstIndex ≤ req.prevLogIndex; omega) hrefused
  exact ⟨c, t, hreqterm ▸ hresp, hc1, hreqprev ▸ hc,
    ⟨hnode.snapshotBuf.trans hF.snapshotBuf, (hnode.term.trans hreqterm).le⟩, hnode.entries,
    hnode.snapshot⟩

/-- Leader and follower on the way to agreement, `count` away from it: the next index falls,
then the match index rises. -/
inductive Pace (s f : MemStorage) (term : ℕ) (peer : NodeId) :
    ℕ → RaftNodeInner MemStorage × RaftNodeInner MemStorage → Prop
  | probing {next : ℕ} {pair : RaftNodeInner MemStorage × RaftNodeInner MemStorage}
      (h : Probing s f term peer next pair) (hpos : 1 ≤ next) (hle : next ≤ s.lastIndex + 1) :
      Pace s f term peer (s.lastIndex + next) pair
  | matched {m : ℕ} {pair : RaftNodeInner MemStorage × RaftNodeInner MemStorage}
      (h : Matched s term peer m pair) : Pace s f term peer (s.lastIndex - m) pair

/-- It does not matter what else the leader knows. -/
theorem Pace.sees {count : ℕ} {L' : RaftNodeInner MemStorage}
    (h : Pace s f term peer count (L, F))
    (hlead : ∀ pr, Leading s term peer pr L → Leading s term peer pr L') :
    Pace s f term peer count (L', F) := by
  generalize hp : (L, F) = pair at h
  cases h with
  | probing h hpos hle =>
    subst hp
    obtain ⟨pr, hL, hnext, hzero⟩ := h.leading
    exact .probing ⟨⟨pr, hlead pr hL, hnext, hzero⟩, h.ready, h.entries, h.snapshot⟩ hpos hle
  | matched h =>
    subst hp
    obtain ⟨pr, hL, hnext, hmatch⟩ := h.leading
    exact .matched ⟨⟨pr, hlead pr hL, hnext, hmatch⟩, h.ready, h.agreed, h.first, h.last⟩

/-- The request of a round and its response, after which leader and follower are as `P` says,
whatever else the leader has done in the meantime. -/
def Rounds (cfg : RaftConfig) (peer : NodeId) (term : ℕ)
    (P : RaftNodeInner MemStorage × RaftNodeInner MemStorage → Prop)
    (L F : RaftNodeInner MemStorage) : Prop :=
  ∃ last req resp,
    Effect.spawned (.appendEntries peer last req) ∈
      (NodeTurn.replicateAll cfg (Turn.start L)).effects ∧
    (NodeTurn.onAppendEntries req (Turn.start F)).1 = .ok resp ∧ resp.term ≤ term ∧
    ∀ L' L'', SameChart L L' →
      SameChart { L' with sm := updateProgress peer (progressAfterAppend last resp) L'.sm } L'' →
      P (L'', (NodeTurn.onAppendEntries req (Turn.start F)).2.node)

/-- A round in which the follower takes the batch. -/
theorem Agreed.rounds (hs : s.Aligned) (hL : Leading s term peer pr L) (hF : Ready term F)
    (hpeer : peer ∈ cfg.peers) (hnext : pr.nextIndex = m + 1) (hmatch : pr.matchIndex ≤ m)
    (hfirst : s.firstIndex ≤ m + 1) (hlast : m ≤ s.lastIndex) (h : Agreed s F.storage m) :
    ∃ m', m ≤ m' ∧ (m < s.lastIndex → m < m') ∧
      Rounds cfg peer term (Matched s term peer m') L F := by
  obtain ⟨es, hb, hsent⟩ := replicateAll_sends (x := Turn.start L) hL hs
    (by omega) (by omega) hpeer
  rw [hnext, Nat.add_sub_cancel] at hsent
  rw [hnext] at hb
  have hupto := hb.upto
  obtain ⟨hresp, hready, hagreed⟩ := h.accepts hs hF hb cfg.id L.sm.commitIndex
  refine ⟨m + es.length, Nat.le_add_right _ _, ?_, _, _, _, hsent, hresp, Nat.le_refl _, ?_⟩
  · intro hlt
    have := List.length_pos_iff.mpr (hb.some (by omega))
    omega
  · intro L' L'' hsame hreport
    have hL'' := ((hL.same hsame).reported (progressAfterAppend (m + es.length)
      ⟨term, true, 0, 0⟩)).same hreport
    refine ⟨⟨_, hL'', ?_, ?_⟩, hready, hagreed, by omega, by omega⟩
    · show max pr.matchIndex (m + es.length) + 1 = m + es.length + 1
      omega
    · show max pr.matchIndex (m + es.length) = m + es.length
      omega

/-- A round in which the follower refuses. -/
theorem Probing.rounds (hs : s.Aligned) (hL : Leading s term peer pr L) (hF : Ready term F)
    (hpeer : peer ∈ cfg.peers) (hone : F.storage.firstIndex = 1) (hpos : 1 ≤ pr.nextIndex)
    (hfirst : s.firstIndex ≤ pr.nextIndex) (hlast : pr.nextIndex ≤ s.lastIndex + 1)
    (hzero : pr.matchIndex = 0)
    (hprev : ¬ (pr.nextIndex - 1 = 0 ∨
      F.storage.term (pr.nextIndex - 1) = .ok (unwrapOr (s.term (pr.nextIndex - 1)) 0))) :
    ∃ next, 1 ≤ next ∧ next < pr.nextIndex ∧
      Rounds cfg peer term (Probing s F.storage term peer next) L F := by
  obtain ⟨es, -, hsent⟩ := replicateAll_sends (x := Turn.start L) hL hs
    hfirst hlast hpeer
  obtain ⟨c, t, hresp, hc1, hc, hready, hentries, hsnapshot⟩ := hF.refuses hone hprev cfg.id
    (es.map logEntryToProtoEntry) L.sm.commitIndex
  refine ⟨c, hc1, by omega, _, _, _, hsent, hresp, Nat.le_refl _, ?_⟩
  intro L' L'' hsame hreport
  have hL'' := ((hL.same hsame).reported (progressAfterAppend (pr.nextIndex - 1 + es.length)
    (reject c t term))).same hreport
  rw [progressAfterAppend_reject hc1] at hL''
  exact ⟨⟨_, hL'', rfl, hzero⟩, hready, hentries, hsnapshot⟩

/-- What the rounds end in may be weakened. -/
theorem Rounds.mono {P R : RaftNodeInner MemStorage × RaftNodeInner MemStorage → Prop}
    (h : Rounds cfg peer term P L F) (himp : ∀ pair, P pair → R pair) :
    Rounds cfg peer term R L F := by
  obtain ⟨last, req, resp, hsent, hresp, hterm, hP⟩ := h
  exact ⟨last, req, resp, hsent, hresp, hterm, fun L' L'' hs hr => himp _ (hP L' L'' hs hr)⟩

/-- Every round brings a follower closer, until it holds the log of the leader. -/
theorem Pace.rounds (hs : s.Aligned) (hsone : s.firstIndex = 1) (hf : f.Aligned)
    (hone : f.firstIndex = 1) (hmatch : LogsMatch s f) (hpeer : peer ∈ cfg.peers) {count : ℕ}
    (h : Pace s f term peer count (L, F)) :
    Matched s term peer s.lastIndex (L, F) ∨
      Rounds cfg peer term (fun pair => ∃ k < count, Pace s f term peer k pair) L F := by
  generalize hp : (L, F) = pair at h
  cases h with
  | @probing next _ h hpos hle =>
    subst hp
    right
    obtain ⟨⟨pr, hL, rfl, hzero⟩, hready, hentries, hsnapshot⟩ := h
    have hstore : F.storage = { f with hardState := F.storage.hardState } :=
      eq_of_log hentries hsnapshot
    have hF : F.storage.Aligned := by
      rw [hstore]
      exact hf
    have hFone : F.storage.firstIndex = 1 := by
      rw [hstore]
      exact hone
    have hFmatch : LogsMatch s F.storage := by
      rw [hstore]
      exact hmatch
    by_cases hprev : pr.nextIndex - 1 = 0 ∨
        F.storage.term (pr.nextIndex - 1) = .ok (unwrapOr (s.term (pr.nextIndex - 1)) 0)
    · have hagreed := agreed_of_match hs hF hFone hFmatch (by omega) hprev
      obtain ⟨m', -, -, hrounds⟩ := hagreed.rounds hs hL hready hpeer
        (by omega) (by omega) (by omega) (by omega)
      exact hrounds.mono fun pair hm => ⟨_, by omega, .matched hm⟩
    · obtain ⟨next, hnext, hlt, hrounds⟩ := Probing.rounds hs hL hready hpeer hFone hpos
        (by omega) hle hzero hprev
      refine hrounds.mono ?_
      rintro pair ⟨hlead, hready', hentries', hsnapshot'⟩
      refine ⟨s.lastIndex + next, by omega, .probing ?_ hnext (by omega)⟩
      exact ⟨hlead, hready', hentries'.trans hentries, hsnapshot'.trans hsnapshot⟩
  | @matched m _ h =>
    subst hp
    have hlast := h.last
    by_cases hlt : m < s.lastIndex
    · right
      obtain ⟨pr, hL, hnext, hm⟩ := h.leading
      obtain ⟨m', -, hup, hrounds⟩ := h.agreed.rounds hs hL h.ready hpeer hnext (by omega)
        h.first hlast
      have := hup hlt
      exact hrounds.mono fun pair hm' => ⟨_, by omega, .matched hm'⟩
    · left
      obtain rfl : m = s.lastIndex := by omega
      exact h

end

end IceRaft
