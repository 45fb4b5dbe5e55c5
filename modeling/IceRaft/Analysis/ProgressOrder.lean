import IceRaft.Analysis.ProgressTurns

/-!
# The order of match index, next index and log

Every handler followed beside the tasks, every run, and the order of the progress of each
peer.  Only a rejection can break it: `handle_append_response` takes its hint as the next
index whatever the peer has acknowledged since.
-/

set_option autoImplicit false

namespace IceRaft

open Cluster Abstraction MemStorage NodeTurn

section Turn

variable {cond : Condition MemStorage} {a₀ : Tasks} {i : NodeId} {h : List Effect}
  {asker : Option (NodeId × RpcTask)} {n₀ : RaftNodeInner MemStorage} {x : NodeTurn MemStorage}
  {cfg : RaftConfig} {Q Q' : Set RpcTask → RaftNodeInner MemStorage → Prop}

/-! ## Sending -/

/-- What holds of a leader between two of its requests. -/
def RestingLeader (T : Set RpcTask) (n : RaftNodeInner MemStorage) : Prop :=
  Resting T n ∧ n.sm.role = .leader

/-- Code that keeps the chart keeps a leader at rest. -/
theorem RestingLeader.still (hx : ChartFollows cond a₀ i h asker n₀ RestingLeader x)
    {y : NodeTurn MemStorage} (hxy : Still x y) :
    ChartFollows cond a₀ i h asker n₀ RestingLeader y :=
  Follows.quiet hx hxy (fun _ _ _ _ hs hq => ⟨hq.1.same hs, hs.role.trans hq.2⟩)
    (fun _ _ _ _ he hq => ⟨hq, fun _ hp => he.sourced hp⟩)
    fun _ _ _ hq => hq.1.charted.restartable hq.1.saved

/-- Every step of sending leaves a leader that may restart. -/
theorem RestingLeader.sent {T T' : Set RpcTask} {n : RaftNodeInner MemStorage}
    (h : RestingLeader T n) (hcharted : Charted T' n) :
    Restartable T' n.storage ∧ RestingLeader T' n :=
  ⟨hcharted.restartable h.1.saved, ⟨hcharted, h.1.saved, h.1.buffer⟩, h.2⟩

/-- A task is spawned. -/
theorem ChartFollows.spawn (hx : ChartFollows cond a₀ i h asker n₀ Q x) {task : RpcTask}
    (hp : ∀ a : Tasks, task ∈ a i → Sourced a (.request i true task))
    (hQ : ∀ T, Q T x.node → Restartable (insert task T) x.node.storage ∧
      Q' (insert task T) x.node) :
    ChartFollows cond a₀ i h asker n₀ Q' (x.effect (.spawned task)) := by
  apply Follows.effect hx _
  intro a _ _ _ hq
  have hself : Function.update a i (insert task (a i)) i = insert task (a i) :=
    Function.update_self _ _ _
  obtain ⟨hd, hq'⟩ := hQ (a i) hq
  refine ⟨Function.update a i (insert task (a i)), .single ⟨task, rfl⟩, ?_, ?_, ?_⟩
  · show Restartable (Function.update a i (insert task (a i)) i) _
    rw [hself]
    exact hd
  · intro p hpacket
    cases hpacket
    apply hp
    rw [hself]
    exact Set.mem_insert _ _
  · rw [hself]
    exact hq'

/-- What a leader sends names indices of its own log. -/
theorem ChartFollows.replicateTo (hx : ChartFollows cond a₀ i h asker n₀ RestingLeader x)
    (peer : NodeId) :
    ChartFollows cond a₀ i h asker n₀ RestingLeader (x.replicateTo cfg peer) := by
  refine Follows.assume hx (C := ∃ T, RestingLeader T x.node) (fun a _ _ hq => ⟨a i, hq⟩)
    (indifferent_true.replicateTo peer x) fun ⟨T, hnode, hrole⟩ => ?_
  have halign := hnode.charted.aligned
  cases hlookup : x.node.sm.progress.lookup peer with
  | none =>
    unfold NodeTurn.replicateTo
    rw [show x.sm.progress.lookup peer = none from hlookup]
    exact hx
  | some pr =>
    obtain ⟨hlt, hle⟩ := hnode.charted.progress hrole peer pr hlookup
    have hlead : Leading x.node.storage x.node.sm.currentTerm peer pr x.node :=
      ⟨hrole, rfl, hlookup, rfl, rfl⟩
    by_cases hcompact : pr.nextIndex < x.node.storage.firstIndex
    · obtain ⟨snap, hsnap, hsent⟩ := hlead.sendsSnapshot cfg halign (by omega) hcompact
      rw [hsent]
      have hfirst := firstIndex_of_some hsnap
      refine hx.spawn (fun a hmem => ⟨hmem, rfl⟩) ?_
      intro T hq
      exact hq.sent (hq.1.charted.sendSnapshot (by omega))
    · obtain ⟨es, hbatch, hsent⟩ := hlead.sendsAppend cfg halign (Nat.le_of_not_lt hcompact) hle
      rw [hsent]
      have hupto := hbatch.upto
      apply hx.spawn
      · intro a hmem
        refine ⟨hmem, ?_⟩
        show Consecutive (pr.nextIndex - 1 + 1) ((es.map logEntryToProtoEntry).map
          protoEntryToLogEntry)
        rw [map_protoEntryToLogEntry, Nat.sub_add_cancel (by omega)]
        exact hbatch.consecutive
      · intro T hq
        refine hq.sent (hq.1.charted.sendAppend (.inr ⟨rfl, ?_, fun _ => ⟨?_, ?_⟩⟩))
        · rw [hrole]
          exact RaftRole.noConfusion
        · omega
        · show pr.nextIndex - 1 ≤ _
          omega

/-- So it is with what it sends to all. -/
theorem ChartFollows.replicateAll (hx : ChartFollows cond a₀ i h asker n₀ RestingLeader x) :
    ChartFollows cond a₀ i h asker n₀ RestingLeader (x.replicateAll cfg) := by
  unfold NodeTurn.replicateAll
  split
  · exact hx
  · exact Follows.foldl _ _ (fun y peer _ hy => ChartFollows.replicateTo hy peer) hx

/-- A candidate takes the lead. -/
theorem ChartFollows.takeLeadership (hx : ChartFollows cond a₀ i h asker n₀ Resting x)
    (hcand : x.sm.role = .candidate) :
    ChartFollows cond a₀ i h asker n₀ Resting (x.takeLeadership cfg) := by
  unfold NodeTurn.takeLeadership
  rw [lastIndexOr0_eq]
  dsimp only
  have hlead : ChartFollows cond a₀ i h asker n₀ RestingLeader
      (x.modifySm (.becomeLeader cfg.id x.node.storage.lastIndex cfg.peers)) := by
    refine hx.changeSm ?_
    intro T hq
    refine ⟨⟨hq.charted.lead hcand rfl rfl ?_, hq.saved, hq.buffer⟩, rfl⟩
    intro j pr hpr
    obtain ⟨-, rfl⟩ := RaftStateMachine.freshProgress_lookup hpr
    exact ⟨Nat.succ_pos _, le_rfl⟩
  have htold := hlead.plain (e := .becameLeader x.sm.currentTerm) trivial
    fun T hq => hq.1.charted.restartable hq.1.saved
  have hcounted := RestingLeader.still htold
    (Still.modifyMetrics fun m => { m with leaderChanges := m.leaderChanges + 1 })
  exact (ChartFollows.replicateAll hcounted).mono fun _ hq => hq.1

/-! ## Elections -/

/-- A candidate has no tasks of its new term; a leader starts behind its log. -/
theorem ChartFollows.startElection (hx : ChartFollows cond a₀ i h asker n₀ Resting x) :
    ChartFollows cond a₀ i h asker n₀ Resting (x.startElection cfg) := by
  unfold NodeTurn.startElection
  dsimp only
  have hsaved : ChartFollows cond a₀ i h asker n₀ Resting
      (x.modifySm (.becomeCandidate cfg.id)).saveHardState :=
    hx.enter (Nat.lt_succ_self _) RaftRole.noConfusion
  generalize (x.modifySm (.becomeCandidate cfg.id)).saveHardState = y at hsaved ⊢
  rw [lastIndexOr0_eq, termOr0_eq]
  dsimp only
  generalize (if y.node.storage.lastIndex > 0 then
    unwrapOr (y.node.storage.term y.node.storage.lastIndex) 0 else 0) = t
  have hnoted := hsaved.still (Still.emit (e := .electionStarted y.sm.currentTerm) trivial)
  have hstarted := hnoted.still
    (Still.modifyMetrics fun m => { m with electionsStarted := m.electionsStarted + 1 })
  have hfan := fun req : RequestVoteRequest => hstarted.still
    (Turn.Quiet.foldl SameChart.refl SameChart.trans
      (fun (z : NodeTurn MemStorage) peer => z.effect (.spawned (.requestVote peer req)))
      cfg.peers fun z peer _ => Still.emit (e := .spawned (.requestVote peer req)) trivial)
  split
  · rename_i hwon
    exact (hfan _).takeLeadership hwon.2
  · exact hfan _

/-- A vote makes a leader that starts behind its log. -/
theorem ChartFollows.handleVoteResponse (hx : ChartFollows cond a₀ i h asker n₀ Resting x)
    (peer : NodeId) (resp : RequestVoteResponse) :
    ChartFollows cond a₀ i h asker n₀ Resting (x.handleVoteResponse cfg peer resp) := by
  unfold NodeTurn.handleVoteResponse
  split
  · rename_i hlt
    rw [← descend_of_lt hlt]
    exact hx.descend resp.term none
  · split
    · rename_i hgranted
      have hcounted := hx.still (Still.modifySm
        (f := fun sm => { sm with votesReceived := insert peer sm.votesReceived }) rfl rfl rfl)
      dsimp only
      split
      · exact hcounted.takeLeadership hgranted.2
      · exact hcounted
    · exact hx

/-! ## Requests -/

/-- The hint of a refusal points at most behind the previous entry of its request. -/
theorem onAppendEntries_answers (req : AppendEntriesRequest) (x : NodeTurn MemStorage)
    {resp : AppendEntriesResponse} (hresp : (x.onAppendEntries req).1 = .ok resp) :
    Answers req resp := by
  by_cases hterm : x.sm.currentTerm ≤ req.term
  · by_cases hprev : PrevOk x.node.storage req
    · obtain ⟨hok, -⟩ := onAppendEntries_accepted ((accepts_iff x.node req).mpr ⟨hterm, hprev⟩)
      rw [hok] at hresp
      cases hresp
      exact fun _ => ⟨rfl, Nat.zero_le _⟩
    · obtain ⟨c, t, -, hhint, -, hfailed⟩ := onAppendEntries_failed hterm hprev
      rw [hfailed] at hresp
      cases hresp
      exact fun _ => ⟨rfl, hhint⟩
  · rw [onAppendEntries_stale (Nat.lt_of_not_le hterm)] at hresp
    cases hresp
    rintro (hsuccess | hpos)
    · cases hsuccess
    · exact absurd hpos (Nat.lt_irrefl 0)

/-- Only a leader of the request's own term stays one behind the check on it. -/
theorem leader_of_recognise (req : AppendEntriesRequest) (x : NodeTurn MemStorage)
    (hrole : (recognise req x).sm.role = .leader) :
    x.sm.role = .leader ∧ req.term ≤ x.sm.currentTerm := by
  unfold recognise NodeTurn.descend at hrole
  split at hrole
  · cases hrole
  · exact ⟨hrole, Nat.le_of_not_lt ‹_›⟩

/-- A batch keeps the chart, if that of a leader's own term reaches the end of its log. -/
theorem ChartFollows.onAppendEntries {req : AppendEntriesRequest} {crashAt : Option ℕ}
    (hx : ChartFollows cond a₀ i h asker n₀ Resting (Turn.start n₀))
    (halign : n₀.storage.Aligned) (hlog : StartsInLog cfg n₀ (.appendEntries req) crashAt)
    (hlead : LeaderLogKept cfg n₀ (.appendEntries req) crashAt)
    (hcons : Consecutive (req.prevLogIndex + 1) (req.entries.map protoEntryToLogEntry)) :
    ChartFollows cond a₀ i h asker n₀ Resting
      (NodeTurn.onAppendEntries req (Turn.start n₀)).2 := by
  by_cases hterm : n₀.sm.currentTerm ≤ req.term
  · have hseen : ChartFollows cond a₀ i h asker n₀ Resting (recognise req (Turn.start n₀)) :=
      (hx.descend req.term (some req.leaderId)).still (Still.modifySm rfl rfl rfl)
    by_cases hprev : PrevOk n₀.storage req
    · have haccepts := (accepts_iff n₀ req).mpr ⟨hterm, hprev⟩
      rw [onAppendEntries_passed (x := Turn.start n₀) haccepts]
      dsimp only
      refine ChartFollows.still ?_ (Still.next (Still.advanceCommit req _) (Still.modifyMetrics _))
      have hsame := recognise_contents (x := Turn.start n₀) hterm
      have hstorage := eq_of_log hsame.entries hsame.snapshot
      have hfirst : (recognise req (Turn.start n₀)).node.storage.firstIndex =
          n₀.storage.firstIndex := by
        rw [hstorage]
        rfl
      have hlast : (recognise req (Turn.start n₀)).node.storage.lastIndex =
          n₀.storage.lastIndex := by
        rw [hstorage]
        rfl
      have hrole := leader_of_recognise req (Turn.start n₀)
      generalize recognise req (Turn.start n₀) = y at hseen hfirst hlast hrole
      obtain ⟨-, hbatch⟩ | ⟨hne, hbatch⟩ := appendBatch_cases req y
      · rw [hbatch]
        exact hseen
      · rw [hbatch]
        have hmap : req.entries.map protoEntryToLogEntry ≠ [] := List.map_eq_nil_iff.not.mpr hne
        have hlo := hfirst.trans_le (hlog haccepts hne)
        have hhi := (halign.prev_le hprev).trans_eq hlast.symm
        -- a leader that takes a batch of its own term keeps the length of its log
        have hend : y.node.sm.role = .leader → y.node.storage.lastIndex ≤
            req.prevLogIndex + (req.entries.map protoEntryToLogEntry).length := by
          intro hl
          obtain ⟨hl₀, hle⟩ := hrole hl
          rw [List.length_map, hlast]
          exact hlead hl₀ (Nat.le_antisymm hle hterm) haccepts hne
        have hgrown : ChartFollows cond a₀ i h asker n₀ Resting
            (y.update (RaftNodeInner.appended (req.entries.map protoEntryToLogEntry))) :=
          hseen.change _ fun T hq => hq.appended hcons hmap hlo hhi hend
        exact hgrown.still (Still.emit trivial)
    · obtain ⟨c, t, -, -, -, hfailed⟩ := onAppendEntries_failed (x := Turn.start n₀) hterm hprev
      rw [hfailed]
      exact hseen
  · rw [onAppendEntries_stale (x := Turn.start n₀) (Nat.lt_of_not_le hterm)]
    exact hx

/-- A snapshot that does not end before the log begins keeps the chart. -/
theorem ChartFollows.onInstallSnapshot {req : InstallSnapshotRequest} {crashAt : Option ℕ}
    (hx : ChartFollows cond a₀ i h asker n₀ Resting (Turn.start n₀))
    (hbuf : n₀.snapshotBuf = none)
    (hadvance : SnapshotsAdvance cfg n₀ (.installSnapshot req) crashAt) (hdone : req.done = true) :
    ChartFollows cond a₀ i h asker n₀ Resting
      (NodeTurn.onInstallSnapshot req (Turn.start n₀)).2 := by
  by_cases hterm : n₀.sm.currentTerm ≤ req.term
  · have hlo : n₀.storage.firstIndex ≤ req.lastIncludedIndex + 1 := hadvance hterm
    have hseen : ChartFollows cond a₀ i h asker n₀ Resting
        (recogniseSnapshot req (Turn.start n₀)) := hx.descend req.term (some req.leaderId)
    have hsame : Contents (recogniseSnapshot req (Turn.start n₀)).node n₀.storage.entries
        n₀.storage.snapshot n₀.snapshotBuf req.term :=
      descend_contents (x := Turn.start n₀) (some req.leaderId) hterm
    have hfirst : (recogniseSnapshot req (Turn.start n₀)).node.storage.firstIndex =
        n₀.storage.firstIndex := by
      rw [eq_of_log hsame.entries hsame.snapshot]
      rfl
    have hsnap : RaftNodeInner.assembled req n₀ = req.snapshot :=
      RaftNodeInner.assembled_of_none hbuf
    rw [onInstallSnapshot_last (x := Turn.start n₀) hterm hdone]
    dsimp only [applyOutcome, Turn.start_node]
    unfold handSnapshot applyOutcome
    dsimp only [Turn.start_node]
    rw [hsnap, show Storage.applySnapshot req.snapshot
      (recogniseSnapshot req (Turn.start n₀)).node.storage = (.ok (),
        (recogniseSnapshot req (Turn.start n₀)).node.storage.applySnapshot req.snapshot) from rfl]
    dsimp only
    generalize recogniseSnapshot req (Turn.start n₀) = y at hseen hfirst
    rw [← hfirst] at hlo
    -- the snapshot, the indices it covers, and the buffer that is left behind
    have hstored : ChartFollows cond a₀ i h asker n₀ (fun T n => Charted T n ∧ n.Saved)
        ((y.update fun n => { n with
          storage := y.node.storage.applySnapshot req.snapshot
          snapshotBuf := some (RaftNodeInner.extendedBuffer req n₀) }).effect .wrote) := by
      have hwritten : ChartFollows cond a₀ i h asker n₀ (fun T n => Charted T n ∧ n.Saved)
          (y.update fun n => { n with
            storage := y.node.storage.applySnapshot req.snapshot
            snapshotBuf := some (RaftNodeInner.extendedBuffer req n₀) }) := by
        refine hseen.change _ ?_
        intro T hq
        refine ⟨hq.charted.grow rfl rfl rfl ?_ hlo ?_, hq.saved⟩
        · exact hq.charted.aligned.applySnapshot hlo
        · intro _
          show _ ≤ (y.node.storage.applySnapshot req.snapshot).lastIndex
          rw [hq.charted.aligned.lastIndex_applySnapshot hlo]
          exact le_max_left _ _
      exact hwritten.plain trivial fun T hq => hq.1.restartable hq.2
    have hcovered : ChartFollows cond a₀ i h asker n₀ (fun T n => Charted T n ∧ n.Saved)
        (NodeTurn.modifySm (fun sm => { sm with
          commitIndex := max sm.commitIndex req.lastIncludedIndex
          lastApplied := max sm.lastApplied req.lastIncludedIndex }) _) :=
      hstored.changeSm fun T hq =>
        ⟨hq.1.grow rfl rfl rfl hq.1.aligned le_rfl fun _ => le_rfl, hq.2⟩
    have hemptied : ChartFollows cond a₀ i h asker n₀
        (fun T n => Charted T n ∧ n.snapshotBuf = none)
        (NodeTurn.update (fun n => { n with snapshotBuf := none }) _) :=
      hcovered.change _ fun T hq =>
        ⟨hq.1.grow rfl rfl rfl hq.1.aligned le_rfl fun _ => le_rfl, rfl⟩
    exact hemptied.save.still (Still.modifyMetrics _)
  · rw [onInstallSnapshot_stale (x := Turn.start n₀) (Nat.lt_of_not_le hterm)]
    exact hx

/-! ## Messages -/

/-- A proposal keeps the chart, as the log of a leader grows. -/
theorem ChartFollows.onProposal {proposal : Proposal}
    (hx : ChartFollows cond a₀ i h asker n₀ Resting (Turn.start n₀)) :
    ChartFollows cond a₀ i h asker n₀ Resting
      (NodeTurn.onProposal cfg proposal (Turn.start n₀)) := by
  unfold NodeTurn.onProposal
  dsimp only
  split
  · split
    · exact hx.still (Still.emit trivial)
    · exact hx
  · rename_i hrole
    have hlead : n₀.sm.role = .leader := Decidable.not_not.mp hrole
    rw [lastIndexOr0_eq]
    dsimp only
    rw [NodeTurn.write_append]
    dsimp only
    dsimp only [NodeTurn.sm, Turn.start_node]
    generalize he : (⟨n₀.sm.currentTerm, n₀.storage.lastIndex + 1, proposal.data, .normal⟩ :
      LogEntry) = e
    have hindex : e.index = n₀.storage.lastIndex + 1 := by rw [← he]
    have hcons : Consecutive (n₀.storage.lastIndex + 1) [e] := hindex ▸ consecutive_singleton e
    have hgrown : ChartFollows cond a₀ i h asker n₀ RestingLeader
        (NodeTurn.update (RaftNodeInner.appended [e]) (Turn.start n₀)) := by
      refine hx.change _ ?_
      intro T hq
      have hlast : n₀.storage.lastIndex + 1 = n₀.storage.firstIndex + n₀.storage.entries.length :=
        hq.charted.aligned.lastIndex_succ
      have hlo : n₀.storage.firstIndex ≤ n₀.storage.lastIndex + 1 := by omega
      exact ⟨hq.appended hcons (List.cons_ne_nil _ _) hlo le_rfl fun _ => Nat.le_succ _, hlead⟩
    have hwritten : ChartFollows cond a₀ i h asker n₀ RestingLeader
        ((NodeTurn.update (RaftNodeInner.appended [e]) (Turn.start n₀)).effect .wrote) :=
      hgrown.plain trivial fun T hq => hq.1.charted.restartable hq.1.saved
    refine (ChartFollows.replicateAll ?_).mono fun _ hq => hq.1
    split
    · refine RestingLeader.still hwritten (Still.next (Still.setPending _) (Still.emit ?_))
      trivial
    · exact hwritten

/-- What a response makes of the progress of its peer. -/
theorem Progress.Ordered.afterAppend {n : RaftNodeInner MemStorage} {pr : Progress}
    (hpr : pr.Ordered n.storage.lastIndex) (hrole : n.sm.role = .leader) {last : ℕ}
    {req : AppendEntriesRequest} {resp : AppendEntriesResponse} (hfits : Fits n last req)
    (hanswers : Answers req resp) (hterm : resp.term = n.sm.currentTerm)
    (hahead : resp.success = false → if resp.conflictIndex > 0 then
      pr.matchIndex < resp.conflictIndex
      else pr.matchIndex = 0 ∨ pr.matchIndex + 1 < pr.nextIndex) :
    (progressAfterAppend last resp pr).Ordered n.storage.lastIndex := by
  obtain ⟨hlt, hle⟩ := hpr
  -- a response with a content answers a request of this term
  have hin : resp.success = true ∨ resp.conflictIndex > 0 →
      (last ≤ n.storage.lastIndex ∧ req.prevLogIndex ≤ n.storage.lastIndex) ∧
        resp.conflictIndex ≤ req.prevLogIndex + 1 := by
    intro hcontent
    obtain ⟨hreq, hhint⟩ := hanswers hcontent
    obtain hold | ⟨-, -, hlead⟩ := hfits
    · omega
    · exact ⟨hlead hrole, hhint⟩
  unfold progressAfterAppend
  cases hsuccess : resp.success with
  | true =>
    have hlast := (hin (.inl hsuccess)).1.1
    rw [if_pos rfl]
    refine ⟨Nat.lt_succ_self _, Nat.succ_le_succ (max_le ?_ hlast)⟩
    omega
  | false =>
    have hroom := hahead hsuccess
    rw [if_neg Bool.false_ne_true]
    by_cases hpos : resp.conflictIndex > 0
    · obtain ⟨⟨-, hprev⟩, hhint⟩ := hin (.inr hpos)
      rw [if_pos hpos] at hroom ⊢
      exact ⟨hroom, hhint.trans (Nat.succ_le_succ hprev)⟩
    · rw [if_neg hpos] at hroom ⊢
      refine ⟨?_, ?_⟩
      · show pr.matchIndex < max (pr.nextIndex - 1) 1
        omega
      · show max (pr.nextIndex - 1) 1 ≤ _
        omega

/-- A snapshot that is acknowledged keeps the progress in order. -/
theorem Progress.Ordered.afterSnapshot {pr : Progress} {lastIndex last : ℕ}
    (hpr : pr.Ordered lastIndex) (hlast : last ≤ lastIndex) :
    (progressAfterSnapshot last pr).Ordered lastIndex := by
  obtain ⟨hlt, hle⟩ := hpr
  refine ⟨Nat.lt_succ_self _, Nat.succ_le_succ (max_le ?_ hlast)⟩
  omega

/-- A response keeps the chart if the progress it makes is in order. -/
theorem ChartFollows.handleResponse (hx : ChartFollows cond a₀ i h asker n₀ Resting x)
    (peer : NodeId) {f : Progress → Progress} {term : ℕ} (hf : x.sm.role = .leader →
      term ≤ x.sm.currentTerm → ∀ pr, x.sm.progress.lookup peer = some pr →
        (f pr).Ordered x.node.storage.lastIndex) :
    ChartFollows cond a₀ i h asker n₀ Resting (x.handleResponse cfg peer f term) := by
  obtain heq | ⟨hle, hrole, heq⟩ := handleResponse_cases cfg peer f term x
  · rw [heq]
    exact hx.descend term none
  · rw [heq]
    refine ChartFollows.still (hx.changeSm fun T hq => ⟨hq.charted.report peer
      (hf hrole hle), ?_, hq.buffer⟩) (Still.maybeAdvanceCommit _)
    obtain ⟨m, hm⟩ := updateProgress_eq peer f x.node.sm
    show _ = (updateProgress peer f x.node.sm).currentTerm
    rw [hm]
    exact hq.saved

/-! ## Whole turns -/

/-- A reply to the request of a known task. -/
theorem ChartFollows.reply (hx : ChartFollows cond a₀ i h asker n₀ Resting x) {src : NodeId}
    {task : RpcTask} (hmem : task ∈ a₀ src) {r : RpcReply}
    (hp : ∀ a : Tasks, task ∈ a src → ∀ p, Effect.packet i asker (.replied r) = some p →
      Sourced a p) :
    ChartFollows cond a₀ i h asker n₀ Resting (x.effect (.replied r)) := by
  have hcarried := Follows.carry hx trivial (E := fun a => task ∈ a src) hmem
    fun a b hs _ hE => Spawns.subset hs src hE
  exact Follows.effect hcarried _ fun a _ _ _ hq =>
    ⟨a, .refl, hq.2.charted.restartable hq.2.saved, hp a hq.1, hq.2⟩

/-- A reply that no task waits for. -/
theorem ChartFollows.unasked (hx : ChartFollows cond a₀ i h none n₀ Resting x) (r : RpcReply) :
    ChartFollows cond a₀ i h none n₀ Resting (x.effect (.replied r)) := by
  apply Follows.effect hx
  intro a _ _ _ hq
  refine ⟨a, .refl, hq.charted.restartable hq.saved, ?_, hq⟩
  intro p hp
  cases hp

/-- What keeps the progress of the peers in order. -/
abbrev ProgressKept : Condition MemStorage :=
  LogKept.and (LeaderLogKept.and (ResponsesCurrent.and RejectionsAhead))

/-- Every turn within the condition keeps the chart. -/
theorem ChartFollows.turn {input : Input} {crashAt : Option ℕ} (hn : Resting (a₀ i) n₀)
    (hcause : Cause (Sourced a₀) i asker input) (hkept : ProgressKept cfg n₀ input crashAt) :
    ChartFollows cond a₀ i h asker n₀ Resting (NodeTurn.run cfg input (Turn.start n₀)) := by
  have hx : ChartFollows cond a₀ i h asker n₀ Resting (Turn.start n₀) :=
    Follows.start trivial (hn.charted.restartable hn.saved) hn
  obtain ⟨⟨hstarts, hadvance⟩, hlead, hcurrent, hahead⟩ := hkept
  cases input with
  | appendEntries req =>
    obtain ⟨rfl, rfl⟩ | ⟨src, waiting, last, ⟨hmem, hcons⟩, hasker⟩ := hcause.appendEntries
    · have hnone : Consecutive 1 [] := fun k hk => absurd hk (Nat.not_lt_zero k)
      exact (hx.onAppendEntries hn.charted.aligned hstarts hlead hnone).unasked _
    · refine (hx.onAppendEntries hn.charted.aligned hstarts hlead hcons).reply hmem ?_
      intro a ha p hp
      cases asker with
      | none => cases hp
      | some q =>
        obtain rfl := hasker q rfl
        cases hresp : (NodeTurn.onAppendEntries req (Turn.start n₀)).1 with
        | error e =>
          rw [hresp] at hp
          cases hp
        | ok resp =>
          rw [hresp] at hp
          cases hp
          exact ⟨req, ha, onAppendEntries_answers req _ hresp⟩
  | requestVote req => exact (hx.descend req.term none).still (Still.handleRequestVote req _)
  | installSnapshot req =>
    obtain ⟨src, waiting, last, ⟨hmem, hdone⟩, hasker⟩ := hcause.installSnapshot
    refine (hx.onInstallSnapshot hn.buffer hadvance hdone).reply hmem ?_
    intro a ha p hp
    cases asker with
    | none => cases hp
    | some q =>
      obtain rfl := hasker q rfl
      cases hresp : (NodeTurn.onInstallSnapshot req (Turn.start n₀)).1 with
      | error e =>
        rw [hresp] at hp
        cases hp
      | ok resp =>
        rw [hresp] at hp
        cases hp
        exact ⟨req, ha⟩
  | timer electionDue heartbeatDue =>
    unfold NodeTurn.run NodeTurn.timerBranch
    dsimp only
    split
    · exact hx.startElection
    · split
      · rename_i hdue
        have hleader : ChartFollows cond a₀ i h asker n₀ RestingLeader (Turn.start n₀) :=
          hx.mono fun _ hq => ⟨hq, hdue.2⟩
        exact (hleader.replicateAll.mono fun _ hq => hq.1).still
          (Still.next (Still.maybeAdvanceCommit _) (Still.applyCommitted _))
      · exact hx
  | message msg =>
    cases msg with
    | propose proposal => exact hx.onProposal
    | readIndex tx => exact hx.still (Still.emit trivial)
    | transferLeader target => exact hx
    | getLeader tx => exact hx.still (Still.emit trivial)
    | getTerm tx => exact hx.still (Still.emit trivial)
    | triggerSnapshot index => exact hx
    | shutdown => exact hx
    | voteResponse peer resp => exact hx.handleVoteResponse peer resp
    | appendResponse peer last resp =>
      obtain ⟨req, hmem, hanswers⟩ := hcause.appendResponse
      apply hx.handleResponse peer
      intro hleader hle pr hpr
      have hterm : resp.term = n₀.sm.currentTerm := Nat.le_antisymm hle (hcurrent hleader)
      exact (hn.charted.progress hleader peer pr hpr).afterAppend hleader
        (hn.charted.appends peer last req hmem) hanswers hterm
        fun hfail => hahead hfail hleader hterm.le pr hpr
    | snapshotResponse peer last resp =>
      obtain ⟨req, hmem⟩ := hcause.snapshotResponse
      have hfirst := hn.charted.snapshots peer last req hmem
      have hend := hn.charted.aligned.lastIndex_succ
      apply hx.handleResponse peer
      intro hleader _ pr hpr
      exact (hn.charted.progress hleader peer pr hpr).afterSnapshot
        (show last ≤ n₀.storage.lastIndex by omega)

end Turn

/-! ## Runs -/

/-- So the chart is a simulation of the tasks. -/
theorem charting_simulation (cfg : RaftConfig) (i : NodeId) :
    Simulation (charting ProgressKept) cfg i where
  turn _ hn hcause hcond := ChartFollows.turn hn hcause hcond
  restart _ _ hd := hd.booted

/-- **Only rejections break the progress.**  In a run in which no rejection reaches back into
what its peer has acknowledged, no response of another term reaches a leader, and every log
keeps its positions, the match index of each peer of each leader is below its next index, and
that is at most the one behind the log.  Packets may be delayed, reordered, lost and duplicated.
SRCLINE: iceraft-node/src/node.rs:574-637, 697-747, iceraft-node/src/state.rs:95-104 -/
theorem progress_ordered (cc : ClusterConfig) (stores : NodeId → MemStorage)
    (halign : ∀ i ∈ cc.members, (stores i).Aligned) (es : List Event)
    (hok : Within cc ProgressKept (init stores) es) :
    ∀ i ∈ cc.members, ((exec cc (init stores) es).sm i).role = .leader →
      ∀ peer pr, ((exec cc (init stores) es).sm i).progress.lookup peer = some pr →
        pr.matchIndex < pr.nextIndex ∧
          pr.nextIndex ≤ ((exec cc (init stores) es).store i).lastIndex + 1 := by
  have hstart : Simulation.Holds cc (charting ProgressKept) (init stores) fun _ => ∅ := by
    refine ⟨trivial, ?_, ?_⟩
    · intro i hi
      have hboot : Restartable ∅ (stores i) :=
        ⟨halign i hi, fun _ _ _ hmem => hmem.elim, fun _ _ _ hmem => hmem.elim⟩
      exact hboot.booted
    · intro p hp
      cases hp
  obtain ⟨a, -, hend⟩ := Simulation.holds_run (fun i _ => charting_simulation (cc.config i) i)
    (fun c e hmeets i input hin => Meets.of_input hmeets hin)
    (fun _ _ _ _ _ _ _ _ _ _ => trivial) hstart hok
  intro i hi hrole peer pr hpr
  exact (hend.node i hi).charted.progress hrole peer pr hpr

/-- Node 1 holds two entries of term 1, node 2 holds none. -/
def twoEntriesAhead (i : NodeId) : MemStorage :=
  if i = 1 then
    { hardState := ⟨1, 0, 0⟩, entries := [⟨1, 1, [7], .normal⟩, ⟨1, 2, [8], .normal⟩] }
  else .new

/-- Node 1 is elected, is refused twice and then sends both entries.  The first refusal is
duplicated, and the copy stays on the network. -/
def copiedRefusal : List Event :=
  [⟨.timer 1 true false, none⟩, ⟨.deliver 0, none⟩, ⟨.deliver 0, none⟩,
    ⟨.deliver 0, none⟩, ⟨.duplicate 0, none⟩, ⟨.deliver 0, none⟩,
    ⟨.timer 1 false true, none⟩, ⟨.deliver 1, none⟩, ⟨.deliver 1, none⟩,
    ⟨.timer 1 false true, none⟩, ⟨.deliver 1, none⟩, ⟨.deliver 1, none⟩]

/-- Two nodes. -/
abbrev duo : ClusterConfig := .ofIds [1, 2] (by decide)

/-- With the copy still on its way the progress is in order. -/
theorem progress_ordered_copiedRefusal :
    ((exec duo (init twoEntriesAhead) copiedRefusal).sm 1).progress.lookup 2 =
        some ⟨3, 2, false⟩ ∧
      2 < 3 ∧ 3 ≤ ((exec duo (init twoEntriesAhead) copiedRefusal).store 1).lastIndex + 1 := by
  have hpr : ((exec duo (init twoEntriesAhead) copiedRefusal).sm 1).progress.lookup 2 =
      some ⟨3, 2, false⟩ := by decide +kernel
  have hordered := progress_ordered duo twoEntriesAhead (by unfold Aligned; decide +kernel)
    copiedRefusal (by decide +kernel) 1 (by decide) (by decide +kernel) 2 ⟨3, 2, false⟩ hpr
  exact ⟨hpr, hordered⟩

/-- The copy arrives after both entries were acknowledged, and moves the next index back to
the match index. -/
theorem late_refusal_moves_back :
    let before := exec duo (init twoEntriesAhead) copiedRefusal
    let after := exec duo (init twoEntriesAhead) (copiedRefusal ++ [⟨.deliver 0, none⟩])
    (before.sm 1).progress.lookup 2 = some ⟨3, 2, false⟩ ∧
      (after.sm 1).role = .leader ∧ (after.sm 1).progress.lookup 2 = some ⟨2, 2, false⟩ ∧
      ¬ ∀ peer pr, (after.sm 1).progress.lookup peer = some pr →
        pr.matchIndex < pr.nextIndex ∧ pr.nextIndex ≤ (after.store 1).lastIndex + 1 := by
  intro before after
  have hback : (after.sm 1).progress.lookup 2 = some ⟨2, 2, false⟩ := by decide +kernel
  refine ⟨by decide +kernel, by decide +kernel, hback, ?_⟩
  intro h
  exact Nat.lt_irrefl 2 (h 2 _ hback).1

end IceRaft
