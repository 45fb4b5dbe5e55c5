import IceRaft.Analysis.Bookkeeping

/-!
# Turns and the books

Every piece of every handler, followed with a predicate that is kept wherever the books
change.
-/

set_option autoImplicit false

namespace IceRaft

open Cluster Abstraction MemStorage

section Turn

variable {W : Wire} {I At : List Effect → RaftNodeInner MemStorage → Prop}
  {cond : List Effect → Condition MemStorage} {i : NodeId} {h : List Effect}
  {asker : Option (NodeId × RpcTask)} {n₀ : RaftNodeInner MemStorage} {input : Input}
  {x y : NodeTurn MemStorage} {cfg : RaftConfig}

/-- The turn has been followed so far, and `Q` holds of the history and the node. -/
abbrev BookFollows (W : Wire) (I At : List Effect → RaftNodeInner MemStorage → Prop)
    (cond : List Effect → Condition MemStorage) (i : NodeId) (h : List Effect)
    (asker : Option (NodeId × RpcTask)) (n₀ : RaftNodeInner MemStorage)
    (Q : List Effect → RaftNodeInner MemStorage → Prop) (x : NodeTurn MemStorage) : Prop :=
  (bookkeeping W I At cond).Follows () i h asker n₀ (fun _ H n => Q H n) x

/-- What is followed between the pieces of a handler. -/
abbrev Booked (I : List Effect → RaftNodeInner MemStorage → Prop) (H : List Effect)
    (n : RaftNodeInner MemStorage) : Prop := Based n ∧ I H n

/-- What is followed where the term is not saved yet. -/
structure Unsettled (I : List Effect → RaftNodeInner MemStorage → Prop) (H : List Effect)
    (n : RaftNodeInner MemStorage) : Prop where
  aligned : n.storage.Aligned
  buffer : n.snapshotBuf = none
  next : ∀ j pr, n.sm.progress.lookup j = some pr → 1 ≤ pr.nextIndex
  kept : I H n

/-- A silent change of the node. -/
theorem BookFollows.change {Q Q' : List Effect → RaftNodeInner MemStorage → Prop}
    (hx : BookFollows W I At cond i h asker n₀ Q x)
    (f : RaftNodeInner MemStorage → RaftNodeInner MemStorage)
    (hQ : ∀ H, Q H x.node → Q' H (f x.node)) :
    BookFollows W I At cond i h asker n₀ Q' (x.update f) :=
  Follows.update hx f fun _ H _ hq => hQ H hq

/-- An effect, with a change of the node right before it. -/
theorem BookFollows.enter {Q Q' : List Effect → RaftNodeInner MemStorage → Prop}
    (hx : BookFollows W I At cond i h asker n₀ Q x)
    (f : RaftNodeInner MemStorage → RaftNodeInner MemStorage)
    {e : Effect} (he : e.tidy W)
    (hQ : ∀ H, Q H x.node → ((f x.node).storage.Aligned ∧ I (H ++ [e]) (f x.node) ∧
      At (H ++ [e]) (f x.node)) ∧ Q' (H ++ [e]) (f x.node)) :
    BookFollows W I At cond i h asker n₀ Q' ((x.update f).effect e) := by
  have hset : BookFollows W I At cond i h asker n₀ (fun H _ => Q H x.node) (x.update f) :=
    hx.change f fun _ hq => hq
  apply Follows.effect hset e
  intro _ H _ _ hq
  obtain ⟨hd, hq'⟩ := hQ H hq
  exact ⟨(), .refl, hd, fun _ hp => he.packet hp, hq'⟩

variable (K : Keeps W h n₀ input I At)

include K

/-- An effect that no book records. -/
theorem Keeps.note_follows (hx : BookFollows W I At cond i h asker n₀ (Booked I) x) {e : Effect}
    (he : e.tidy W) (hu : e.unbooked) :
    BookFollows W I At cond i h asker n₀ (Booked I) (x.effect e) := by
  apply hx.enter id he
  intro H hq
  have hI := K.note hu hq.2
  refine ⟨⟨hq.1.aligned, hI, K.at_other ?_⟩, hq.1, hI⟩
  rintro tx k rfl
  exact hu

/-- A change of the Raft state that the books do not record. -/
theorem Keeps.aside_follows (hx : BookFollows W I At cond i h asker n₀ (Booked I) x)
    {f : RaftStateMachine → RaftStateMachine}
    (hcommit : (f x.sm).commitIndex = x.sm.commitIndex)
    (happlied : (f x.sm).lastApplied = x.sm.lastApplied)
    (hterm : (f x.sm).currentTerm = x.sm.currentTerm)
    (hnext : ∀ j pr, (f x.sm).progress.lookup j = some pr →
      x.sm.progress.lookup j = some pr ∨ 1 ≤ pr.nextIndex) :
    BookFollows W I At cond i h asker n₀ (Booked I) (x.modifySm f) := by
  refine Follows.modifySm hx fun _ H _ hq =>
    ⟨⟨hq.1.aligned, ?_, hq.1.buffer, fun j pr hpr => ?_⟩, ?_⟩
  · show _ = (f x.sm).currentTerm
    rw [hterm]
    exact hq.1.term
  · rcases hnext j pr hpr with hold | hone
    · exact hq.1.next j pr hold
    · exact hone
  · exact K.aside (n := x.node) ⟨rfl, rfl, rfl, hcommit, happlied⟩ rfl
      (Nat.le_of_eq hterm.symm) hq.2

/-- A count is not booked. -/
theorem Keeps.metrics_follows (hx : BookFollows W I At cond i h asker n₀ (Booked I) x)
    (f : RaftMetrics → RaftMetrics) :
    BookFollows W I At cond i h asker n₀ (Booked I) (x.modifyMetrics f) := by
  refine Follows.modifyMetrics hx fun _ H _ hq =>
    ⟨⟨hq.1.aligned, hq.1.term, hq.1.buffer, hq.1.next⟩, ?_⟩
  exact K.aside (n := x.node) ⟨rfl, rfl, rfl, rfl, rfl⟩ rfl (Nat.le_refl _) hq.2

/-- A change of the term is booked with the save that follows it. -/
theorem Keeps.settle_follows (hx : BookFollows W I At cond i h asker n₀ (Unsettled I) x) :
    BookFollows W I At cond i h asker n₀ (Booked I) x.saveHardState := by
  have hsaved : BookFollows W I At cond i h asker n₀ (Booked I)
      ((x.update RaftNodeInner.saved).effect .wrote) := by
    refine hx.enter _ trivial ?_
    intro H hq
    have hI := K.save hq.kept
    exact ⟨⟨hq.aligned, hI, K.at_other nofun⟩, ⟨hq.aligned, rfl, hq.buffer, hq.next⟩, hI⟩
  exact K.metrics_follows hsaved _

/-- A save alone is booked. -/
theorem Keeps.save_follows (hx : BookFollows W I At cond i h asker n₀ (Booked I) x) :
    BookFollows W I At cond i h asker n₀ (Booked I) x.saveHardState :=
  K.settle_follows (Follows.mono hx fun _ _ _ hq => ⟨hq.1.aligned, hq.1.buffer, hq.1.next, hq.2⟩)

/-- A change of the Raft state to a term that is not lower, and its save. -/
theorem Keeps.enterTerm_follows (hx : BookFollows W I At cond i h asker n₀ (Booked I) x)
    {f : RaftStateMachine → RaftStateMachine}
    (hcommit : (f x.sm).commitIndex = x.sm.commitIndex)
    (happlied : (f x.sm).lastApplied = x.sm.lastApplied)
    (hterm : x.sm.currentTerm ≤ (f x.sm).currentTerm)
    (hnext : ∀ j pr, (f x.sm).progress.lookup j = some pr → x.sm.progress.lookup j = some pr) :
    BookFollows W I At cond i h asker n₀ (Booked I) (x.modifySm f).saveHardState := by
  refine K.settle_follows (Follows.modifySm hx fun _ H _ hq => ⟨hq.1.aligned, hq.1.buffer, ?_, ?_⟩)
  · exact fun j pr hpr => hq.1.next j pr (hnext j pr hpr)
  · exact K.aside (n := x.node) ⟨rfl, rfl, rfl, hcommit, happlied⟩ rfl hterm hq.2

/-- Stepping down is booked. -/
theorem Keeps.descend_follows (hx : BookFollows W I At cond i h asker n₀ (Booked I) x) (term : ℕ)
    (leaderId : Option NodeId) :
    BookFollows W I At cond i h asker n₀ (Booked I) (x.descend term leaderId) := by
  unfold NodeTurn.descend
  split
  · rename_i hlt
    unfold NodeTurn.stepDown
    apply K.enterTerm_follows hx rfl rfl (Nat.le_of_lt hlt)
    intro j pr hpr
    simp [RaftStateMachine.becomeFollower] at hpr
  · exact hx

/-! ## Replication and elections -/

/-- A request with entries of the log, or without entries. -/
theorem Keeps.sendAppend_follows (hx : BookFollows W I At cond i h asker n₀ (Booked I) x)
    (peer : NodeId) {prev : ℕ} (es : List LogEntry) (hes : es = [] ∨ ∃ k,
      x.node.storage.firstIndex ≤ prev + 1 ∧ prev + 1 ≤ x.node.storage.lastIndex ∧
        es = (x.node.storage.entries.drop (prev + 1 - x.node.storage.firstIndex)).take k) :
    BookFollows W I At cond i h asker n₀ (Booked I)
      (x.sendAppend cfg peer prev (prevTermOf x.node.storage prev)
        (es.map logEntryToProtoEntry)) := by
  unfold NodeTurn.sendAppend
  apply Follows.effect hx _
  intro _ H _ _ hq
  have hbatch : W.batch ⟨x.sm.currentTerm, cfg.id, prev, prevTermOf x.node.storage prev,
      es.map logEntryToProtoEntry, x.sm.commitIndex⟩ := K.send hq.1.aligned hes hq.2
  have hcons : Consecutive (prev + 1)
      ((es.map logEntryToProtoEntry).map protoEntryToLogEntry) := by
    rw [map_protoEntryToLogEntry]
    rcases hes with rfl | ⟨k, hlo, -, rfl⟩
    · intro j hj
      cases hj
    · exact hq.1.aligned.consecutive_drop hlo k
  exact ⟨(), .refl, ⟨hq.1.aligned, K.note trivial hq.2, K.at_other nofun⟩,
    fun _ hp => Effect.tidy.packet (show Effect.tidy W (.spawned (.appendEntries peer _ _)) from
      ⟨hcons, hbatch⟩) hp, hq.1, K.note trivial hq.2⟩

/-- Sending to a peer. -/
theorem Keeps.replicateTo_follows (hx : BookFollows W I At cond i h asker n₀ (Booked I) x)
    (peer : NodeId) : BookFollows W I At cond i h asker n₀ (Booked I) (x.replicateTo cfg peer) := by
  refine Follows.assume hx (C := Based x.node) (fun _ _ _ hq => hq.1)
    (indifferent_true.replicateTo peer x) fun hbase => ?_
  unfold NodeTurn.replicateTo
  split
  · exact hx
  · rename_i progress hprogress
    have hone : 1 ≤ progress.nextIndex := hbase.next peer progress hprogress
    have hnext : progress.nextIndex - 1 + 1 = progress.nextIndex := Nat.sub_add_cancel hone
    dsimp only
    rw [NodeTurn.termOr0_eq, u64Sub_of_le hone]
    dsimp only
    rw [NodeTurn.lastIndexOr0_eq]
    dsimp only
    split
    · rename_i hge
      rw [NodeTurn.read_entries]
      by_cases hlo : x.node.storage.firstIndex ≤ progress.nextIndex
      · obtain ⟨k, -, hread⟩ := hbase.aligned.readEntries_some hlo hge (cfg.maxAppendEntries * 4096)
        rw [hread]
        dsimp only
        refine K.sendAppend_follows hx peer _ (.inr ⟨k, ?_⟩)
        rw [hnext]
        exact ⟨hlo, hge, rfl⟩
      · rw [readEntries_compacted _ _ (by omega)]
        dsimp only
        unfold NodeTurn.sendSnapshotTo
        rw [NodeTurn.read_snapshot]
        cases hsnap : x.node.storage.snapshot with
        | none => exact hx
        | some snap =>
          apply Follows.effect hx _
          intro _ H _ _ hq
          have hsent : W.snapshot ⟨x.sm.currentTerm, cfg.id, snap.metadata.lastIncludedIndex,
              snap.metadata.lastIncludedTerm, 0, snap.data, true⟩ := K.sendSnapshot hsnap hq.2
          exact ⟨(), .refl, ⟨hq.1.aligned, K.note trivial hq.2, K.at_other nofun⟩,
            fun _ hp => Effect.tidy.packet
              (show Effect.tidy W (.spawned (.installSnapshot peer _ _)) from ⟨rfl, hsent⟩) hp,
            hq.1, K.note trivial hq.2⟩
    · exact K.sendAppend_follows hx peer [] (.inl rfl)

/-- What a leader sends to all is booked as what it sends to each. -/
theorem Keeps.replicateAll_follows (hx : BookFollows W I At cond i h asker n₀ (Booked I) x) :
    BookFollows W I At cond i h asker n₀ (Booked I) (x.replicateAll cfg) := by
  unfold NodeTurn.replicateAll
  split
  · exact hx
  · exact Follows.foldl _ _ (fun y peer _ hy => K.replicateTo_follows hy peer) hx

/-- A leadership is booked with its heartbeats. -/
theorem Keeps.takeLeadership_follows (hx : BookFollows W I At cond i h asker n₀ (Booked I) x) :
    BookFollows W I At cond i h asker n₀ (Booked I) (x.takeLeadership cfg) := by
  unfold NodeTurn.takeLeadership
  rw [NodeTurn.lastIndexOr0_eq]
  dsimp only
  have hlead := K.aside_follows hx
    (f := .becomeLeader cfg.id x.node.storage.lastIndex cfg.peers) rfl rfl rfl fun j pr hpr => ?_
  · exact K.replicateAll_follows (K.metrics_follows (K.note_follows hlead
      (e := .becameLeader x.sm.currentTerm) trivial trivial) _)
  obtain ⟨-, rfl⟩ := RaftStateMachine.freshProgress_lookup hpr
  exact .inr (Nat.succ_le_succ (Nat.zero_le _))

/-- A candidacy is booked, and the leadership of a cluster of one. -/
theorem Keeps.startElection_follows (hx : BookFollows W I At cond i h asker n₀ (Booked I) x) :
    BookFollows W I At cond i h asker n₀ (Booked I) (x.startElection cfg) := by
  unfold NodeTurn.startElection
  dsimp only
  have hsaved := K.enterTerm_follows hx (f := .becomeCandidate cfg.id) rfl rfl (Nat.le_succ _)
    fun _ _ hpr => hpr
  generalize (x.modifySm (.becomeCandidate cfg.id)).saveHardState = y at hsaved ⊢
  rw [NodeTurn.lastIndexOr0_eq, NodeTurn.termOr0_eq]
  dsimp only
  generalize (if y.node.storage.lastIndex > 0 then
    unwrapOr (y.node.storage.term y.node.storage.lastIndex) 0 else 0) = t
  have hstarted := K.metrics_follows (K.note_follows hsaved
    (e := .electionStarted y.sm.currentTerm) trivial trivial)
    fun m => { m with electionsStarted := m.electionsStarted + 1 }
  have hfan := fun req : RequestVoteRequest =>
    Follows.foldl (fun z peer => z.effect (.spawned (.requestVote peer req))) cfg.peers
      (fun z peer _ hz => K.note_follows hz (e := .spawned (.requestVote peer req)) trivial trivial)
      hstarted
  split
  · exact K.takeLeadership_follows (hfan _)
  · exact hfan _

/-- The response of a voter is booked. -/
theorem Keeps.handleVoteResponse_follows (hx : BookFollows W I At cond i h asker n₀ (Booked I) x)
    (peer : NodeId) (resp : RequestVoteResponse) :
    BookFollows W I At cond i h asker n₀ (Booked I) (x.handleVoteResponse cfg peer resp) := by
  unfold NodeTurn.handleVoteResponse
  split
  · rename_i hlt
    rw [← NodeTurn.descend_of_lt hlt]
    exact K.descend_follows hx resp.term none
  · split
    · have hcounted := K.aside_follows hx
        (f := fun sm => { sm with votesReceived := insert peer sm.votesReceived }) rfl rfl rfl
        fun _ _ hpr => .inl hpr
      dsimp only
      split
      · exact K.takeLeadership_follows hcounted
      · exact hcounted
    · exact hx

/-- A vote is booked with its reply. -/
theorem Keeps.handleRequestVote_follows (hx : BookFollows W I At cond i h asker n₀ (Booked I) x)
    (req : RequestVoteRequest) :
    BookFollows W I At cond i h asker n₀ (Booked I) (x.handleRequestVote req) := by
  unfold NodeTurn.handleRequestVote
  refine K.note_follows ?_ trivial trivial
  unfold NodeTurn.onRequestVote
  dsimp only
  rw [← NodeTurn.descend]
  have hy := K.descend_follows hx req.term none
  generalize x.descend req.term none = y at hy
  split
  · exact hy
  · split
    · exact hy
    · rw [NodeTurn.lastIndexOr0_eq, NodeTurn.termOr0_eq]
      dsimp only
      generalize (if y.node.storage.lastIndex > 0 then
        unwrapOr (y.node.storage.term y.node.storage.lastIndex) 0 else 0) = t
      split
      · exact K.metrics_follows (K.save_follows (K.aside_follows hy rfl rfl rfl
          fun _ _ hpr => .inl hpr)) _
      · exact hy

end Turn

end IceRaft
