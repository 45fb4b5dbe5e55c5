import IceRaft.Analysis.LeaderTurns
import IceRaft.Analysis.PersistBeforeReply

/-!
# Answers with an index

Only two places answer with an index: the branch for a read index, and the notification
loop of a leader.  The loop runs after the commit step, so the commit index it goes by was
that of the node before, or it is persisted already.
-/

set_option autoImplicit false

namespace IceRaft

open MemStorage

/-- The answers of two histories in a row concatenate. -/
@[simp] theorem answers_append (h h' : List Effect) :
    answers (h ++ h') = answers h ++ answers h' := by
  unfold answers
  exact List.filterMap_append

namespace NodeTurn

variable {σ : Type} {x : NodeTurn σ} {cfg : RaftConfig}

/-- The indices the turn has answered with so far, and on which channels. -/
abbrev told (x : NodeTurn σ) : List (Sender × ℕ) := answers x.effects

/-! ## Code that answers with no index -/

/-- A change of the Raft state answers nobody. -/
theorem modifySm_told (f : RaftStateMachine → RaftStateMachine) (x : NodeTurn σ) :
    (x.modifySm f).told = x.told := rfl

/-- A count answers nobody. -/
theorem modifyMetrics_told (f : RaftMetrics → RaftMetrics) (x : NodeTurn σ) :
    (x.modifyMetrics f).told = x.told := rfl

/-- An effect that is no answer answers nobody. -/
theorem effect_told {e : Effect} (he : answers [e] = []) : (x.effect e).told = x.told := by
  rw [told, Turn.emit_effects, answers_append, he, List.append_nil]

/-- So does a loop of such effects. -/
theorem effects_told {α : Type} (e : α → Effect) (he : ∀ a, answers [e a] = []) (l : List α)
    (x : NodeTurn σ) : (l.foldl (fun y a => y.effect (e a)) x).told = x.told :=
  Turn.foldl_keeps told (fun _ a => effect_told (he a)) l x

/-- A write answers nobody. -/
theorem write_told {α : Type} (op : σ → Except RaftError α × σ) (x : NodeTurn σ) :
    (x.write op).2.told = x.told :=
  effect_told (x := x.update fun n => { n with storage := (op x.node.storage).2 }) rfl

variable [Storage σ]

/-- Saving answers nobody. -/
theorem saveHardState_told (x : NodeTurn σ) : x.saveHardState.told = x.told := by
  unfold saveHardState
  dsimp only
  rw [modifyMetrics_told, write_told]

/-- Stepping down answers nobody, those who wait included. -/
theorem descend_told (term : ℕ) (leaderId : Option NodeId) (x : NodeTurn σ) :
    (x.descend term leaderId).told = x.told := by
  unfold descend
  split
  · exact saveHardState_told (x.modifySm (.becomeFollower term leaderId))
  · rfl

/-- Reading the last index answers nobody. -/
theorem lastIndexOr0_told (x : NodeTurn σ) : x.lastIndexOr0.2.told = x.told := rfl

/-- Reading a term answers nobody. -/
theorem termOr0_told (index : ℕ) (x : NodeTurn σ) : (x.termOr0 index).2.told = x.told := by
  unfold termOr0
  split
  · rfl
  · rfl

/-- The check on the previous entry answers no caller. -/
theorem checkPrevLog_told (req : AppendEntriesRequest) (x : NodeTurn σ) :
    (x.checkPrevLog req).2.told = x.told := by
  obtain ⟨-, heq⟩ | ⟨-, resp, y, heq, -, htrace⟩ := x.checkPrevLog_outcome req
  · rw [heq]
    rfl
  · rw [heq]
    unfold told Turn.effects
    rw [htrace]

/-- A batch of the leader answers no caller. -/
theorem appendBatch_told (req : AppendEntriesRequest) (x : NodeTurn σ) :
    (x.appendBatch req).2.told = x.told := by
  unfold appendBatch
  split
  · rfl
  · exact write_told _ x

/-- A follower that learns a commit index answers nobody. -/
theorem advanceCommit_told (req : AppendEntriesRequest) (x : NodeTurn σ) :
    (x.advanceCommit req).told = x.told := by
  unfold advanceCommit
  split
  · exact saveHardState_told (x.lastIndexOr0.2.modifySm _)
  · rfl

/-- A request of a leader is answered to the leader, not to a caller. -/
theorem onAppendEntries_told (req : AppendEntriesRequest) (x : NodeTurn σ) :
    (x.onAppendEntries req).2.told = x.told := by
  unfold onAppendEntries
  dsimp only
  rw [← descend]
  have hdown := descend_told req.term (some req.leaderId) x
  generalize x.descend req.term (some req.leaderId) = y at hdown
  split
  · exact hdown
  · have hcheck := checkPrevLog_told req
      (y.modifySm fun sm => { sm with leaderId := some req.leaderId })
    generalize (y.modifySm fun sm => { sm with leaderId := some req.leaderId }).checkPrevLog req =
      check at hcheck
    obtain ⟨verdict, z⟩ := check
    have hz : z.told = x.told := hcheck.trans hdown
    cases verdict with
    | some resp => exact hz
    | none =>
      have hbatch := appendBatch_told req z
      dsimp only
      generalize z.appendBatch req = written at hbatch
      obtain ⟨result, w⟩ := written
      have hw : w.told = x.told := hbatch.trans hz
      cases result with
      | error e => exact hw
      | ok _ => exact (advanceCommit_told req w).trans hw

/-- A vote answers no caller. -/
theorem onRequestVote_told (req : RequestVoteRequest) (x : NodeTurn σ) :
    (x.onRequestVote req).2.told = x.told := by
  unfold onRequestVote
  dsimp only
  rw [← descend]
  have hdown := descend_told req.term none x
  generalize x.descend req.term none = y at hdown
  have hlast : (y.lastIndexOr0.2.termOr0 y.lastIndexOr0.1).2.told = x.told := by
    rw [termOr0_told, lastIndexOr0_told, hdown]
  generalize y.lastIndexOr0.2.termOr0 y.lastIndexOr0.1 = z at hlast
  split
  · exact hdown
  · split
    · exact hdown
    · split
      · rw [modifyMetrics_told, saveHardState_told]
        exact hlast
      · exact hlast

/-- A snapshot answers no caller. -/
theorem onInstallSnapshot_told (req : InstallSnapshotRequest) (x : NodeTurn σ) :
    (x.onInstallSnapshot req).2.told = x.told := by
  unfold onInstallSnapshot
  dsimp only
  rw [← descend]
  have hdown := descend_told req.term (some req.leaderId) x
  generalize x.descend req.term (some req.leaderId) = y at hdown
  split
  · exact hdown
  · split
    · generalize y.node.snapshotBuf.getD _ = buf
      have hwrite : ∀ snap : Snapshot, ((y.update fun n => { n with
          snapshotBuf := some (buf.1, buf.2 ++ req.data) }).write
            (Storage.applySnapshot snap)).2.told = x.told := fun snap =>
        (write_told (Storage.applySnapshot snap) _).trans hdown
      split
      · rename_i e z heq
        rw [← hwrite, heq]
      · rename_i z heq
        rw [modifyMetrics_told, saveHardState_told, ← hwrite, heq]
        rfl
    · exact hdown

/-! ## Sending -/

/-- Sending a snapshot answers nobody. -/
theorem sendSnapshotTo_told (peer : NodeId) (x : NodeTurn σ) :
    (x.sendSnapshotTo cfg peer).told = x.told := by
  have hread : (x.read Storage.snapshot).2.told = x.told := rfl
  unfold sendSnapshotTo
  split
  · rename_i snap y heq
    rw [heq] at hread
    exact (effect_told rfl).trans hread
  · rename_i heq
    rw [heq] at hread
    exact hread
  · rename_i heq
    rw [heq] at hread
    exact hread

/-- Replication to a peer answers nobody. -/
theorem replicateTo_told (peer : NodeId) (x : NodeTurn σ) :
    (x.replicateTo cfg peer).told = x.told := by
  unfold replicateTo
  split
  · rfl
  · rename_i progress _
    have hpre : (x.termOr0 (u64Sub progress.nextIndex 1)).2.lastIndexOr0.2.told = x.told :=
      termOr0_told _ x
    dsimp only
    generalize (x.termOr0 (u64Sub progress.nextIndex 1)).2.lastIndexOr0 = last at hpre
    split
    · have hread : (last.2.read (Storage.entries progress.nextIndex (last.1 + 1)
          (some (cfg.maxAppendEntries * 4096)))).2.told = x.told := hpre
      split
      · rename_i es y heq
        rw [heq] at hread
        exact (effect_told rfl).trans hread
      · rename_i heq
        rw [heq] at hread
        exact (sendSnapshotTo_told peer _).trans hread
      · rename_i heq
        rw [heq] at hread
        exact hread
    · exact (effect_told rfl).trans hpre

/-- Replication to all peers answers nobody. -/
theorem replicateAll_told (x : NodeTurn σ) : (x.replicateAll cfg).told = x.told := by
  unfold replicateAll
  split
  · rfl
  · exact Turn.foldl_keeps told (fun y peer => replicateTo_told peer y) cfg.peers x

/-- A proposal is not answered `Ok` by its own turn. -/
theorem onProposal_told (proposal : Proposal) (x : NodeTurn σ) :
    (x.onProposal cfg proposal).told = x.told := by
  unfold onProposal
  dsimp only
  split
  · split
    · exact effect_told rfl
    · rfl
  · have hwrite : ∀ es, (x.lastIndexOr0.2.write (Storage.appendEntries es)).2.told = x.told :=
      fun es => write_told (Storage.appendEntries es) x.lastIndexOr0.2
    split
    · rename_i e y heq
      have hy : y.told = x.told := by rw [← hwrite, heq]
      refine Eq.trans ?_ hy
      split
      · exact effect_told rfl
      · rfl
    · rename_i y heq
      have hy : y.told = x.told := by rw [← hwrite, heq]
      refine (replicateAll_told _).trans (Eq.trans ?_ hy)
      split
      · exact effect_told rfl
      · rfl

/-! ## Elections -/

/-- A new leader answers nobody. -/
theorem takeLeadership_told (x : NodeTurn σ) : (x.takeLeadership cfg).told = x.told := by
  unfold takeLeadership
  dsimp only
  rw [replicateAll_told, modifyMetrics_told, effect_told rfl, modifySm_told]
  rfl

/-- An election answers nobody. -/
theorem startElection_told (x : NodeTurn σ) : (x.startElection cfg).told = x.told := by
  unfold startElection
  dsimp only
  have hsaved := saveHardState_told (x.modifySm (.becomeCandidate cfg.id))
  rw [modifySm_told] at hsaved
  generalize (x.modifySm (.becomeCandidate cfg.id)).saveHardState = y at hsaved
  have hlast : (y.lastIndexOr0.2.termOr0 y.lastIndexOr0.1).2.told = x.told := by
    rw [termOr0_told, lastIndexOr0_told, hsaved]
  generalize y.lastIndexOr0.2.termOr0 y.lastIndexOr0.1 = z at hlast
  have hfan : ∀ req : RequestVoteRequest, (cfg.peers.foldl (fun w peer =>
      w.effect (.spawned (.requestVote peer req)))
      (modifyMetrics (fun m => { m with electionsStarted := m.electionsStarted + 1 })
        (z.2.effect (.electionStarted z.2.sm.currentTerm)))).told = x.told := by
    intro req
    rw [effects_told (fun peer => .spawned (.requestVote peer req)) fun _ => rfl,
      modifyMetrics_told, effect_told rfl, hlast]
  split
  · exact (takeLeadership_told _).trans (hfan _)
  · exact hfan _

/-- A vote that arrives answers no caller. -/
theorem handleVoteResponse_told (peer : NodeId) (resp : RequestVoteResponse) (x : NodeTurn σ) :
    (x.handleVoteResponse cfg peer resp).told = x.told := by
  unfold handleVoteResponse
  split
  · exact saveHardState_told (x.modifySm (.becomeFollower resp.term none))
  · split
    · dsimp only
      split
      · exact takeLeadership_told _
      · rfl
    · rfl

/-! ## The commit step of a leader -/

omit [Storage σ] in
/-- The notification loop answers with indices that the commit index has reached. -/
theorem notifyPending_told {x : NodeTurn σ} {q : Sender × ℕ} (hq : q ∈ x.notifyPending.told) :
    q ∈ x.told ∨ q.2 ≤ x.sm.commitIndex := by
  have hfold : ∀ (l : List (ℕ × Sender)) (commit : ℕ) (y : NodeTurn σ),
      q ∈ (l.foldl (notifyOne commit) y).told → q ∈ y.told ∨ q.2 ≤ commit := by
    intro l commit
    induction l with
    | nil => exact fun _ h => .inl h
    | cons w l ih =>
      intro y h
      rcases ih _ h with hmem | hle
      · unfold notifyOne at hmem
        split at hmem
        · rw [told, Turn.emit_effects, answers_append] at hmem
          rcases List.mem_append.mp hmem with hmem | hmem
          · exact .inl hmem
          · rw [List.mem_singleton.mp hmem]
            exact .inr ‹_›
        · exact .inl hmem
      · exact .inr hle
  exact hfold x.node.pending x.sm.commitIndex (x.update fun n => { n with pending := [] }) hq

/-- An entry that is applied answers nobody. -/
theorem applyCommitted_told (x : NodeTurn σ) : x.applyCommitted.told = x.told := by
  have hfold : ∀ (es : List LogEntry) (y : NodeTurn σ), (es.foldl applyOne y).told = y.told :=
    Turn.foldl_keeps told fun _ _ => effect_told rfl
  have hread : (x.read (Storage.entries (x.sm.lastApplied + 1) (x.sm.commitIndex + 1)
    none)).2.told = x.told := rfl
  unfold applyCommitted
  dsimp only
  split
  · rfl
  · split
    · rename_i es y heq
      rw [heq] at hread
      exact (hfold es y).trans hread
    · rename_i e y heq
      rw [heq] at hread
      exact hread

/-- Storage, term and commit index stay. -/
structure Idle (n n' : RaftNodeInner MemStorage) : Prop where
  storage : n'.storage = n.storage
  currentTerm : n'.sm.currentTerm = n.sm.currentTerm
  commitIndex : n'.sm.commitIndex = n.sm.commitIndex

/-- Nothing has changed in a node as it is. -/
theorem Idle.refl (n : RaftNodeInner MemStorage) : Idle n n := ⟨rfl, rfl, rfl⟩

/-- To leave log and commit index alone is transitive. -/
theorem Idle.trans {n n' n'' : RaftNodeInner MemStorage} (h : Idle n n') (h' : Idle n' n'') :
    Idle n n'' :=
  ⟨h'.storage.trans h.storage, h'.currentTerm.trans h.currentTerm,
    h'.commitIndex.trans h.commitIndex⟩

/-- A continuation in which the node stays idle. -/
abbrev Idles (x y : NodeTurn MemStorage) : Prop := Turn.Quiet Idle (fun _ => True) x y

/-- Notification leaves log and commit index alone. -/
theorem idles_notifyPending (x : NodeTurn MemStorage) : Idles x x.notifyPending := by
  unfold notifyPending
  have hcleared : Idles x (x.update fun n => { n with pending := [] }) :=
    .modify ⟨rfl, rfl, rfl⟩
  refine hcleared.trans Idle.trans ?_
  apply Turn.Quiet.foldl Idle.refl Idle.trans _ _
  intro y w _
  unfold notifyOne
  split
  · exact .emit Idle.refl trivial
  · exact .modify ⟨rfl, rfl, rfl⟩

/-- Applying leaves log and commit index alone. -/
theorem idles_applyCommitted (x : NodeTurn MemStorage) : Idles x x.applyCommitted := by
  unfold applyCommitted
  dsimp only
  split
  · exact .refl Idle.refl x
  · rw [read_entries]
    cases x.node.storage.readEntries (x.sm.lastApplied + 1) (x.sm.commitIndex + 1) none with
    | error e => exact .refl Idle.refl x
    | ok es =>
      apply Turn.Quiet.foldl Idle.refl Idle.trans _ _
      intro y e _
      have hset : Idles y (modifySm (fun sm => { sm with lastApplied := e.index }) y) := by
        unfold modifySm
        exact .modify ⟨rfl, rfl, rfl⟩
      exact hset.trans Idle.trans (.emit Idle.refl trivial)

/-- A turn that began in `n₀` may answer with `k`: the node had committed it before, or
the commit index is persisted under the term of the turn. -/
def Covers (n₀ n : RaftNodeInner MemStorage) (k : ℕ) : Prop :=
  k ≤ n₀.sm.commitIndex ∨
    (k ≤ n.storage.hardState.commit ∧ n.storage.hardState.term = n₀.sm.currentTerm)

/-- Up to `y` the turn has not answered; from then on the node is idle, and what it answers
is covered. -/
structure AnswersLast (n₀ : RaftNodeInner MemStorage) (x y : NodeTurn MemStorage) : Prop where
  silent : y.told = []
  idles : Idles y x
  lead : x.told ≠ [] → n₀.sm.role = .leader ∧ y.sm.currentTerm = n₀.sm.currentTerm
  bound : ∀ q ∈ x.told, q.2 ≤ y.sm.commitIndex
  covered : x.told ≠ [] → Covers n₀ y.node y.sm.commitIndex

/-- A turn that does not answer. -/
theorem AnswersLast.of_silent {n₀ : RaftNodeInner MemStorage} {x : NodeTurn MemStorage}
    (h : x.told = []) : AnswersLast n₀ x x := by
  refine ⟨h, .refl Idle.refl x, fun hne => absurd h hne, fun q hq => ?_, fun hne => absurd h hne⟩
  rw [h] at hq
  exact absurd hq List.not_mem_nil

/-- What comes behind the answers may be anything that answers nobody. -/
theorem AnswersLast.then {n₀ : RaftNodeInner MemStorage} {x y z : NodeTurn MemStorage}
    (h : AnswersLast n₀ x y) (hidle : Idles x z) (htold : z.told = x.told) :
    AnswersLast n₀ z y where
  silent := h.silent
  idles := h.idles.trans Idle.trans hidle
  lead := by rw [htold]; exact h.lead
  bound := by rw [htold]; exact h.bound
  covered := by rw [htold]; exact h.covered

/-- The commit step commits, saves, and answers. -/
theorem maybeAdvanceCommit_answersLast {n₀ : RaftNodeInner MemStorage}
    {x : NodeTurn MemStorage} (hsilent : x.told = []) (hrole : x.sm.role = n₀.sm.role)
    (hterm : x.sm.currentTerm = n₀.sm.currentTerm)
    (hcommit : x.sm.commitIndex = n₀.sm.commitIndex) :
    ∃ y, AnswersLast n₀ (x.maybeAdvanceCommit cfg) y := by
  unfold maybeAdvanceCommit
  split
  · exact ⟨x, .of_silent hsilent⟩
  · rename_i hlead
    have hlead₀ : n₀.sm.role = .leader := hrole ▸ Decidable.not_not.mp hlead
    have hloop : ∀ y : NodeTurn MemStorage, y.told = [] → y.sm.currentTerm = n₀.sm.currentTerm →
        Covers n₀ y.node y.sm.commitIndex → AnswersLast n₀ y.notifyPending y := by
      intro y hy hyterm hcover
      refine ⟨hy, idles_notifyPending y, fun _ => ⟨hlead₀, hyterm⟩, fun q hq => ?_, fun _ => hcover⟩
      rcases notifyPending_told hq with hmem | hle
      · rw [hy] at hmem
        exact absurd hmem List.not_mem_nil
      · exact hle
    rw [lastIndexOr0_eq]
    dsimp only
    rw [(commitScan_cases cfg x.node.storage.lastIndex x).1]
    generalize (x.commitScan cfg x.node.storage.lastIndex).1 = k
    split
    · refine ⟨_, hloop _ ?_ hterm (.inr ⟨Nat.le_refl _, hterm⟩)⟩
      rw [modifyMetrics_told, saveHardState_told, modifySm_told, hsilent]
    · exact ⟨x, hloop x hsilent hterm (.inl (Nat.le_of_eq hcommit))⟩

/-- A response answers once the commit index has moved. -/
theorem handleResponse_answersLast (cfg : RaftConfig) (n₀ : RaftNodeInner MemStorage)
    (peer : NodeId) (f : Progress → Progress) (term : ℕ) :
    ∃ y, AnswersLast n₀ (handleResponse cfg peer f term (Turn.start n₀)) y := by
  have hstart : NodeTurn.told (Turn.start n₀ : NodeTurn MemStorage) = [] := rfl
  obtain heq | ⟨-, -, heq⟩ := handleResponse_cases cfg peer f term (Turn.start n₀)
  · rw [heq]
    exact ⟨_, .of_silent ((descend_told _ _ _).trans hstart)⟩
  · obtain ⟨m, hm⟩ := updateProgress_eq peer f n₀.sm
    have hsm : (modifySm (updateProgress peer f) (Turn.start n₀)).sm =
        { n₀.sm with progress := m } := hm
    rw [heq]
    refine maybeAdvanceCommit_answersLast (x := modifySm _ _) hstart ?_ ?_ ?_
    · rw [hsm]
    · rw [hsm]
    · rw [hsm]

/-- **Answers come last**: in every turn but that of a read index, they go out after the
commit step of a leader has saved what it committed. -/
theorem run_answersLast (cfg : RaftConfig) {input : Input} (n₀ : RaftNodeInner MemStorage)
    (hread : ∀ tx, input ≠ .message (.readIndex tx)) :
    ∃ y, AnswersLast n₀ (NodeTurn.run cfg input (Turn.start n₀)) y := by
  have hstart : NodeTurn.told (Turn.start n₀ : NodeTurn MemStorage) = [] := rfl
  have hsilent : ∀ {x : NodeTurn MemStorage}, x.told = [] → ∃ y, AnswersLast n₀ x y :=
    fun h => ⟨_, .of_silent h⟩
  cases input with
  | appendEntries req =>
    refine hsilent ((effect_told rfl).trans ?_)
    rw [onAppendEntries_told, hstart]
  | requestVote req =>
    refine hsilent ((effect_told rfl).trans ?_)
    rw [onRequestVote_told, hstart]
  | installSnapshot req =>
    refine hsilent ((effect_told rfl).trans ?_)
    rw [onInstallSnapshot_told, hstart]
  | timer electionDue heartbeatDue =>
    unfold NodeTurn.run timerBranch
    dsimp only
    split
    · refine hsilent ?_
      rw [startElection_told, hstart]
    · split
      · have hnode := replicateAll_node cfg (Turn.start n₀ : NodeTurn MemStorage)
        have htold : (replicateAll cfg (Turn.start n₀ : NodeTurn MemStorage)).told = [] :=
          replicateAll_told _
        generalize replicateAll cfg (Turn.start n₀ : NodeTurn MemStorage) = x at hnode htold
        have hsm : x.sm = n₀.sm := congrArg RaftNodeInner.sm hnode
        obtain ⟨y, hy⟩ : ∃ y, AnswersLast n₀ (x.maybeAdvanceCommit cfg) y := by
          refine maybeAdvanceCommit_answersLast htold ?_ ?_ ?_
          · rw [hsm]
          · rw [hsm]
          · rw [hsm]
        exact ⟨y, hy.then (idles_applyCommitted _) (applyCommitted_told _)⟩
      · exact hsilent hstart
  | message msg =>
    cases msg with
    | readIndex tx => exact absurd rfl (hread tx)
    | propose proposal =>
      refine hsilent ?_
      exact (onProposal_told proposal _).trans hstart
    | voteResponse peer resp =>
      refine hsilent ?_
      exact (handleVoteResponse_told peer resp _).trans hstart
    | appendResponse peer last resp => exact handleResponse_answersLast cfg n₀ peer _ _
    | snapshotResponse peer last resp => exact handleResponse_answersLast cfg n₀ peer _ _
    | getLeader tx => exact hsilent ((effect_told rfl).trans hstart)
    | getTerm tx => exact hsilent ((effect_told rfl).trans hstart)
    | _ => exact hsilent hstart

/-- Whether a commit index is covered is up to the log. -/
theorem Covers.congr {n₀ n n' : RaftNodeInner MemStorage} {k : ℕ} (h : Covers n₀ n k)
    (hs : n'.storage = n.storage) : Covers n₀ n' k := by
  unfold Covers
  rw [hs]
  exact h

/-- What covers an index covers those below. -/
theorem Covers.le {n₀ n : RaftNodeInner MemStorage} {k k' : ℕ} (h : Covers n₀ n k) (hle : k' ≤ k) :
    Covers n₀ n k' :=
  h.imp (Nat.le_trans hle) (And.imp_left (Nat.le_trans hle))

end NodeTurn

/-- What an activation answers is covered by what it leaves, at a crash point too. -/
theorem Process.emitted_covered {cfg : RaftConfig} {input : Input} {crashAt : Option ℕ}
    {p : Process MemStorage} (hread : ∀ tx, input ≠ .message (.readIndex tx)) {tx : Sender} {k : ℕ}
    (hanswer : (tx, k) ∈ answers (p.emitted cfg input crashAt)) :
    p.node.sm.role = .leader ∧ NodeTurn.Covers p.node (p.act cfg input crashAt).node k ∧
      (crashAt = none → k ≤ (p.act cfg input crashAt).node.sm.commitIndex) := by
  obtain ⟨y, hy⟩ := NodeTurn.run_answersLast cfg p.node hread
  change NodeTurn.AnswersLast p.node (p.turn cfg input) y at hy
  have htold : (tx, k) ∈ (p.turn cfg input).told := by
    cases crashAt with
    | none => exact hanswer
    | some m =>
      have hsub : (p.turn cfg input).cutEffects m ⊆ (p.turn cfg input).effects :=
        List.map_subset _ (List.take_subset m _)
      exact mem_answers.mpr (hsub (mem_answers.mp hanswer))
  have hne : (p.turn cfg input).told ≠ [] := List.ne_nil_of_mem htold
  have hcover := (hy.covered hne).le (hy.bound _ htold)
  refine ⟨(hy.lead hne).1, ?_, ?_⟩
  · cases crashAt with
    | none => exact hcover.congr hy.idles.node.storage
    | some m =>
      rcases hy.idles.cut p.node m with hpre | hidle
      · -- before the cut nothing had been answered
        have hmem : (tx, k) ∈ y.told := mem_answers.mpr (hpre.subset (mem_answers.mp hanswer))
        rw [hy.silent] at hmem
        exact absurd hmem List.not_mem_nil
      · exact hcover.congr hidle.storage
  · rintro rfl
    rw [show (p.act cfg input none).node = (p.turn cfg input).node from rfl,
      hy.idles.node.commitIndex]
    exact hy.bound _ htold

end IceRaft
