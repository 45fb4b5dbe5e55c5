import IceRaft.Model.EventLoop

/-!
# The frame of a turn

Most of what a turn does is reading the log, writing entries, moving the two indices and
telling others about it.  Whatever relation on nodes and set of effects allows these steps
one by one allows all the code that is made of them: replication, the commit step,
proposals, and the handlers behind the point where they have settled on a term.
-/

set_option autoImplicit false

namespace IceRaft

namespace RaftNodeInner

variable {σ : Type}

/-- The hard state `save_hard_state` writes. -/
def hardState (n : RaftNodeInner σ) : HardState :=
  ⟨n.sm.currentTerm, n.sm.votedFor.getD 0, n.sm.commitIndex⟩

/-- The node after its storage has changed. -/
def setStorage (s : σ) (n : RaftNodeInner σ) : RaftNodeInner σ := { n with storage := s }

/-- The node after its Raft state has changed. -/
def setSm (sm : RaftStateMachine) (n : RaftNodeInner σ) : RaftNodeInner σ := { n with sm := sm }

/-- The node after its hard state was saved. -/
def persist [Storage σ] (n : RaftNodeInner σ) : RaftNodeInner σ :=
  n.setStorage (Storage.saveHardState n.hardState n.storage).2

end RaftNodeInner

/-- The effects of ordinary work: neither a vote, nor leadership, nor an applied entry. -/
def Effect.routine : Effect → Prop
  | .wrote | .accepted _ _ | .answered _ _ | .answeredLeader _ _ | .answeredTerm _ _ => True
  | .spawned (.requestVote _ _) => False
  | .spawned (.appendEntries _ _ _) | .spawned (.installSnapshot _ _ _) => True
  | .replied (.requestVote _ _) => False
  | .replied (.appendEntries _ _) | .replied (.installSnapshot _ _) => True
  | .electionStarted _ | .becameLeader _ | .restored _ | .applied _ => False

variable {σ : Type} [Storage σ]

/-- A preorder on nodes and a set of effects that allow the single steps of ordinary work. -/
structure Frame (R : RaftNodeInner σ → RaftNodeInner σ → Prop) (ok : Effect → Prop) : Prop where
  refl : ∀ n, R n n
  trans : ∀ {a b c}, R a b → R b c → R a c
  routine : ∀ e : Effect, e.routine → ok e
  rest : ∀ n metrics pending snapshotBuf,
    R n { n with metrics := metrics, pending := pending, snapshotBuf := snapshotBuf }
  progress : ∀ n m, R n (n.setSm { n.sm with progress := m })
  /-- new indices, saved at once -/
  indices : ∀ (n : RaftNodeInner σ) commit applied snapshotBuf,
    R n (RaftNodeInner.persist { n with
      sm := { n.sm with commitIndex := commit, lastApplied := applied },
      snapshotBuf := snapshotBuf })
  firstIndex : ∀ n, R n (n.setStorage (Storage.firstIndex n.storage).2)
  lastIndex : ∀ n, R n (n.setStorage (Storage.lastIndex n.storage).2)
  term : ∀ i n, R n (n.setStorage (Storage.term i n.storage).2)
  entries : ∀ lo hi max n, R n (n.setStorage (Storage.entries lo hi max n.storage).2)
  snapshot : ∀ n, R n (n.setStorage (Storage.snapshot n.storage).2)
  appendEntries : ∀ es n, R n (n.setStorage (Storage.appendEntries es n.storage).2)
  applySnapshot : ∀ snap n, R n (n.setStorage (Storage.applySnapshot snap n.storage).2)

namespace NodeTurn

/-! ## Settling on a term -/

/-- Step down if `term` is higher than ours. -/
def descend (term : ℕ) (leaderId : Option NodeId) (x : NodeTurn σ) : NodeTurn σ :=
  if term > x.sm.currentTerm then x.stepDown term leaderId else x

/-- What an AppendEntries request does to the Raft state before its log is looked at. -/
def heed (req : AppendEntriesRequest) (x : NodeTurn σ) : NodeTurn σ :=
  if req.term < x.sm.currentTerm then x
  else
    (x.descend req.term (some req.leaderId)).modifySm fun sm =>
      { sm with leaderId := some req.leaderId }

/-- The granting half of `on_request_vote`, with its reply. -/
def grant (req : RequestVoteRequest) (x : NodeTurn σ) : NodeTurn σ :=
  ((x.modifySm fun sm => { sm with votedFor := some req.candidateId }).saveHardState
    |>.modifyMetrics fun m => { m with votesGranted := m.votesGranted + 1 })
    |>.effect (.replied (.requestVote req (.ok ⟨x.sm.currentTerm, true⟩)))

/-- Saving leaves the Raft state alone. -/
@[simp] theorem saveHardState_sm (x : NodeTurn σ) : x.saveHardState.sm = x.sm := rfl

/-- Reading the last index leaves the Raft state alone. -/
@[simp] theorem lastIndexOr0_sm (x : NodeTurn σ) : x.lastIndexOr0.2.sm = x.sm := rfl

/-- Reading a term leaves the Raft state alone. -/
@[simp] theorem termOr0_sm (i : ℕ) (x : NodeTurn σ) : (x.termOr0 i).2.sm = x.sm := by
  unfold termOr0
  split
  · rfl
  · rfl

/-- A higher term is stepped down to. -/
theorem descend_of_lt {term : ℕ} {x : NodeTurn σ} (h : term > x.sm.currentTerm)
    (leaderId : Option NodeId) : x.descend term leaderId = x.stepDown term leaderId := if_pos h

/-- The term afterwards is the higher of the two. -/
theorem descend_term (term : ℕ) (leaderId : Option NodeId) (x : NodeTurn σ) :
    (x.descend term leaderId).sm.currentTerm = max x.sm.currentTerm term := by
  unfold descend
  split
  · exact (Nat.max_eq_right (Nat.le_of_lt ‹_›)).symm
  · exact (Nat.max_eq_left (Nat.le_of_not_lt ‹_›)).symm

/-- Stepping down keeps the chunks of a snapshot. -/
theorem descend_snapshotBuf (term : ℕ) (leaderId : Option NodeId) (x : NodeTurn σ) :
    (x.descend term leaderId).node.snapshotBuf = x.node.snapshotBuf := by
  unfold descend
  split
  · rfl
  · rfl

/-- After the step down our term is at least the one seen. -/
theorem le_descend (term : ℕ) (leaderId : Option NodeId) (x : NodeTurn σ) :
    term ≤ (x.descend term leaderId).sm.currentTerm := by
  rw [descend_term]
  exact Nat.le_max_right _ _

/-- A request that is not refused after the step down is of our term, or a higher one. -/
theorem not_lt_descend_iff {term : ℕ} {leaderId : Option NodeId} {x : NodeTurn σ} :
    ¬ term < (x.descend term leaderId).sm.currentTerm ↔ x.sm.currentTerm ≤ term := by
  rw [descend_term, Nat.not_lt, Nat.max_le]
  exact and_iff_left (Nat.le_refl term)

/-- A term that is not higher is not stepped down to. -/
theorem descend_of_le {term : ℕ} {x : NodeTurn σ} (h : term ≤ x.sm.currentTerm)
    (leaderId : Option NodeId) : x.descend term leaderId = x := if_neg (Nat.not_lt.mpr h)

/-! ### The response of a peer -/

/-- Both responses of a peer, by what they make of its progress. -/
def handleResponse (cfg : RaftConfig) (peer : NodeId) (f : Progress → Progress) (term : ℕ)
    (x : NodeTurn σ) : NodeTurn σ :=
  if term > x.sm.currentTerm then x.stepDown term none
  else if x.sm.role ≠ .leader then x
  else (x.modifySm (updateProgress peer f)).maybeAdvanceCommit cfg

/-- The response to a batch is a response, with its own update of the progress. -/
theorem handleAppendResponse_eq (cfg : RaftConfig) (peer : NodeId) (last : ℕ)
    (resp : AppendEntriesResponse) (x : NodeTurn σ) : x.handleAppendResponse cfg peer last resp =
      x.handleResponse cfg peer (progressAfterAppend last resp) resp.term := rfl

/-- A leader takes it in. -/
theorem handleResponse_of_leader (cfg : RaftConfig) (peer : NodeId) (f : Progress → Progress)
    {term : ℕ} {x : NodeTurn σ} (hrole : x.sm.role = .leader) (hle : term ≤ x.sm.currentTerm) :
    x.handleResponse cfg peer f term =
      (x.modifySm (updateProgress peer f)).maybeAdvanceCommit cfg := by
  unfold handleResponse
  rw [if_neg (Nat.not_lt.mpr hle), if_neg (not_not_intro hrole)]

/-- Anybody else looks at the term only. -/
theorem handleResponse_cases (cfg : RaftConfig) (peer : NodeId) (f : Progress → Progress)
    (term : ℕ) (x : NodeTurn σ) : x.handleResponse cfg peer f term = x.descend term none ∨
      (term ≤ x.sm.currentTerm ∧ x.sm.role = .leader ∧ x.handleResponse cfg peer f term =
        (x.modifySm (updateProgress peer f)).maybeAdvanceCommit cfg) := by
  rcases Nat.lt_or_ge x.sm.currentTerm term with hlt | hle
  · rw [descend_of_lt hlt]
    exact .inl (if_pos hlt)
  · by_cases hrole : x.sm.role = .leader
    · exact .inr ⟨hle, hrole, handleResponse_of_leader cfg peer f hrole hle⟩
    · rw [descend_of_le hle]
      unfold handleResponse
      rw [if_neg (Nat.not_lt.mpr hle), if_pos hrole]
      exact .inl rfl

/-! ### A request of an earlier term -/

/-- A batch of an earlier term is refused, and the node stays as it is. -/
theorem onAppendEntries_stale {req : AppendEntriesRequest} {x : NodeTurn σ}
    (h : req.term < x.sm.currentTerm) :
    x.onAppendEntries req = (.ok (reject 0 0 x.sm.currentTerm), x) := by
  unfold onAppendEntries
  rw [if_neg (Nat.not_lt_of_lt h)]
  dsimp only
  rw [if_pos h]

/-- A chunk of an earlier term is dropped, and the node stays as it is. -/
theorem onInstallSnapshot_stale {req : InstallSnapshotRequest} {x : NodeTurn σ}
    (h : req.term < x.sm.currentTerm) :
    x.onInstallSnapshot req = (.ok ⟨x.sm.currentTerm⟩, x) := by
  unfold onInstallSnapshot
  rw [if_neg (Nat.not_lt_of_lt h)]
  dsimp only
  rw [if_pos h]

/-- Only the refusal of a batch of an earlier term goes out. -/
theorem handleAppendEntries_stale {req : AppendEntriesRequest} {x : NodeTurn σ}
    (h : req.term < x.sm.currentTerm) : x.handleAppendEntries req =
      x.effect (.replied (.appendEntries req (.ok (reject 0 0 x.sm.currentTerm)))) := by
  unfold handleAppendEntries
  rw [onAppendEntries_stale h]

/-- A vote of an earlier term is refused. -/
theorem handleRequestVote_stale {req : RequestVoteRequest} {x : NodeTurn σ}
    (h : req.term < x.sm.currentTerm) : x.handleRequestVote req =
      x.effect (.replied (.requestVote req (.ok ⟨x.sm.currentTerm, false⟩))) := by
  unfold handleRequestVote onRequestVote
  rw [if_neg (Nat.not_lt_of_lt h)]
  dsimp only
  rw [if_pos h]

/-- The reply to a chunk of an earlier term names the current one. -/
theorem handleInstallSnapshot_stale {req : InstallSnapshotRequest} {x : NodeTurn σ}
    (h : req.term < x.sm.currentTerm) : x.handleInstallSnapshot req =
      x.effect (.replied (.installSnapshot req (.ok ⟨x.sm.currentTerm⟩))) := by
  unfold handleInstallSnapshot
  rw [onInstallSnapshot_stale h]

end NodeTurn

/-! ## Ordinary work -/

namespace Frame

variable {R : RaftNodeInner σ → RaftNodeInner σ → Prop} {ok : Effect → Prop} (hF : Frame R ok)
  {x y z : NodeTurn σ} {cfg : RaftConfig}

open Turn

omit [Storage σ] in
/-- A read stays in the frame if what it does to the storage does. -/
theorem ofRead {α : Type} {op : σ → Except RaftError α × σ}
    (hop : R x.node (x.node.setStorage (op x.node.storage).2)) : Quiet R ok x (x.read op).2 :=
  .modify hop

include hF

/-- A frame holds of no code at all. -/
theorem done (x : NodeTurn σ) : Quiet R ok x x := .refl hF.refl x

/-- A frame holds of code in a row. -/
theorem next (h : Quiet R ok x y) (h' : Quiet R ok y z) : Quiet R ok x z := h.trans hF.trans h'

/-- An effect in the course of ordinary work stays in the frame. -/
theorem emit {e : Effect} (he : e.routine) : Quiet R ok x (x.effect e) :=
  .emit hF.refl (hF.routine e he)

/-- The counters are outside every frame. -/
theorem modifyMetrics (f : RaftMetrics → RaftMetrics) : Quiet R ok x (x.modifyMetrics f) := by
  unfold NodeTurn.modifyMetrics
  exact .modify (hF.rest _ _ _ _)

/-- So are the waiting proposals. -/
theorem setPending (f : RaftNodeInner σ → List (ℕ × Sender)) :
    Quiet R ok x (x.update fun n => { n with pending := f n }) := .modify (hF.rest _ _ _ _)

/-- So are the chunks of a snapshot. -/
theorem setSnapshotBuf (f : RaftNodeInner σ → Option (SnapshotMetadata × Bytes)) :
    Quiet R ok x (x.update fun n => { n with snapshotBuf := f n }) := .modify (hF.rest _ _ _ _)

/-- A write stays in the frame if what it does to the storage does. -/
theorem write {α : Type} {op : σ → Except RaftError α × σ}
    (hop : R x.node (x.node.setStorage (op x.node.storage).2)) : Quiet R ok x (x.write op).2 :=
  hF.next (.modify hop) (hF.emit trivial)

/-- A change and the save behind it are one step. -/
theorem changeAndSave (f : RaftNodeInner σ → RaftNodeInner σ) (hf : R x.node (f x.node).persist) :
    Quiet R ok x (x.update f).saveHardState := by
  have hwrite : Quiet R ok x
      ((x.update f).write (Storage.saveHardState (f x.node).hardState)).2 := by
    refine ⟨⟨[(.wrote, (f x.node).persist)], rfl, ?_⟩, hf⟩
    intro p hp
    obtain rfl := List.mem_singleton.mp hp
    exact ⟨hF.routine .wrote trivial, hf⟩
  unfold NodeTurn.saveHardState
  exact hF.next hwrite (hF.modifyMetrics _)

/-- A commit index that is saved at once stays in the frame. -/
theorem setCommit (commit : ℕ) (x : NodeTurn σ) :
    Quiet R ok x (x.modifySm fun sm => { sm with commitIndex := commit }).saveHardState := by
  unfold NodeTurn.modifySm
  apply hF.changeAndSave
  exact hF.indices x.node commit x.node.sm.lastApplied x.node.snapshotBuf

/-- Reading the last index stays in the frame. -/
theorem lastIndexOr0 (x : NodeTurn σ) : Quiet R ok x x.lastIndexOr0.2 := ofRead (hF.lastIndex _)

/-- Reading a term stays in the frame. -/
theorem termOr0 (i : ℕ) (x : NodeTurn σ) : Quiet R ok x (x.termOr0 i).2 := by
  unfold NodeTurn.termOr0
  split
  · exact ofRead (hF.term i _)
  · exact hF.done x

/-- The search for a term is made of reads. -/
theorem searchTerm (t : ℕ) (fuel : ℕ) (lo hi : ℕ) (x : NodeTurn σ) :
    Quiet R ok x (x.searchTerm t fuel lo hi).2 := by
  induction fuel generalizing lo hi x with
  | zero => exact hF.done x
  | succ fuel ih =>
    unfold NodeTurn.searchTerm
    split
    · have hread : Quiet R ok x (x.read (Storage.term (lo + (hi - lo) / 2))).2 :=
        ofRead (hF.term _ _)
      dsimp only
      split
      · rename_i t' x' heq
        rw [heq] at hread
        split
        · exact hF.next hread (ih _ _ _)
        · exact hF.next hread (ih _ _ _)
      · rename_i e x' heq
        rw [heq] at hread
        exact hF.next hread (ih _ _ _)
    · exact hF.done x

/-- The first index of a term is found by reads. -/
theorem firstIndexOfTerm (t : ℕ) (upper : ℕ) (x : NodeTurn σ) :
    Quiet R ok x (x.firstIndexOfTerm t upper).2 :=
  hF.next (ofRead (hF.firstIndex _)) (hF.searchTerm _ _ _ _ _)

/-- The check on the previous entry is made of reads. -/
theorem checkPrevLog (req : AppendEntriesRequest) (x : NodeTurn σ) :
    Quiet R ok x (x.checkPrevLog req).2 := by
  have hread : Quiet R ok x (x.read (Storage.term req.prevLogIndex)).2 := ofRead (hF.term _ _)
  unfold NodeTurn.checkPrevLog
  split
  · split
    · rename_i heq; rw [heq] at hread; exact hread
    · rename_i heq; rw [heq] at hread; exact hread
    · rename_i heq
      rw [heq] at hread
      split
      · exact hF.next hread (hF.firstIndexOfTerm _ _ _)
      · exact hread
  · exact hF.done x

/-- A batch is at most one write. -/
theorem appendBatch (req : AppendEntriesRequest) (x : NodeTurn σ) :
    Quiet R ok x (x.appendBatch req).2 := by
  unfold NodeTurn.appendBatch
  split
  · exact hF.done x
  · exact hF.write (hF.appendEntries _ _)

/-- A follower's commit index is saved as it is set. -/
theorem advanceCommit (req : AppendEntriesRequest) (x : NodeTurn σ) :
    Quiet R ok x (x.advanceCommit req) := by
  unfold NodeTurn.advanceCommit
  split
  · exact hF.next (hF.lastIndexOr0 x) (hF.setCommit _ _)
  · exact hF.done x

/-! ### Replication and commit -/

/-- A snapshot is read and sent. -/
theorem sendSnapshotTo (peer : NodeId) (x : NodeTurn σ) :
    Quiet R ok x (x.sendSnapshotTo cfg peer) := by
  have hread : Quiet R ok x (x.read Storage.snapshot).2 := ofRead (hF.snapshot _)
  unfold NodeTurn.sendSnapshotTo
  split
  · rename_i heq; rw [heq] at hread; exact hF.next hread (hF.emit trivial)
  · rename_i heq; rw [heq] at hread; exact hread
  · rename_i heq; rw [heq] at hread; exact hread

/-- A batch goes out. -/
theorem sendAppend (peer : NodeId) (prevLogIndex : ℕ) (prevLogTerm : ℕ)
    (entries : List ProtoEntry) (x : NodeTurn σ) :
    Quiet R ok x (x.sendAppend cfg peer prevLogIndex prevLogTerm entries) := hF.emit trivial

/-- Replication to a peer is made of reads and one request. -/
theorem replicateTo (peer : NodeId) (x : NodeTurn σ) : Quiet R ok x (x.replicateTo cfg peer) := by
  unfold NodeTurn.replicateTo
  split
  · exact hF.done x
  · rename_i progress _
    have hpre : Quiet R ok x (x.termOr0 (u64Sub progress.nextIndex 1)).2.lastIndexOr0.2 :=
      hF.next (hF.termOr0 _ x) (hF.lastIndexOr0 _)
    refine hF.next hpre ?_
    dsimp only
    split
    · have hread : Quiet R ok _ ((x.termOr0 (u64Sub progress.nextIndex 1)).2.lastIndexOr0.2.read
          (Storage.entries progress.nextIndex
            ((x.termOr0 (u64Sub progress.nextIndex 1)).2.lastIndexOr0.1 + 1)
            (some (cfg.maxAppendEntries * 4096)))).2 := ofRead (hF.entries _ _ _ _)
      split
      · rename_i heq; rw [heq] at hread; exact hF.next hread (hF.sendAppend _ _ _ _ _)
      · rename_i heq; rw [heq] at hread; exact hF.next hread (hF.sendSnapshotTo _ _)
      · rename_i heq; rw [heq] at hread; exact hread
    · exact hF.sendAppend _ _ _ _ _

/-- Replication to all peers stays in the frame if that to each does. -/
theorem replicateAll (x : NodeTurn σ) : Quiet R ok x (x.replicateAll cfg) := by
  unfold NodeTurn.replicateAll
  split
  · exact hF.done x
  · exact Quiet.foldl hF.refl hF.trans _ _ fun y peer _ => hF.replicateTo peer y

/-- The scan for an index to commit is made of reads. -/
theorem commitScan (cfg : RaftConfig) (n : ℕ) (x : NodeTurn σ) :
    Quiet R ok x (x.commitScan cfg n).2 := by
  induction n generalizing x with
  | zero => exact hF.done x
  | succ n ih =>
    unfold NodeTurn.commitScan
    split
    · have hread : Quiet R ok x (x.read (Storage.term (n + 1))).2 := ofRead (hF.term _ _)
      dsimp only
      split
      · exact hread
      · exact hF.next hread (ih _)
    · exact hF.done x

/-- Answers to waiting callers are ordinary work. -/
theorem notifyPending (x : NodeTurn σ) : Quiet R ok x x.notifyPending := by
  unfold NodeTurn.notifyPending
  refine hF.next (hF.setPending fun _ => []) ?_
  apply Quiet.foldl hF.refl hF.trans _ _
  intro y waiting _
  unfold NodeTurn.notifyOne
  split
  · exact hF.emit trivial
  · exact hF.setPending _

/-- The commit step scans, saves and answers. -/
theorem maybeAdvanceCommit (x : NodeTurn σ) : Quiet R ok x (x.maybeAdvanceCommit cfg) := by
  unfold NodeTurn.maybeAdvanceCommit
  split
  · exact hF.done x
  · have hscan := hF.next (hF.lastIndexOr0 x)
      (hF.commitScan cfg x.lastIndexOr0.1 x.lastIndexOr0.2)
    refine hF.next hscan ?_
    dsimp only
    split
    · exact hF.next (hF.next (hF.setCommit _ _) (hF.modifyMetrics _)) (hF.notifyPending _)
    · exact hF.notifyPending _

/-- Where `last_applied` may move, and entries may be applied. -/
theorem applyCommitted (hstep : ∀ n k, R n (n.setSm { n.sm with lastApplied := k }))
    (happlied : ∀ e, ok (.applied e)) (x : NodeTurn σ) : Quiet R ok x x.applyCommitted := by
  have hread : Quiet R ok x (x.read (Storage.entries (x.sm.lastApplied + 1) (x.sm.commitIndex + 1)
    none)).2 := ofRead (hF.entries _ _ _ _)
  unfold NodeTurn.applyCommitted
  dsimp only
  split
  · exact hF.done x
  · split
    · rename_i heq
      rw [heq] at hread
      refine hF.next hread (Quiet.foldl hF.refl hF.trans _ _ fun y entry _ => ?_)
      exact hF.next (.modify (hstep _ _)) (.emit hF.refl (happlied entry))
    · rename_i heq; rw [heq] at hread; exact hread

/-! ### Whole messages -/

/-- A proposal is appended and sent, or refused. -/
theorem onProposal (proposal : Proposal) (x : NodeTurn σ) :
    Quiet R ok x (x.onProposal cfg proposal) := by
  unfold NodeTurn.onProposal
  dsimp only
  split
  · split
    · exact hF.emit trivial
    · exact hF.done x
  · refine hF.next (hF.lastIndexOr0 x) ?_
    have hwrite : Quiet R ok x.lastIndexOr0.2 (x.lastIndexOr0.2.write (Storage.appendEntries
        [⟨x.lastIndexOr0.2.sm.currentTerm, x.lastIndexOr0.1 + 1, proposal.data, .normal⟩])).2 :=
      hF.write (hF.appendEntries _ _)
    split
    · rename_i heq
      rw [heq] at hwrite
      refine hF.next hwrite ?_
      split
      · exact hF.emit trivial
      · exact hF.done _
    · rename_i heq
      rw [heq] at hwrite
      refine hF.next hwrite (hF.next ?_ (hF.replicateAll _))
      split
      · exact hF.next (hF.setPending _) (hF.emit trivial)
      · exact hF.done _

/-- The report of a follower, and the commit step behind it. -/
theorem report (peer : NodeId) (f : Progress → Progress) (x : NodeTurn σ) :
    Quiet R ok x ((x.modifySm (NodeTurn.updateProgress peer f)).maybeAdvanceCommit cfg) := by
  have hprogress : Quiet R ok x (x.modifySm (NodeTurn.updateProgress peer f)) := by
    unfold NodeTurn.modifySm
    apply Quiet.modify
    unfold NodeTurn.updateProgress
    split
    · exact hF.progress _ _
    · exact hF.refl _
  exact hF.next hprogress (hF.maybeAdvanceCommit _)

/-- Behind the check on its term, a response is ordinary work. -/
theorem handleResponse (peer : NodeId) (f : Progress → Progress) (term : ℕ) (x : NodeTurn σ) :
    Quiet R ok (x.descend term none) (x.handleResponse cfg peer f term) := by
  obtain heq | ⟨hle, -, heq⟩ := NodeTurn.handleResponse_cases cfg peer f term x
  · rw [heq]
    exact hF.done _
  · rw [heq, NodeTurn.descend_of_le hle]
    exact hF.report peer f x

/-- Behind the check on its term and leader, a batch is ordinary work. -/
theorem handleAppendEntries (req : AppendEntriesRequest) (x : NodeTurn σ) :
    Quiet R ok (x.heed req) (x.handleAppendEntries req) := by
  by_cases hstale : req.term < x.sm.currentTerm
  · rw [NodeTurn.handleAppendEntries_stale hstale, NodeTurn.heed, if_pos hstale]
    exact hF.emit trivial
  · unfold NodeTurn.handleAppendEntries
    refine hF.next ?_ (hF.emit trivial)
    unfold NodeTurn.onAppendEntries NodeTurn.heed
    dsimp only
    rw [← NodeTurn.descend, if_neg hstale]
    rw [if_neg (NodeTurn.not_lt_descend_iff.mpr (Nat.le_of_not_lt hstale))]
    generalize (x.descend req.term (some req.leaderId)).modifySm
      (fun sm => { sm with leaderId := some req.leaderId }) = y
    have hcheck := hF.checkPrevLog req y
    split
    · rename_i heq; rw [heq] at hcheck; exact hcheck
    · rename_i heq
      rw [heq] at hcheck
      have hbatch := hF.next hcheck (hF.appendBatch req _)
      split
      · rename_i heq; rw [heq] at hbatch; exact hbatch
      · rename_i heq
        rw [heq] at hbatch
        refine hF.next hbatch ?_
        dsimp only
        exact hF.next (hF.advanceCommit req _) (hF.modifyMetrics _)

/-- Behind the check on its term, a snapshot is ordinary work. -/
theorem handleInstallSnapshot (req : InstallSnapshotRequest) (x : NodeTurn σ) :
    Quiet R ok (x.descend req.term (some req.leaderId)) (x.handleInstallSnapshot req) := by
  unfold NodeTurn.handleInstallSnapshot
  refine hF.next ?_ (hF.emit trivial)
  unfold NodeTurn.onInstallSnapshot
  dsimp only
  rw [← NodeTurn.descend]
  generalize x.descend req.term (some req.leaderId) = y
  split
  · exact hF.done y
  · split
    · generalize hw : (NodeTurn.write _ _ : Except RaftError Unit × NodeTurn σ) = w
      have hwrite : Quiet R ok y w.2 := by
        rw [← hw]
        exact hF.next (hF.setSnapshotBuf fun _ => _) (hF.write (hF.applySnapshot _ _))
      obtain ⟨result, z⟩ := w
      cases result with
      | error e => exact hwrite
      | ok u =>
        refine hF.next hwrite ?_
        dsimp only
        refine hF.next ?_ (hF.modifyMetrics _)
        unfold NodeTurn.modifySm
        apply hF.changeAndSave (x := z) fun n => { n with
          sm := { n.sm with
            commitIndex := max n.sm.commitIndex req.lastIncludedIndex,
            lastApplied := max n.sm.lastApplied req.lastIncludedIndex },
          snapshotBuf := none }
        exact hF.indices z.node _ _ none
    · exact hF.setSnapshotBuf fun _ => _

/-- A request for a vote is refused quietly or granted. -/
theorem handleRequestVote (req : RequestVoteRequest) (x : NodeTurn σ) :
    ∃ y : NodeTurn σ, Quiet R ok (x.descend req.term none) y ∧
      ((∃ term, x.handleRequestVote req =
          y.effect (.replied (.requestVote req (.ok ⟨term, false⟩)))) ∨
        (y.sm.currentTerm = req.term ∧ NodeTurn.alreadyVoted y.sm req.candidateId = false ∧
          x.handleRequestVote req = y.grant req)) := by
  unfold NodeTurn.handleRequestVote NodeTurn.onRequestVote
  dsimp only
  rw [← NodeTurn.descend]
  have hge := NodeTurn.le_descend req.term none x
  generalize x.descend req.term none = y at hge
  split
  · exact ⟨y, hF.done y, .inl ⟨_, rfl⟩⟩
  · rename_i hlt
    split
    · exact ⟨y, hF.done y, .inl ⟨_, rfl⟩⟩
    · rename_i hvoted
      have hreads := hF.next (hF.lastIndexOr0 y) (hF.termOr0 y.lastIndexOr0.1 _)
      split
      · refine ⟨_, hreads, .inr ⟨?_, ?_, rfl⟩⟩
        · rw [NodeTurn.termOr0_sm, NodeTurn.lastIndexOr0_sm]
          omega
        · rw [NodeTurn.termOr0_sm, NodeTurn.lastIndexOr0_sm]
          exact Bool.eq_false_iff.mpr hvoted
      · exact ⟨_, hreads, .inl ⟨_, rfl⟩⟩

end Frame

/-! ## All of a turn -/

/-- The effect is not that of applying an entry. -/
def Effect.unapplied : Effect → Prop
  | .applied _ => False
  | _ => True

/-- A preorder on nodes and a set of effects that allow everything but applying entries and
taking up the leader of a request. -/
structure FullFrame (cfg : RaftConfig) (R : RaftNodeInner σ → RaftNodeInner σ → Prop)
    (ok : Effect → Prop) : Prop extends Frame R ok where
  unapplied : ∀ e : Effect, e.unapplied → ok e
  stepDown : ∀ (n : RaftNodeInner σ) term leader,
    R n (n.setSm (n.sm.becomeFollower term leader)).persist
  grant : ∀ (n : RaftNodeInner σ) candidate,
    R n (n.setSm { n.sm with votedFor := some candidate }).persist
  stand : ∀ n : RaftNodeInner σ, R n (n.setSm (n.sm.becomeCandidate cfg.id)).persist
  count : ∀ n votes, R n (n.setSm { n.sm with votesReceived := votes })
  lead : ∀ n last, R n (n.setSm (n.sm.becomeLeader cfg.id last cfg.peers))

namespace FullFrame

variable {R : RaftNodeInner σ → RaftNodeInner σ → Prop} {ok : Effect → Prop}
  {cfg : RaftConfig} (hF : FullFrame cfg R ok) {x y z : NodeTurn σ}

open Turn

include hF

/-- Any effect but an applied entry stays in a full frame. -/
theorem shown {e : Effect} (he : e.unapplied) : Quiet R ok x (x.effect e) :=
  .emit hF.refl (hF.unapplied e he)

/-- Stepping down stays in a full frame. -/
theorem descend (term : ℕ) (leaderId : Option NodeId) (x : NodeTurn σ) :
    Quiet R ok x (x.descend term leaderId) := by
  unfold NodeTurn.descend
  split
  · unfold NodeTurn.stepDown NodeTurn.modifySm
    apply hF.changeAndSave
    exact hF.stepDown x.node term leaderId
  · exact hF.done x

/-- Stepping down under a leader stays in a full frame, if the hint may change. -/
theorem heed (hhint : ∀ n leader, R n (n.setSm { n.sm with leaderId := leader }))
    (req : AppendEntriesRequest) (x : NodeTurn σ) : Quiet R ok x (x.heed req) := by
  unfold NodeTurn.heed
  split
  · exact hF.done x
  · exact hF.next (hF.descend _ _ x) (.modify (hhint _ _))

/-- Taking leadership stays in a full frame. -/
theorem takeLeadership (x : NodeTurn σ) : Quiet R ok x (x.takeLeadership cfg) := by
  unfold NodeTurn.takeLeadership
  refine hF.next (hF.lastIndexOr0 x) ?_
  dsimp only
  have hlead : Quiet R ok x.lastIndexOr0.2
      (x.lastIndexOr0.2.modifySm (.becomeLeader cfg.id x.lastIndexOr0.1 cfg.peers)) :=
    .modify (hF.lead _ _)
  refine hF.next hlead (hF.next ?_ (hF.next (hF.modifyMetrics _) (hF.replicateAll _)))
  exact hF.shown trivial

/-- An election stays in a full frame. -/
theorem startElection (x : NodeTurn σ) : Quiet R ok x (x.startElection cfg) := by
  unfold NodeTurn.startElection
  dsimp only
  have hstand : Quiet R ok x (x.modifySm (.becomeCandidate cfg.id)).saveHardState := by
    unfold NodeTurn.modifySm
    apply hF.changeAndSave
    exact hF.stand x.node
  generalize (x.modifySm (.becomeCandidate cfg.id)).saveHardState = y at hstand
  have hreads := hF.next hstand (hF.next (hF.lastIndexOr0 y) (hF.termOr0 y.lastIndexOr0.1 _))
  generalize y.lastIndexOr0.2.termOr0 y.lastIndexOr0.1 = r at hreads
  have hstarted : Quiet R ok x ((r.2.effect (.electionStarted r.2.sm.currentTerm)).modifyMetrics
      fun m => { m with electionsStarted := m.electionsStarted + 1 }) :=
    hF.next (hF.next hreads (hF.shown (e := .electionStarted r.2.sm.currentTerm) trivial))
      (hF.modifyMetrics _)
  have hfan (req : RequestVoteRequest) : Quiet R ok x (cfg.peers.foldl
      (fun (z : NodeTurn σ) peer => z.effect (.spawned (.requestVote peer req)))
      ((r.2.effect (.electionStarted r.2.sm.currentTerm)).modifyMetrics
        fun m => { m with electionsStarted := m.electionsStarted + 1 })) := by
    apply hF.next hstarted
    apply Quiet.foldl hF.refl hF.trans
    intro z peer _
    exact hF.shown trivial
  split
  · exact hF.next (hfan _) (hF.takeLeadership _)
  · exact hfan _

/-- The response of a voter stays in a full frame. -/
theorem handleVoteResponse (peer : NodeId) (resp : RequestVoteResponse) (x : NodeTurn σ) :
    Quiet R ok x (x.handleVoteResponse cfg peer resp) := by
  unfold NodeTurn.handleVoteResponse
  split
  · rename_i hlt
    rw [← NodeTurn.descend_of_lt hlt]
    exact hF.descend _ _ x
  · split
    · have hcount : Quiet R ok x (x.modifySm fun sm =>
          { sm with votesReceived := insert peer sm.votesReceived }) := .modify (hF.count _ _)
      dsimp only
      split
      · exact hF.next hcount (hF.takeLeadership _)
      · exact hcount
    · exact hF.done x

/-- A vote stays in a full frame. -/
theorem requestVote (req : RequestVoteRequest) (x : NodeTurn σ) :
    Quiet R ok x (x.handleRequestVote req) := by
  obtain ⟨y, hy, ⟨term, heq⟩ | ⟨-, -, heq⟩⟩ := hF.handleRequestVote req x
  · rw [heq]
    exact hF.next (hF.next (hF.descend _ _ x) hy) (hF.shown trivial)
  · rw [heq]
    unfold NodeTurn.grant
    refine hF.next (hF.next (hF.descend _ _ x) hy) (hF.next ?_ (hF.shown trivial))
    refine hF.next ?_ (hF.modifyMetrics _)
    unfold NodeTurn.modifySm
    apply hF.changeAndSave
    exact hF.grant y.node req.candidateId

/-- So does every message of the event loop. -/
theorem handleMessage (msg : RaftMessage) (x : NodeTurn σ) :
    Quiet R ok x (x.handleMessage cfg msg) := by
  cases msg with
  | propose proposal => exact hF.onProposal proposal x
  | voteResponse peer resp => exact hF.handleVoteResponse peer resp x
  | appendResponse peer last resp =>
    exact hF.next (hF.descend _ _ x) (hF.handleResponse peer _ _ x)
  | snapshotResponse peer last resp =>
    exact hF.next (hF.descend _ _ x) (hF.handleResponse peer _ _ x)
  | getLeader tx => exact hF.emit trivial
  | getTerm tx => exact hF.emit trivial
  | readIndex tx => exact hF.emit trivial
  | _ => exact hF.done x

/-- Every turn is made of the steps of the frame, but for the entries a leader applies at the
end of a heartbeat. -/
theorem run_or_apply (input : Input) (x : NodeTurn σ)
    (hheed : ∀ req, input = .appendEntries req → Quiet R ok x (x.heed req)) :
    ∃ y : NodeTurn σ, Quiet R ok x y ∧
      (NodeTurn.run cfg input x = y ∨ NodeTurn.run cfg input x = y.applyCommitted) := by
  cases input with
  | appendEntries req =>
    exact ⟨_, hF.next (hheed req rfl) (hF.handleAppendEntries req x), .inl rfl⟩
  | requestVote req => exact ⟨_, hF.requestVote req x, .inl rfl⟩
  | installSnapshot req =>
    exact ⟨_, hF.next (hF.descend _ _ x) (hF.handleInstallSnapshot req x), .inl rfl⟩
  | message msg => exact ⟨_, hF.handleMessage msg x, .inl rfl⟩
  | timer electionDue heartbeatDue =>
    unfold NodeTurn.run NodeTurn.timerBranch
    dsimp only
    split
    · exact ⟨_, hF.startElection x, .inl rfl⟩
    · split
      · exact ⟨_, hF.next (hF.replicateAll x) (hF.maybeAdvanceCommit _), .inr rfl⟩
      · exact ⟨x, hF.done x, .inl rfl⟩

end FullFrame

end IceRaft
