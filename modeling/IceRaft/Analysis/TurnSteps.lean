import IceRaft.Analysis.TurnFrame

/-!
# What a turn is made of

Over any storage a turn is made of few kinds of steps: changes of the memory, reads, writes,
and effects.  A relation between turns that respects each kind relates the beginning of every
turn that no client call starts to its end.  Unlike a frame, such a relation may look at what a
step reads, at the batches that are written and at the order of the effects.
-/

set_option autoImplicit false

namespace IceRaft

/-- The effects that show neither an entry nor the outcome of a call. -/
def Effect.bare : Effect → Prop
  | .spawned (.requestVote _ _) | .spawned (.installSnapshot _ _ _) => True
  | .replied _ | .electionStarted _ | .becameLeader _ => True
  | _ => False

/-- The message asks for no reply. -/
def RaftMessage.silent : RaftMessage → Prop
  | .propose _ | .readIndex _ | .getLeader _ | .getTerm _ => False
  | _ => True

variable {σ : Type} [Storage σ]

/-- A relation between turns that every kind of step respects; only batches in `writes` are
appended. -/
structure StepLaw (cfg : RaftConfig) (writes : List LogEntry → Prop)
    (J : NodeTurn σ → NodeTurn σ → Prop) : Prop where
  done : ∀ x, J x x
  next : ∀ {x y z}, J x y → J y z → J x z
  modifySm : ∀ f (x : NodeTurn σ), J x (x.modifySm f)
  modifyMetrics : ∀ f (x : NodeTurn σ), J x (x.modifyMetrics f)
  setSnapshotBuf : ∀ (buf : Option (SnapshotMetadata × Bytes)) (x : NodeTurn σ),
    J x (x.update fun n => { n with snapshotBuf := buf })
  note : ∀ {e : Effect}, e.bare → ∀ x : NodeTurn σ, J x (x.effect e)
  firstIndex : ∀ x : NodeTurn σ, J x (x.read Storage.firstIndex).2
  lastIndex : ∀ x : NodeTurn σ, J x (x.read Storage.lastIndex).2
  term : ∀ i (x : NodeTurn σ), J x (x.read (Storage.term i)).2
  snapshot : ∀ x : NodeTurn σ, J x (x.read Storage.snapshot).2
  entries : ∀ lo hi max (x : NodeTurn σ), J x (x.read (Storage.entries lo hi max)).2
  save : ∀ hs (x : NodeTurn σ), J x (x.write (Storage.saveHardState hs)).2
  append : ∀ {es}, writes es → ∀ x : NodeTurn σ, J x (x.write (Storage.appendEntries es)).2
  applySnapshot : ∀ snap (x : NodeTurn σ), J x (x.write (Storage.applySnapshot snap)).2
  heartbeat : ∀ peer prev prevTerm (x : NodeTurn σ), J x (x.sendAppend cfg peer prev prevTerm [])
  /-- entries are sent as they were read -/
  send : ∀ peer prev prevTerm {lo hi max es} {x y : NodeTurn σ},
    x.read (Storage.entries lo hi max) = (.ok es, y) →
      J x (y.sendAppend cfg peer prev prevTerm (es.map logEntryToProtoEntry))
  /-- entries are applied as they were read -/
  apply : ∀ {lo hi es} {x y : NodeTurn σ}, x.read (Storage.entries lo hi none) = (.ok es, y) →
    J x (es.foldl NodeTurn.applyOne y)
  notify : ∀ x : NodeTurn σ, J x x.notifyPending

namespace StepLaw

variable {cfg : RaftConfig} {writes : List LogEntry → Prop} {J : NodeTurn σ → NodeTurn σ → Prop}
  (hJ : StepLaw cfg writes J)

include hJ

/-- Saving is a write, and a count of it. -/
theorem saveHardState (x : NodeTurn σ) : J x x.saveHardState := by
  unfold NodeTurn.saveHardState
  exact hJ.next (hJ.save _ x) (hJ.modifyMetrics _ _)

/-- Stepping down changes the memory and saves. -/
theorem descend (term : ℕ) (leaderId : Option NodeId) (x : NodeTurn σ) :
    J x (x.descend term leaderId) := by
  unfold NodeTurn.descend
  split
  · exact hJ.next (hJ.modifySm _ x) (hJ.saveHardState _)
  · exact hJ.done x

/-- The last index is one read. -/
theorem lastIndexOr0 (x : NodeTurn σ) : J x x.lastIndexOr0.2 := hJ.lastIndex x

/-- A term is at most one read. -/
theorem termOr0 (i : ℕ) (x : NodeTurn σ) : J x (x.termOr0 i).2 := by
  unfold NodeTurn.termOr0
  split
  · exact hJ.term i x
  · exact hJ.done x

/-- The search for a term is made of reads. -/
theorem searchTerm (t fuel lo hi : ℕ) (x : NodeTurn σ) : J x (x.searchTerm t fuel lo hi).2 := by
  induction fuel generalizing lo hi x with
  | zero => exact hJ.done x
  | succ fuel ih =>
    unfold NodeTurn.searchTerm
    split
    · have hread := hJ.term (lo + (hi - lo) / 2) x
      dsimp only
      split
      · rename_i t' y heq
        rw [heq] at hread
        split
        · exact hJ.next hread (ih _ _ _)
        · exact hJ.next hread (ih _ _ _)
      · rename_i heq
        rw [heq] at hread
        exact hJ.next hread (ih _ _ _)
    · exact hJ.done x

/-- The first index of a term is found by reads. -/
theorem firstIndexOfTerm (t upper : ℕ) (x : NodeTurn σ) :
    J x (x.firstIndexOfTerm t upper).2 :=
  hJ.next (hJ.firstIndex x) (hJ.searchTerm _ _ _ _ _)

/-! ### Requests -/

/-- The check on the previous entry is made of reads. -/
theorem checkPrevLog (req : AppendEntriesRequest) (x : NodeTurn σ) :
    J x (x.checkPrevLog req).2 := by
  have hread := hJ.term req.prevLogIndex x
  unfold NodeTurn.checkPrevLog
  split
  · split
    · rename_i heq
      rw [heq] at hread
      exact hread
    · rename_i heq
      rw [heq] at hread
      exact hread
    · rename_i heq
      rw [heq] at hread
      split
      · exact hJ.next hread (hJ.firstIndexOfTerm _ _ _)
      · exact hread
  · exact hJ.done x

/-- A batch is the one it was sent as. -/
theorem appendBatch {req : AppendEntriesRequest}
    (hreq : writes (req.entries.map protoEntryToLogEntry)) (x : NodeTurn σ) :
    J x (x.appendBatch req).2 := by
  unfold NodeTurn.appendBatch
  split
  · exact hJ.done x
  · exact hJ.append hreq x

/-- A follower's commit index is read, set and saved. -/
theorem advanceCommit (req : AppendEntriesRequest) (x : NodeTurn σ) :
    J x (x.advanceCommit req) := by
  unfold NodeTurn.advanceCommit
  split
  · exact hJ.next (hJ.lastIndexOr0 x) (hJ.next (hJ.modifySm _ _) (hJ.saveHardState _))
  · exact hJ.done x

/-- A batch is checked, written and answered. -/
theorem handleAppendEntries {req : AppendEntriesRequest}
    (hreq : writes (req.entries.map protoEntryToLogEntry)) (x : NodeTurn σ) :
    J x (x.handleAppendEntries req) := by
  unfold NodeTurn.handleAppendEntries
  refine hJ.next ?_ (hJ.note (e := .replied _) trivial _)
  unfold NodeTurn.onAppendEntries
  dsimp only
  rw [← NodeTurn.descend]
  have hdown := hJ.descend req.term (some req.leaderId) x
  generalize x.descend req.term (some req.leaderId) = y at hdown
  split
  · exact hdown
  · have hcheck := hJ.next hdown (hJ.next (hJ.modifySm (fun sm =>
      { sm with leaderId := some req.leaderId }) y) (hJ.checkPrevLog req _))
    split
    · rename_i heq
      rw [heq] at hcheck
      exact hcheck
    · rename_i heq
      rw [heq] at hcheck
      have hbatch := hJ.next hcheck (hJ.appendBatch hreq _)
      split
      · rename_i heq'
        rw [heq'] at hbatch
        exact hbatch
      · rename_i heq'
        rw [heq'] at hbatch
        refine hJ.next hbatch ?_
        dsimp only
        exact hJ.next (hJ.advanceCommit req _) (hJ.modifyMetrics _ _)

/-- A vote is read for, saved and answered. -/
theorem handleRequestVote (req : RequestVoteRequest) (x : NodeTurn σ) :
    J x (x.handleRequestVote req) := by
  unfold NodeTurn.handleRequestVote
  refine hJ.next ?_ (hJ.note (e := .replied _) trivial _)
  unfold NodeTurn.onRequestVote
  dsimp only
  rw [← NodeTurn.descend]
  have hdown := hJ.descend req.term none x
  generalize x.descend req.term none = y at hdown
  split
  · exact hdown
  · split
    · exact hdown
    · have hreads := hJ.next hdown
        (hJ.next (hJ.lastIndexOr0 y) (hJ.termOr0 y.lastIndexOr0.1 _))
      split
      · refine hJ.next hreads ?_
        dsimp only
        exact hJ.next (hJ.modifySm _ _) (hJ.next (hJ.saveHardState _) (hJ.modifyMetrics _ _))
      · exact hreads

/-- A chunk is buffered, the last one is applied, and each is answered. -/
theorem handleInstallSnapshot (req : InstallSnapshotRequest) (x : NodeTurn σ) :
    J x (x.handleInstallSnapshot req) := by
  unfold NodeTurn.handleInstallSnapshot
  refine hJ.next ?_ (hJ.note (e := .replied _) trivial _)
  unfold NodeTurn.onInstallSnapshot
  dsimp only
  rw [← NodeTurn.descend]
  have hdown := hJ.descend req.term (some req.leaderId) x
  generalize x.descend req.term (some req.leaderId) = y at hdown
  split
  · exact hdown
  · split
    · generalize hwritten : (NodeTurn.write _ _ : Except RaftError Unit × NodeTurn σ) = written
      have hwrite : J x written.2 := by
        rw [← hwritten]
        exact hJ.next hdown (hJ.next (hJ.setSnapshotBuf _ y) (hJ.applySnapshot _ _))
      obtain ⟨result, z⟩ := written
      cases result with
      | error err => exact hwrite
      | ok _ =>
        refine hJ.next hwrite ?_
        dsimp only
        exact hJ.next (hJ.next (hJ.modifySm _ z) (hJ.setSnapshotBuf none _))
          (hJ.next (hJ.saveHardState _) (hJ.modifyMetrics _ _))
    · refine hJ.next hdown ?_
      dsimp only
      exact hJ.setSnapshotBuf _ y

/-! ### Replication -/

/-- A snapshot is read and sent. -/
theorem sendSnapshotTo (peer : NodeId) (x : NodeTurn σ) : J x (x.sendSnapshotTo cfg peer) := by
  have hread := hJ.snapshot x
  unfold NodeTurn.sendSnapshotTo
  split
  · rename_i heq
    rw [heq] at hread
    exact hJ.next hread (hJ.note (e := .spawned (.installSnapshot _ _ _)) trivial _)
  · rename_i heq
    rw [heq] at hread
    exact hread
  · rename_i heq
    rw [heq] at hread
    exact hread

/-- A peer is sent what was read for it, or a heartbeat, or a snapshot. -/
theorem replicateTo (peer : NodeId) (x : NodeTurn σ) : J x (x.replicateTo cfg peer) := by
  unfold NodeTurn.replicateTo
  split
  · exact hJ.done x
  · rename_i progress _
    have hpre : J x (x.termOr0 (u64Sub progress.nextIndex 1)).2.lastIndexOr0.2 :=
      hJ.next (hJ.termOr0 _ x) (hJ.lastIndexOr0 _)
    refine hJ.next hpre ?_
    dsimp only
    generalize (x.termOr0 (u64Sub progress.nextIndex 1)).2.lastIndexOr0 = last
    split
    · have hread := hJ.entries progress.nextIndex (last.1 + 1)
        (some (cfg.maxAppendEntries * 4096)) last.2
      split
      · rename_i heq
        exact hJ.send _ _ _ heq
      · rename_i heq
        rw [heq] at hread
        exact hJ.next hread (hJ.sendSnapshotTo peer _)
      · rename_i heq
        rw [heq] at hread
        exact hread
    · exact hJ.heartbeat _ _ _ _

/-- Every peer is sent its own. -/
theorem replicateAll (x : NodeTurn σ) : J x (x.replicateAll cfg) := by
  unfold NodeTurn.replicateAll
  split
  · exact hJ.done x
  · exact Turn.foldl_related hJ.done hJ.next _ _ (fun y peer _ => hJ.replicateTo peer y) x

/-! ### Elections -/

/-- A new leader announces itself and sends heartbeats. -/
theorem takeLeadership (x : NodeTurn σ) : J x (x.takeLeadership cfg) := by
  unfold NodeTurn.takeLeadership
  dsimp only
  have hlead : J x
      (x.lastIndexOr0.2.modifySm (.becomeLeader cfg.id x.lastIndexOr0.1 cfg.peers)) :=
    hJ.next (hJ.lastIndexOr0 x) (hJ.modifySm _ _)
  generalize x.lastIndexOr0.2.modifySm (.becomeLeader cfg.id x.lastIndexOr0.1 cfg.peers) = y
    at hlead
  have hshown := hJ.next hlead (hJ.note (e := .becameLeader y.sm.currentTerm) trivial y)
  exact hJ.next hshown (hJ.next (hJ.modifyMetrics _ _) (hJ.replicateAll _))

/-- A candidate saves its vote, announces itself and asks. -/
theorem startElection (x : NodeTurn σ) : J x (x.startElection cfg) := by
  unfold NodeTurn.startElection
  dsimp only
  have hsaved : J x (x.modifySm (.becomeCandidate cfg.id)).saveHardState :=
    hJ.next (hJ.modifySm _ x) (hJ.saveHardState _)
  generalize (x.modifySm (.becomeCandidate cfg.id)).saveHardState = y at hsaved
  have hreads := hJ.next hsaved (hJ.next (hJ.lastIndexOr0 y) (hJ.termOr0 y.lastIndexOr0.1 _))
  generalize y.lastIndexOr0.2.termOr0 y.lastIndexOr0.1 = r at hreads
  have hfan (req : RequestVoteRequest) : J x (cfg.peers.foldl
      (fun (z : NodeTurn σ) peer => z.effect (.spawned (.requestVote peer req)))
      ((r.2.effect (.electionStarted r.2.sm.currentTerm)).modifyMetrics
        fun m => { m with electionsStarted := m.electionsStarted + 1 })) := by
    have hshown := hJ.next hreads
      (hJ.note (e := .electionStarted r.2.sm.currentTerm) trivial r.2)
    have hcounted := hJ.next hshown (hJ.modifyMetrics (fun m =>
      { m with electionsStarted := m.electionsStarted + 1 }) _)
    refine hJ.next hcounted (Turn.foldl_related hJ.done hJ.next _ _ (fun z peer _ => ?_) _)
    exact hJ.note (e := .spawned (.requestVote peer req)) trivial z
  split
  · exact hJ.next (hfan _) (hJ.takeLeadership _)
  · exact hfan _

/-- A vote is counted, and may make a leader. -/
theorem handleVoteResponse (peer : NodeId) (resp : RequestVoteResponse) (x : NodeTurn σ) :
    J x (x.handleVoteResponse cfg peer resp) := by
  unfold NodeTurn.handleVoteResponse
  split
  · exact hJ.next (hJ.modifySm _ x) (hJ.saveHardState _)
  · split
    · dsimp only
      split
      · exact hJ.next (hJ.modifySm _ x) (hJ.takeLeadership _)
      · exact hJ.modifySm _ x
    · exact hJ.done x

/-! ### The commit step -/

/-- The scan for an index to commit is made of reads. -/
theorem commitScan (n : ℕ) (x : NodeTurn σ) : J x (x.commitScan cfg n).2 := by
  induction n generalizing x with
  | zero => exact hJ.done x
  | succ n ih =>
    unfold NodeTurn.commitScan
    split
    · dsimp only
      split
      · exact hJ.term _ x
      · exact hJ.next (hJ.term _ x) (ih _)
    · exact hJ.done x

/-- The commit step scans, saves and notifies. -/
theorem maybeAdvanceCommit (x : NodeTurn σ) : J x (x.maybeAdvanceCommit cfg) := by
  unfold NodeTurn.maybeAdvanceCommit
  split
  · exact hJ.done x
  · have hscan : J x (x.lastIndexOr0.2.commitScan cfg x.lastIndexOr0.1).2 :=
      hJ.next (hJ.lastIndexOr0 x) (hJ.commitScan _ _)
    refine hJ.next hscan ?_
    dsimp only
    split
    · exact hJ.next (hJ.modifySm _ _) (hJ.next (hJ.saveHardState _)
        (hJ.next (hJ.modifyMetrics _ _) (hJ.notify _)))
    · exact hJ.notify _

/-- A response moves the progress, and then the commit index. -/
theorem handleResponse (peer : NodeId) (f : Progress → Progress) (term : ℕ) (x : NodeTurn σ) :
    J x (x.handleResponse cfg peer f term) := by
  obtain heq | ⟨-, -, heq⟩ := NodeTurn.handleResponse_cases cfg peer f term x
  · rw [heq]
    exact hJ.descend _ _ x
  · rw [heq]
    exact hJ.next (hJ.modifySm _ x) (hJ.maybeAdvanceCommit _)

/-- What is applied was read in one piece. -/
theorem applyCommitted (x : NodeTurn σ) : J x x.applyCommitted := by
  unfold NodeTurn.applyCommitted
  dsimp only
  split
  · exact hJ.done x
  · have hread := hJ.entries (x.sm.lastApplied + 1) (x.sm.commitIndex + 1) none x
    split
    · rename_i heq
      exact hJ.apply heq
    · rename_i heq
      rw [heq] at hread
      exact hread

/-- The timer starts an election, or replicates, commits and applies. -/
theorem timerBranch (electionDue heartbeatDue : Bool) (x : NodeTurn σ) :
    J x (x.timerBranch cfg electionDue heartbeatDue) := by
  unfold NodeTurn.timerBranch
  split
  · exact hJ.startElection x
  · split
    · exact hJ.next (hJ.replicateAll x) (hJ.next (hJ.maybeAdvanceCommit _) (hJ.applyCommitted _))
    · exact hJ.done x

/-- Every turn that no call starts. -/
theorem run {input : Input}
    (hreq : ∀ req, input = .appendEntries req → writes (req.entries.map protoEntryToLogEntry))
    (hmsg : ∀ msg, input = .message msg → msg.silent) (x : NodeTurn σ) :
    J x (NodeTurn.run cfg input x) := by
  cases input with
  | appendEntries req => exact hJ.handleAppendEntries (hreq req rfl) x
  | requestVote req => exact hJ.handleRequestVote req x
  | installSnapshot req => exact hJ.handleInstallSnapshot req x
  | timer electionDue heartbeatDue => exact hJ.timerBranch electionDue heartbeatDue x
  | message msg =>
    have hsilent := hmsg msg rfl
    cases msg with
    | voteResponse peer resp => exact hJ.handleVoteResponse peer resp x
    | appendResponse peer last resp => exact hJ.handleResponse peer _ _ x
    | snapshotResponse peer last resp => exact hJ.handleResponse peer _ _ x
    | transferLeader _ => exact hJ.done x
    | triggerSnapshot _ => exact hJ.done x
    | shutdown => exact hJ.done x
    | propose _ => exact hsilent.elim
    | readIndex _ => exact hsilent.elim
    | getLeader _ => exact hsilent.elim
    | getTerm _ => exact hsilent.elim

end StepLaw

end IceRaft
