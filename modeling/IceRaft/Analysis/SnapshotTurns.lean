import IceRaft.Analysis.VoteFrame

/-!
# What a chunk of a snapshot does to a node

`on_install_snapshot` over any storage: a chunk of an earlier term is refused, any other
is added to the buffer.  The last chunk hands the buffer to `apply_snapshot`; when that
fails, the handler leaves with the buffer as it is by then.
-/

set_option autoImplicit false

namespace IceRaft

/-- The snapshot a chunk carries when it is the only one. -/
def InstallSnapshotRequest.snapshot (req : InstallSnapshotRequest) : Snapshot :=
  ⟨req.data, ⟨req.lastIncludedIndex, req.lastIncludedTerm, []⟩⟩

namespace RaftNodeInner

variable {σ : Type}

/-- The buffer a chunk is added to: the one at hand, or a new one with the index and the
term of the chunk. -/
def bufferFor (req : InstallSnapshotRequest) (n : RaftNodeInner σ) : SnapshotMetadata × Bytes :=
  n.snapshotBuf.getD (⟨req.lastIncludedIndex, req.lastIncludedTerm, []⟩, [])

/-- The buffer with the chunk. -/
def extendedBuffer (req : InstallSnapshotRequest) (n : RaftNodeInner σ) :
    SnapshotMetadata × Bytes :=
  ((n.bufferFor req).1, (n.bufferFor req).2 ++ req.data)

/-- The snapshot a last chunk hands to `apply_snapshot`. -/
def assembled (req : InstallSnapshotRequest) (n : RaftNodeInner σ) : Snapshot where
  data := (n.extendedBuffer req).2
  metadata :=
    { lastIncludedIndex := (n.bufferFor req).1.index
      lastIncludedTerm := (n.bufferFor req).1.term
      confNodes := (n.bufferFor req).1.confNodes }

/-- With nothing buffered it is the snapshot of the chunk. -/
theorem assembled_of_none {req : InstallSnapshotRequest} {n : RaftNodeInner σ}
    (h : n.snapshotBuf = none) : n.assembled req = req.snapshot := by
  unfold assembled extendedBuffer bufferFor
  rw [h]
  rfl

end RaftNodeInner

namespace NodeTurn

variable {σ : Type} [Storage σ] {req : InstallSnapshotRequest} {x : NodeTurn σ}

/-- The turn behind the check on the term. -/
def recogniseSnapshot (req : InstallSnapshotRequest) (x : NodeTurn σ) : NodeTurn σ :=
  x.descend req.term (some req.leaderId)

/-- Behind the check the term is that of the request. -/
theorem recogniseSnapshot_term (hterm : x.sm.currentTerm ≤ req.term) :
    (x.recogniseSnapshot req).sm.currentTerm = req.term := by
  unfold recogniseSnapshot
  rw [descend_term, Nat.max_eq_right hterm]

/-- A step down leaves buffer and indices alone. -/
theorem recogniseSnapshot_kept (req : InstallSnapshotRequest) (x : NodeTurn σ) :
    (x.recogniseSnapshot req).node.snapshotBuf = x.node.snapshotBuf ∧
      (x.recogniseSnapshot req).sm.commitIndex = x.sm.commitIndex ∧
      (x.recogniseSnapshot req).sm.lastApplied = x.sm.lastApplied := by
  unfold recogniseSnapshot descend
  split
  · exact ⟨rfl, rfl, rfl⟩
  · exact ⟨rfl, rfl, rfl⟩

/-- The chunks so far are as they were. -/
theorem recogniseSnapshot_buffer (req : InstallSnapshotRequest) (x : NodeTurn σ) :
    (x.recogniseSnapshot req).node.extendedBuffer req = x.node.extendedBuffer req ∧
      (x.recogniseSnapshot req).node.assembled req = x.node.assembled req := by
  unfold RaftNodeInner.assembled RaftNodeInner.extendedBuffer RaftNodeInner.bufferFor
  rw [(recogniseSnapshot_kept req x).1]
  exact ⟨rfl, rfl⟩

/-- What the last chunk asks of the storage. -/
abbrev applyOutcome (req : InstallSnapshotRequest) (x : NodeTurn σ) : Except RaftError Unit × σ :=
  Storage.applySnapshot (x.node.assembled req) (x.recogniseSnapshot req).node.storage

/-- A chunk that is not the last one is buffered. -/
theorem onInstallSnapshot_buffered (hterm : x.sm.currentTerm ≤ req.term)
    (hdone : req.done = false) : (x.onInstallSnapshot req).1 = .ok ⟨req.term⟩ ∧
      (x.onInstallSnapshot req).2.node = { (x.recogniseSnapshot req).node with
        snapshotBuf := some (x.node.extendedBuffer req) } := by
  have hy := recogniseSnapshot_term hterm
  obtain ⟨hbuf, -⟩ := recogniseSnapshot_buffer req x
  unfold onInstallSnapshot
  dsimp only
  rw [← descend, ← recogniseSnapshot, ← hbuf]
  generalize x.recogniseSnapshot req = y at hy
  rw [if_neg (Nat.not_lt.mpr (Nat.le_of_eq hy)), if_neg (by rw [hdone]; exact Bool.false_ne_true)]
  exact ⟨congrArg Except.ok (congrArg InstallSnapshotResponse.mk hy), rfl⟩

/-- The turn after the call of `apply_snapshot`. -/
def handSnapshot (req : InstallSnapshotRequest) (x : NodeTurn σ) : NodeTurn σ :=
  ((x.recogniseSnapshot req).update fun n => { n with
    storage := (x.applyOutcome req).2
    snapshotBuf := some (x.node.extendedBuffer req) }).effect .wrote

/-- A last chunk is handed to the storage, whose answer decides. -/
theorem onInstallSnapshot_last (hterm : x.sm.currentTerm ≤ req.term) (hdone : req.done = true) :
    x.onInstallSnapshot req = match (x.applyOutcome req).1 with
      | .error e => (.error e, x.handSnapshot req)
      | .ok () => (.ok ⟨req.term⟩, (((x.handSnapshot req).modifySm fun sm =>
          { sm with
            commitIndex := max sm.commitIndex req.lastIncludedIndex,
            lastApplied := max sm.lastApplied req.lastIncludedIndex }).update
          fun n => { n with snapshotBuf := none }).saveHardState.modifyMetrics
          fun m => { m with snapshotsInstalled := m.snapshotsInstalled + 1 }) := by
  have hy := recogniseSnapshot_term hterm
  obtain ⟨hbuf, hsnap⟩ := recogniseSnapshot_buffer req x
  unfold onInstallSnapshot handSnapshot applyOutcome
  dsimp only
  rw [← descend, ← recogniseSnapshot, ← hbuf, ← hsnap]
  generalize x.recogniseSnapshot req = y at hy
  rw [if_neg (Nat.not_lt.mpr (Nat.le_of_eq hy)), if_pos hdone, ← hy]
  generalize hw : (NodeTurn.write _ _ : Except RaftError Unit × NodeTurn σ) = w
  have hresult : w.1 = (Storage.applySnapshot (y.node.assembled req) y.node.storage).1 := by
    rw [← hw]
    rfl
  have hturn : w.2 = (y.update fun n => { n with
      storage := (Storage.applySnapshot (y.node.assembled req) y.node.storage).2
      snapshotBuf := some (y.node.extendedBuffer req) }).effect .wrote := by
    rw [← hw]
    rfl
  rw [← hresult, ← hturn]
  obtain ⟨result, z⟩ := w
  have hz : z.sm.currentTerm = y.sm.currentTerm := by
    obtain rfl := hturn
    rfl
  cases result with
  | error e => rfl
  | ok u =>
    rw [← hz]
    rfl

/-- A last chunk whose snapshot the storage does not take stays in the buffer. -/
theorem onInstallSnapshot_failed (hterm : x.sm.currentTerm ≤ req.term) (hdone : req.done = true)
    {e : RaftError} (hfail : (x.applyOutcome req).1 = .error e) :
    (x.onInstallSnapshot req).1 = .error e ∧
      (x.onInstallSnapshot req).2.node = { (x.recogniseSnapshot req).node with
        storage := (x.applyOutcome req).2
        snapshotBuf := some (x.node.extendedBuffer req) } := by
  rw [onInstallSnapshot_last hterm hdone, hfail]
  exact ⟨rfl, rfl⟩

/-- A last chunk whose snapshot the storage takes raises the indices and empties the buffer. -/
theorem onInstallSnapshot_installed (hterm : x.sm.currentTerm ≤ req.term) (hdone : req.done = true)
    (hok : (x.applyOutcome req).1 = .ok ()) :
    (x.onInstallSnapshot req).1 = .ok ⟨req.term⟩ ∧
      (x.onInstallSnapshot req).2.sm = { (x.recogniseSnapshot req).sm with
        commitIndex := max x.sm.commitIndex req.lastIncludedIndex
        lastApplied := max x.sm.lastApplied req.lastIncludedIndex } ∧
      (x.onInstallSnapshot req).2.node.snapshotBuf = none ∧
      (x.onInstallSnapshot req).2.node.storage =
        (Storage.saveHardState (x.onInstallSnapshot req).2.node.hardState
          (x.applyOutcome req).2).2 := by
  obtain ⟨-, hcommit, happlied⟩ := recogniseSnapshot_kept req x
  rw [onInstallSnapshot_last hterm hdone, hok, ← hcommit, ← happlied]
  exact ⟨rfl, rfl, rfl, rfl⟩

end NodeTurn

end IceRaft
