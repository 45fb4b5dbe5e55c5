import IceRaft.Lib.Turn
import IceRaft.Interface.StorageContract
import IceRaft.Model.EventLoop

/-!
# Turns over a storage with pure reads

Where reading leaves the storage as it is, the parts of a turn that only read and send leave
the node as it is.
-/

set_option autoImplicit false

namespace IceRaft

variable {σ : Type} [Storage σ]

namespace NodeTurn

omit [Storage σ] in
/-- A read that leaves the disk alone leaves the turn alone. -/
theorem read_stable {α : Type} {op : σ → Except RaftError α × σ} {x : NodeTurn σ}
    (h : (op x.node.storage).2 = x.node.storage) : x.read op = ((op x.node.storage).1, x) := by
  unfold read
  rw [h]
  rfl

section Stable

variable [StableReads σ]

/-- A term is read without a trace. -/
theorem termOr0_pure (i : ℕ) (x : NodeTurn σ) : (x.termOr0 i).2 = x := by
  unfold termOr0
  split
  · rw [read_stable (StableReads.term_stable i _)]
  · rfl

/-- So is the last index. -/
theorem lastIndexOr0_pure (x : NodeTurn σ) : x.lastIndexOr0.2 = x := by
  unfold lastIndexOr0
  rw [read_stable (StableReads.lastIndex_stable _)]

/-- So is what the scan for an index to commit looks at. -/
theorem commitScan_pure (cfg : RaftConfig) (n : ℕ) (x : NodeTurn σ) :
    (x.commitScan cfg n).2 = x := by
  induction n with
  | zero => rfl
  | succ n ih =>
    unfold commitScan
    rw [read_stable (StableReads.term_stable _ _)]
    dsimp only
    split
    · split
      · rfl
      · exact ih
    · rfl

end Stable

variable [PureReads σ] {cfg : RaftConfig}

/-- To send a snapshot changes nothing at the sender. -/
theorem sendSnapshotTo_node (peer : NodeId) (x : NodeTurn σ) :
    (x.sendSnapshotTo cfg peer).node = x.node := by
  unfold sendSnapshotTo
  rw [read_stable (PureReads.snapshot_stable _)]
  generalize (Storage.snapshot x.node.storage).1 = result
  cases result with
  | error e => rfl
  | ok snap =>
    cases snap with
    | none => rfl
    | some snap => rfl

/-- To replicate to a peer changes nothing at the sender. -/
theorem replicateTo_node (peer : NodeId) (x : NodeTurn σ) :
    (x.replicateTo cfg peer).node = x.node := by
  unfold replicateTo
  split
  · rfl
  · dsimp only
    rw [termOr0_pure, lastIndexOr0_pure]
    split
    · rw [read_stable (PureReads.entries_stable _ _ _ _)]
      generalize (Storage.entries _ _ _ x.node.storage).1 = result
      cases result with
      | ok es => rfl
      | error e =>
        cases e with
        | logCompacted r f => exact sendSnapshotTo_node peer x
        | _ => rfl
    · rfl

/-- Replication only sends. -/
theorem replicateAll_node (cfg : RaftConfig) (x : NodeTurn σ) :
    (x.replicateAll cfg).node = x.node := by
  unfold replicateAll
  split
  · rfl
  · exact Turn.foldl_keeps Turn.node (fun y peer => replicateTo_node peer y) cfg.peers x

end NodeTurn

end IceRaft
