import IceRaft.Analysis.PersistBeforeReply
import IceRaft.Analysis.Truncation

/-!
# Batches below the compacted prefix

A log that was compacted is addressed by positions that the present snapshot defines.
`on_append_entries` lets a batch through that starts below them, and the storage puts it
behind the log; its entries are at the wrong positions then.
-/

set_option autoImplicit false

namespace IceRaft

open MemStorage Cluster NodeTurn

/-! ## A batch that starts below the log -/

/-- The batch of the request reaches the subtraction `incoming_first - first` of
`append_entries`, and it underflows.  The other subtractions on the way stand behind a
comparison of their operands.
SRCLINE: iceraft-storage/src/mem.rs:117-124 -/
def SubtractionUnderflows (n : RaftNodeInner MemStorage) (req : AppendEntriesRequest) : Prop :=
  Accepts n req = true ∧
    ∃ head ∈ req.batch.head?, head.index ≤ n.storage.lastIndex ∧ head.index < n.storage.firstIndex

/-- A request whose previous entry is compacted passes the check. -/
theorem accepts_of_compacted {n : RaftNodeInner MemStorage} {req : AppendEntriesRequest}
    (hterm : n.sm.currentTerm ≤ req.term) (hbelow : req.prevLogIndex + 1 < n.storage.firstIndex) :
    Accepts n req = true := by
  refine (accepts_iff n req).mpr ⟨hterm, ?_⟩
  rcases Nat.eq_zero_or_pos req.prevLogIndex with h0 | hpos
  · exact .inl h0
  · exact .inr (.inr ⟨_, _, term_compacted hpos hbelow⟩)

/-- **A batch below the compacted prefix.**  A request of the current term whose previous
index is below that of the snapshot is handled without underflow, leaving an aligned log that
reaches the snapshot, exactly when it carries no entries.
SRCLINE: iceraft-node/src/node.rs:327-352, iceraft-storage/src/mem.rs:113-131 -/
theorem compacted_overlap_iff (n : RaftNodeInner MemStorage) (snap : Snapshot)
    (req : AppendEntriesRequest) (halign : n.storage.Aligned)
    (hsnap : n.storage.snapshot = some snap) (hterm : req.term = n.sm.currentTerm)
    (hcons : Consecutive (req.prevLogIndex + 1) req.batch)
    (hbelow : req.prevLogIndex < snap.metadata.lastIncludedIndex) :
    (¬ SubtractionUnderflows n req ∧
      (onAppendEntries req (Turn.start n)).2.node.storage.Aligned ∧
      snap.metadata.lastIncludedIndex ≤
        (onAppendEntries req (Turn.start n)).2.node.storage.lastIndex) ↔ req.entries = [] := by
  have hfirst := firstIndex_of_some hsnap
  have hlast := halign.lastIndex_succ
  have haccepts : Accepts n req = true := accepts_of_compacted hterm.ge (by omega)
  constructor
  · rintro ⟨hno, -⟩
    by_contra hne
    obtain ⟨head, rest, hbatch, hhead, -⟩ := hcons.cons (List.map_eq_nil_iff.not.mpr hne)
    refine hno ⟨haccepts, head, ?_, by omega, by omega⟩
    rw [hbatch]
    rfl
  · intro hnil
    obtain ⟨-, hnode⟩ := onAppendEntries_accepted (x := Turn.start n) haccepts
    have hsame : (onAppendEntries req (Turn.start n)).2.node.storage = { n.storage with
        hardState := (onAppendEntries req (Turn.start n)).2.node.storage.hardState } := by
      refine eq_of_log ?_ hnode.snapshot
      rw [hnode.entries, hnil]
      rfl
    refine ⟨?_, ?_, ?_⟩
    · rintro ⟨-, head, hhead, -⟩
      rw [AppendEntriesRequest.batch, hnil] at hhead
      cases hhead
    · rw [hsame]
      exact halign
    · rw [hsame]
      show _ ≤ n.storage.lastIndex
      omega

/-- A follower compacted behind a snapshot at index 5, with entry 6. -/
def compactedFollower : RaftNodeInner MemStorage where
  sm := { currentTerm := 1 }
  storage := { entries := [⟨1, 6, [], .normal⟩], snapshot := some ⟨[], ⟨5, 1, []⟩⟩ }
  metrics := {}
  pending := []
  snapshotBuf := none

/-- Entries 3 and 4, behind the compacted entry 2. -/
def lateOverlap : AppendEntriesRequest :=
  ⟨1, 1, 2, 1, [⟨1, 3, [], entryNormal⟩, ⟨1, 4, [], entryNormal⟩], 0⟩

/-- Below its snapshot an empty batch does the follower no harm, and the late one does. -/
theorem compacted_overlap_iff_compactedFollower :
    ((¬ SubtractionUnderflows compactedFollower ⟨1, 1, 2, 1, [], 0⟩ ∧
      (onAppendEntries ⟨1, 1, 2, 1, [], 0⟩ (Turn.start compactedFollower)).2.node.storage.Aligned ∧
      5 ≤ (onAppendEntries ⟨1, 1, 2, 1, [], 0⟩
        (Turn.start compactedFollower)).2.node.storage.lastIndex) ↔ ([] : List ProtoEntry) = []) ∧
    ((¬ SubtractionUnderflows compactedFollower lateOverlap ∧
      (onAppendEntries lateOverlap (Turn.start compactedFollower)).2.node.storage.Aligned ∧
      5 ≤ (onAppendEntries lateOverlap
        (Turn.start compactedFollower)).2.node.storage.lastIndex) ↔ lateOverlap.entries = []) :=
  ⟨compacted_overlap_iff compactedFollower ⟨[], ⟨5, 1, []⟩⟩ ⟨1, 1, 2, 1, [], 0⟩
      (by unfold Aligned; decide +kernel) rfl rfl (by decide) (by decide),
    compacted_overlap_iff compactedFollower ⟨[], ⟨5, 1, []⟩⟩ lateOverlap
      (by unfold Aligned; decide +kernel) rfl rfl (by decide +kernel) (by decide)⟩

/-- They arrive late: the subtraction underflows, the two stand behind entry 6, and the last
index falls below the snapshot's. -/
theorem late_overlap_underflows :
    compactedFollower.storage.Aligned ∧ Consecutive 3 lateOverlap.batch ∧
      SubtractionUnderflows compactedFollower lateOverlap ∧
      (onAppendEntries lateOverlap (Turn.start compactedFollower)).2.node.storage.entries.map
        LogEntry.index = [6, 3, 4] ∧
      ¬ (onAppendEntries lateOverlap (Turn.start compactedFollower)).2.node.storage.Aligned ∧
      (onAppendEntries lateOverlap (Turn.start compactedFollower)).2.node.storage.lastIndex <
        5 := by
  refine ⟨?_, by decide +kernel, ⟨by decide +kernel, _, rfl, ?_⟩, by decide +kernel, ?_, ?_⟩
  · unfold Aligned
    decide +kernel
  · decide +kernel
  · unfold Aligned
    decide +kernel
  · decide +kernel

end IceRaft
