import IceRaft.Analysis.MemLog
import IceRaft.Analysis.MirroredTurns
import IceRaft.Model.Words

/-!
# The log on machine words

Where the first index is a `u64`, a turn over `WordStorage` shows what the turn over the
`MemStorage` below does; where the index behind an aligned log is one too, so do its reads.
What is proved over the naturals is carried over by these two facts.
-/

set_option autoImplicit false

namespace IceRaft

open MemStorage

namespace WordStorage

variable {s : WordStorage}

/-- The sum that `first_index` computes is in range. -/
def InRange (s : WordStorage) : Prop := s.mem.firstIndex ≤ u64Max

/-- The log is aligned, and the sum `last_index + 1` is in range. -/
structure Fits (s : WordStorage) : Prop where
  aligned : s.mem.Aligned
  last : s.lastIndex < u64Max

instance (s : WordStorage) : Decidable s.InRange := inferInstanceAs (Decidable (_ ≤ _))

/-- The index behind an aligned log is no lower than the first. -/
theorem Fits.inRange (h : s.Fits) : s.InRange := by
  have hend := h.aligned.lastIndex_succ
  have hlast : s.mem.lastIndex < u64Max := h.last
  unfold InRange
  omega

/-- The first index is a `u64` in any case. -/
theorem firstIndex_le (s : WordStorage) : s.firstIndex ≤ u64Max := by
  unfold firstIndex
  split
  · exact toU64_le _
  · decide

/-- In range the log begins where it does in the naturals. -/
theorem InRange.firstIndex_eq (h : s.InRange) : s.firstIndex = s.mem.firstIndex := by
  unfold InRange MemStorage.firstIndex at h
  unfold firstIndex MemStorage.firstIndex
  cases hs : s.mem.snapshot with
  | none => rfl
  | some snap =>
    rw [hs] at h
    exact u64Add_of_le h

/-- In range the terms are the same. -/
theorem InRange.term_eq (h : s.InRange) (i : ℕ) : s.term i = s.mem.term i := by
  have hfirst := h.firstIndex_eq
  have hlog : s.termInLog i = s.mem.termInLog i := by
    unfold termInLog
    generalize s.firstIndex = first at hfirst ⊢
    subst hfirst
    rfl
  unfold term MemStorage.term
  rw [hlog]
  cases hs : s.mem.snapshot with
  | none => rfl
  | some snap =>
    have hsum : u64Add snap.metadata.lastIncludedIndex 1 = snap.metadata.lastIncludedIndex + 1 := by
      rw [← firstIndex_of_some hs, ← hfirst]
      unfold firstIndex
      rw [hs]
    dsimp only
    rw [hsum]

/-- In range a batch does the same. -/
theorem InRange.appendEntries_eq (h : s.InRange) (batch : List LogEntry) :
    s.appendEntries batch = ⟨s.mem.appendEntries batch⟩ := by
  cases batch with
  | nil => rfl
  | cons head rest =>
    have hfirst := h.firstIndex_eq
    unfold appendEntries
    dsimp only
    generalize s.firstIndex = first at hfirst ⊢
    subst hfirst
    rfl

/-- A snapshot within the words does the same. -/
theorem InRange.applySnapshot_eq (h : s.InRange) {snap : Snapshot}
    (hsnap : snap.metadata.lastIncludedIndex ≤ u64Max) :
    s.applySnapshot snap = ⟨s.mem.applySnapshot snap⟩ := by
  have hone := s.mem.one_le_firstIndex
  unfold applySnapshot MemStorage.applySnapshot
  dsimp only
  rw [h.firstIndex_eq]
  split
  · rw [u64Add_of_le (by omega)]
  · rfl

/-- An append keeps the first index. -/
theorem appendEntries_snapshot (s : WordStorage) (batch : List LogEntry) :
    (s.appendEntries batch).mem.snapshot = s.mem.snapshot := by
  cases batch <;> rfl

/-- A batch stays in range. -/
theorem InRange.append (h : s.InRange) (batch : List LogEntry) :
    (s.appendEntries batch).InRange := by
  unfold InRange MemStorage.firstIndex at h ⊢
  rw [appendEntries_snapshot]
  exact h

/-- In an aligned log with room behind it every read of a range is that of the naturals. -/
theorem Fits.readEntries_eq (h : s.Fits) (lo hi : ℕ) (max : Option ℕ) :
    s.readEntries lo hi max = s.mem.readEntries lo hi max := by
  have hend := h.aligned.lastIndex_succ
  have hlast : s.mem.lastIndex < u64Max := h.last
  unfold readEntries MemStorage.readEntries
  dsimp only
  rw [h.inRange.firstIndex_eq, show s.lastIndex = s.mem.lastIndex from rfl,
    u64Add_of_le (Nat.succ_le_of_lt hlast)]
  split
  · rfl
  · split
    · rfl
    · split
      · rfl
      · refine (if_neg (by omega)).trans ?_
        have hlen : hi - s.mem.firstIndex - (lo - s.mem.firstIndex) = hi - lo := by omega
        generalize hi - s.mem.firstIndex - (lo - s.mem.firstIndex) = k at hlen ⊢
        subst hlen
        rfl

/-- Reading leaves the storage as it is. -/
instance : PureReads WordStorage where
  lastIndex_stable _ := rfl
  term_stable _ _ := rfl
  entries_stable _ _ _ _ := rfl
  snapshot_stable _ := rfl

/-- A turn over `WordStorage` is beside one over the `MemStorage` below. -/
theorem callsAlike : CallsAlike WordStorage.mem InRange where
  save _ _ h := ⟨rfl, rfl, h⟩
  firstIndex _ h := ⟨congrArg Except.ok h.firstIndex_eq.symm, rfl, h⟩
  lastIndex _ h := ⟨rfl, rfl, h⟩
  term i _ h := ⟨(h.term_eq i).symm, rfl, h⟩
  append es _ h := ⟨rfl, (congrArg WordStorage.mem (h.appendEntries_eq es)).symm, h.append es⟩
  snapshot _ h := ⟨rfl, rfl, h⟩

end WordStorage

/-! ## Turns -/

/-- A node over machine words, seen over the naturals. -/
abbrev RaftNodeInner.toMem (n : RaftNodeInner WordStorage) : RaftNodeInner MemStorage :=
  n.mapStorage WordStorage.mem

namespace NodeTurn

open WordStorage

variable {n : RaftNodeInner WordStorage}

/-- An AppendEntries request over machine words. -/
theorem onAppendEntries_toMem (h : n.storage.InRange) (req : AppendEntriesRequest) :
    BesideWith WordStorage.mem InRange (onAppendEntries req (Turn.start n))
      (onAppendEntries req (Turn.start n.toMem)) :=
  Beside.onAppendEntries callsAlike (Beside.start h) req

/-- A snapshot over machine words, when nothing is buffered. -/
theorem onInstallSnapshot_toMem (h : n.storage.InRange) (hbuf : n.snapshotBuf = none)
    {req : InstallSnapshotRequest} (hindex : req.lastIncludedIndex ≤ u64Max) :
    BesideWith WordStorage.mem (fun _ => True) (onInstallSnapshot req (Turn.start n))
      (onInstallSnapshot req (Turn.start n.toMem)) := by
  have hsave : SavesAlike WordStorage.mem fun _ => True := fun _ _ _ => ⟨rfl, rfl, trivial⟩
  refine (Beside.start h).onInstallSnapshot callsAlike.save hsave (fun _ _ => trivial) req ?_
  intro snap s hs hsnap
  have hle : snap.metadata.lastIncludedIndex ≤ u64Max := by
    rw [hsnap, show (Turn.start n : NodeTurn WordStorage).node.snapshotBuf = none from hbuf]
    exact hindex
  exact ⟨rfl, (congrArg WordStorage.mem (hs.applySnapshot_eq hle)).symm, trivial⟩

/-- To send a snapshot is to send what is stored. -/
theorem sendSnapshotTo_words (cfg : RaftConfig) (peer : NodeId) (n : RaftNodeInner WordStorage) :
    sendSnapshotTo cfg peer (Turn.start n) =
      match n.storage.mem.snapshot with
      | some snap => NodeTurn.effect (.spawned (.installSnapshot peer
          snap.metadata.lastIncludedIndex ⟨n.sm.currentTerm, cfg.id,
            snap.metadata.lastIncludedIndex, snap.metadata.lastIncludedTerm, 0, snap.data, true⟩))
          (Turn.start n)
      | none => Turn.start n := by
  unfold sendSnapshotTo
  rw [show NodeTurn.read Storage.snapshot (Turn.start n) =
    (.ok n.storage.mem.snapshot, Turn.start n) from rfl]
  cases n.storage.mem.snapshot with
  | none => rfl
  | some snap => rfl

/-- What `replicate_to` does over machine words, with the end of the range wrapped around. -/
theorem replicateTo_words (cfg : RaftConfig) {peer : NodeId} {pr : Progress}
    (hpr : n.sm.progress.lookup peer = some pr) :
    replicateTo cfg peer (Turn.start n) =
      if pr.nextIndex ≤ n.storage.lastIndex then
        match n.storage.readEntries pr.nextIndex (u64Add n.storage.lastIndex 1)
            (some (toU64 (cfg.maxAppendEntries * 4096))) with
        | .ok es => sendAppend cfg peer (u64Sub pr.nextIndex 1)
            (termOr0 (u64Sub pr.nextIndex 1) (Turn.start n)).1 (es.map logEntryToProtoEntry)
            (Turn.start n)
        | .error (.logCompacted _ _) => sendSnapshotTo cfg peer (Turn.start n)
        | .error _ => Turn.start n
      else sendAppend cfg peer (u64Sub pr.nextIndex 1)
        (termOr0 (u64Sub pr.nextIndex 1) (Turn.start n)).1 [] (Turn.start n) := by
  unfold replicateTo
  rw [show NodeTurn.sm (Turn.start n) = n.sm from rfl, hpr]
  dsimp only
  rw [termOr0_pure, show NodeTurn.lastIndexOr0 (Turn.start n) =
    (n.storage.lastIndex, Turn.start n) from rfl]
  dsimp only
  split
  · rw [show NodeTurn.read (Storage.entries pr.nextIndex (n.storage.lastIndex + 1)
      (some (cfg.maxAppendEntries * 4096))) (Turn.start n) =
        (n.storage.readEntries pr.nextIndex (u64Add n.storage.lastIndex 1)
          (some (toU64 (cfg.maxAppendEntries * 4096))), Turn.start n) from rfl]
    cases n.storage.readEntries pr.nextIndex (u64Add n.storage.lastIndex 1)
        (some (toU64 (cfg.maxAppendEntries * 4096))) with
    | ok es => rfl
    | error e => cases e <;> rfl
  · rfl

/-- What a leader sends over machine words, when its log leaves room. -/
theorem replicateTo_toMem (h : n.storage.Fits) (cfg : RaftConfig) (peer : NodeId)
    (hcap : cfg.maxAppendEntries * 4096 ≤ u64Max) :
    Beside WordStorage.mem InRange (replicateTo cfg peer (Turn.start n))
      (replicateTo cfg peer (Turn.start n.toMem)) := by
  refine (Beside.start h.inRange).replicateTo callsAlike cfg peer ?_
  intro pr _ hle
  have hlast : n.storage.mem.lastIndex < u64Max := h.last
  have hnext : pr.nextIndex ≤ n.storage.mem.lastIndex := hle
  have hread : n.storage.readEntries pr.nextIndex (toU64 (n.storage.mem.lastIndex + 1))
      (some (toU64 (cfg.maxAppendEntries * 4096))) = n.storage.mem.readEntries pr.nextIndex
        (n.storage.mem.lastIndex + 1) (some (cfg.maxAppendEntries * 4096)) := by
    rw [toU64_of_le (by omega), toU64_of_le hcap, h.readEntries_eq]
  exact ⟨hread.symm, rfl, h.inRange⟩

end NodeTurn

end IceRaft
