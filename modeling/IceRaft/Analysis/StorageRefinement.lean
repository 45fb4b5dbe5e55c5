import IceRaft.Analysis.MemLog
import IceRaft.Interface.Conditions
import IceRaft.Lib.IndexedLog
import IceRaft.Lib.Runs

/-!
# `MemStorage` is an indexed log

The offset arithmetic of `MemStorage` computes positions from the snapshot boundary.  On
batches and snapshots that fit, each operation is the one of an indexed log, and each
read returns what the log holds there, or the error that says why it holds nothing.
-/

set_option autoImplicit false

namespace IceRaft

open Cluster MemStorage

/-- The operations that change a storage. -/
inductive StorageOp
  | saveHardState (hs : HardState)
  | appendEntries (batch : List LogEntry)
  | applySnapshot (snap : Snapshot)

namespace StorageOp

/-- What an operation does to a `MemStorage`. -/
def apply (s : MemStorage) : StorageOp → MemStorage
  | .saveHardState hs => (Storage.saveHardState hs s).2
  | .appendEntries batch => (Storage.appendEntries batch s).2
  | .applySnapshot snap => (Storage.applySnapshot snap s).2

/-- A batch has consecutive indices and starts within the log or right behind it; a
snapshot does not end before the present one. -/
def Admissible (s : MemStorage) : StorageOp → Prop
  | .saveHardState _ => True
  | .appendEntries [] => True
  | .appendEntries (head :: rest) =>
    Consecutive head.index (head :: rest) ∧ s.firstIndex ≤ head.index ∧
      head.index ≤ s.lastIndex + 1
  | .applySnapshot snap => s.firstIndex ≤ snap.metadata.lastIncludedIndex + 1

instance (s : MemStorage) (op : StorageOp) : Decidable (op.Admissible s) := by
  unfold Admissible
  split <;> infer_instance

/-- What an operation does to an indexed log. -/
def abstract : StorageOp → List (IndexedLog.Op LogEntry)
  | .saveHardState _ => []
  | .appendEntries [] => []
  | .appendEntries (head :: rest) => [.splice head.index (head :: rest)]
  | .applySnapshot snap => [.compact snap.metadata.lastIncludedIndex]

end StorageOp

/-- The storage holds the entries of the log, each at the position its index says. -/
structure Represents (s : MemStorage) (l : IndexedLog LogEntry) : Prop where
  aligned : s.Aligned
  first : s.firstIndex = l.base + 1
  last : s.lastIndex = l.last
  slot : ∀ i, s.get? i = l.slot i

/-! ## The operations -/

/-- A fresh storage is an empty log behind its snapshot. -/
theorem represents_fresh {s : MemStorage} (hs : Fresh s) :
    Represents s (.empty (s.firstIndex - 1)) := by
  have hnil : s.entries = [] := by
    obtain rfl | ⟨snap, rfl⟩ := hs
    · rfl
    · rfl
  have halign : s.Aligned := by
    intro k hk
    rw [hnil] at hk
    cases hk
  have hlast := halign.lastIndex_succ
  have hone := s.one_le_firstIndex
  rw [hnil, List.length_nil] at hlast
  refine ⟨halign, ?_, ?_, ?_⟩
  · show s.firstIndex = s.firstIndex - 1 + 1
    omega
  · show s.lastIndex = s.firstIndex - 1
    omega
  · intro i
    unfold MemStorage.get?
    rw [hnil]
    rfl

/-- A batch is a splice. -/
theorem Represents.append {s : MemStorage} {l : IndexedLog LogEntry} (h : Represents s l)
    {head : LogEntry} {rest : List LogEntry} (hcons : Consecutive head.index (head :: rest))
    (hlo : l.base < head.index) (hhi : head.index ≤ l.last + 1) :
    Represents (s.appendEntries (head :: rest))
      (l.splice head.index (head :: rest) hlo hhi (List.cons_ne_nil _ _)) := by
  have hfirst := h.first
  have hlast := h.last
  have hidx : head.index - 1 + 1 = head.index := by omega
  rw [← hidx] at hcons
  have hne : head :: rest ≠ [] := List.cons_ne_nil _ _
  refine ⟨h.aligned.append_batch hcons hne (by omega) (by omega), ?_, ?_, ?_⟩
  · rw [appendEntries_firstIndex]
    exact hfirst
  · exact h.aligned.lastIndex_batch hcons hne (by omega) (by omega)
  · intro i
    rw [h.aligned.get?_batch hcons hne (by omega) (by omega)]
    show _ = if i < head.index then l.slot i else (head :: rest)[i - head.index]?
    by_cases hlt : i < head.index
    · rw [if_pos hlt, if_pos (by omega), h.slot]
    · rw [if_neg hlt, if_neg (by omega), hcons.find? (by omega), hidx]

/-- A snapshot is a compaction. -/
theorem Represents.applySnapshot {s : MemStorage} {l : IndexedLog LogEntry} (h : Represents s l)
    {snap : Snapshot} (hle : l.base ≤ snap.metadata.lastIncludedIndex) :
    Represents (s.applySnapshot snap) (l.compact snap.metadata.lastIncludedIndex hle) := by
  have hfirst := h.first
  have hlo : s.firstIndex ≤ snap.metadata.lastIncludedIndex + 1 := by omega
  refine ⟨h.aligned.applySnapshot hlo, rfl, ?_, ?_⟩
  · rw [h.aligned.lastIndex_applySnapshot hlo, h.last]
    rfl
  · intro i
    show _ = if i ≤ snap.metadata.lastIncludedIndex then none else l.slot i
    rw [h.aligned.get?_applySnapshot hlo, h.slot]

/-- Each operation is that of the log. -/
theorem Represents.step {s : MemStorage} {l : IndexedLog LogEntry} (h : Represents s l)
    {op : StorageOp} (hop : op.Admissible s) :
    ∃ l', IndexedLog.Run l op.abstract l' ∧ Represents (op.apply s) l' := by
  have hfirst := h.first
  have hlast := h.last
  cases op with
  | saveHardState hs => exact ⟨l, .nil l, ⟨h.aligned, hfirst, hlast, h.slot⟩⟩
  | applySnapshot snap =>
    have hle : l.base ≤ snap.metadata.lastIncludedIndex := by
      have : s.firstIndex ≤ snap.metadata.lastIncludedIndex + 1 := hop
      omega
    exact ⟨_, .single (.compact hle), h.applySnapshot hle⟩
  | appendEntries batch =>
    cases batch with
    | nil => exact ⟨l, .nil l, h⟩
    | cons head rest =>
      obtain ⟨hcons, hlo, hhi⟩ := hop
      have hlo' : l.base < head.index := by omega
      have hhi' : head.index ≤ l.last + 1 := by omega
      exact ⟨_, .single (.splice hlo' hhi' (List.cons_ne_nil _ _)), h.append hcons hlo' hhi'⟩

/-- A list of admissible operations is a run of the abstract log. -/
theorem Represents.run {s : MemStorage} {l : IndexedLog LogEntry} (h : Represents s l)
    {ops : List StorageOp}
    (hops : Runs.Within StorageOp.apply (fun s op => op.Admissible s) s ops) :
    ∃ l', IndexedLog.Run l (ops.flatMap StorageOp.abstract) l' ∧
      Represents (Runs.exec StorageOp.apply s ops) l' := by
  induction ops generalizing s l with
  | nil => exact ⟨l, .nil l, h⟩
  | cons op ops ih =>
    obtain ⟨l₁, hrun₁, h₁⟩ := h.step hops.1
    obtain ⟨l₂, hrun₂, h₂⟩ := ih h₁ hops.2
    exact ⟨l₂, hrun₁.append hrun₂, h₂⟩

/-! ## The reads -/

/-- Each read returns what the log holds, or says why it holds nothing. -/
structure ReadsAs (s : MemStorage) (l : IndexedLog LogEntry) : Prop where
  /-- the term of a stored entry -/
  stored : ∀ i e, l.slot i = some e → s.term i = .ok e.term
  /-- an index below the snapshot's own -/
  compacted : ∀ i, 1 ≤ i → i < l.base → s.term i = .error (.logCompacted i (l.base + 1))
  /-- an index behind the log -/
  beyond : ∀ i, l.last < i → s.term i = .error (.logUnavailable i)
  /-- a range of stored entries -/
  range : ∀ lo hi, l.base < lo → lo ≤ hi → hi ≤ l.last + 1 →
    ∃ es, s.readEntries lo hi none = .ok es ∧ es.length = hi - lo ∧
      ∀ k, k < hi - lo → es[k]? = l.slot (lo + k)
  /-- a range that begins in the compacted part -/
  rangeCompacted : ∀ lo hi,
    (∃ a b, s.readEntries lo hi none = .error (.logCompacted a b)) ↔ lo < s.firstIndex
  /-- a range that ends behind the log -/
  rangeUnavailable : ∀ lo hi, s.firstIndex ≤ lo →
    ((∃ a, s.readEntries lo hi none = .error (.logUnavailable a)) ↔ l.last + 1 < hi)
  /-- the slice that is read lies in the vector -/
  slice : ∀ lo hi, s.firstIndex ≤ lo → lo < hi → hi ≤ s.lastIndex + 1 →
    hi - s.firstIndex ≤ s.entries.length

/-- All reads give what the abstract log says. -/
theorem Represents.reads {s : MemStorage} {l : IndexedLog LogEntry} (h : Represents s l) :
    ReadsAs s l := by
  have hfirst := h.first
  have hlast := h.last
  have hend := h.aligned.lastIndex_succ
  have hbase := l.base_le
  constructor
  case stored =>
    intro i e he
    obtain ⟨hlo, hhi⟩ := (l.slot_isSome i).mp (by rw [he]; rfl)
    have hlen : i - s.firstIndex < s.entries.length := by omega
    rw [← h.slot, h.aligned.get?_eq (by omega), List.getElem?_eq_getElem hlen] at he
    rw [h.aligned.term_eq (by omega) hlen, Option.some.inj he]
  case compacted =>
    intro i hpos hlt
    rw [term_compacted hpos (by omega), hfirst]
  case beyond =>
    intro i hlt
    exact h.aligned.term_unavailable (by omega)
  case range =>
    intro lo hi hlo hle hhi
    rcases Nat.lt_or_eq_of_le hle with hlt | rfl
    · refine ⟨_, h.aligned.readEntries_none (by omega) (by omega) hlt, ?_, ?_⟩
      · rw [List.length_take, List.length_drop]
        omega
      · intro k hk
        rw [List.getElem?_take, if_pos hk, List.getElem?_drop, ← h.slot,
          h.aligned.get?_eq (by omega)]
        congr 1
        omega
    · refine ⟨[], ?_, by simp, fun k hk => by omega⟩
      unfold readEntries
      dsimp only
      rw [if_neg (by omega), if_neg (by omega), if_pos (Nat.le_refl _)]
  case rangeCompacted =>
    intro lo hi
    unfold readEntries
    dsimp only
    constructor
    · rintro ⟨a, b, herr⟩
      by_contra hge
      rw [if_neg hge] at herr
      split at herr
      · cases herr
      · split at herr
        · cases herr
        · cases herr
    · intro hlt
      exact ⟨lo, s.firstIndex, if_pos hlt⟩
  case rangeUnavailable =>
    intro lo hi hlo
    unfold readEntries
    dsimp only
    rw [if_neg (by omega)]
    constructor
    · rintro ⟨a, herr⟩
      by_contra hge
      rw [if_neg (by omega)] at herr
      split at herr
      · cases herr
      · cases herr
    · intro hlt
      exact ⟨hi, if_pos (by omega)⟩
  case slice =>
    intro lo hi hlo hlt hhi
    omega

/-- The storage after every sequence of admissible operations is the log after the same
sequence, and its reads read that log. -/
theorem storage_refines (s : MemStorage) (hs : Fresh s) (ops : List StorageOp)
    (hops : Runs.Within StorageOp.apply (fun s op => op.Admissible s) s ops) :
    ∃ l, IndexedLog.Run (.empty (s.firstIndex - 1)) (ops.flatMap StorageOp.abstract) l ∧
      Represents (Runs.exec StorageOp.apply s ops) l ∧
      ReadsAs (Runs.exec StorageOp.apply s ops) l := by
  obtain ⟨l, hrun, hrep⟩ := (represents_fresh hs).run hops
  exact ⟨l, hrun, hrep, hrep.reads⟩

/-- An overlapping batch, a snapshot inside the log and one that ends behind it. -/
def mixedOps : List StorageOp :=
  [.appendEntries [⟨1, 1, [], .normal⟩, ⟨1, 2, [], .normal⟩, ⟨1, 3, [], .normal⟩],
    .appendEntries [⟨2, 2, [7], .normal⟩], .applySnapshot ⟨[], ⟨1, 1, []⟩⟩,
    .appendEntries [⟨2, 3, [8], .normal⟩], .saveHardState ⟨2, 1, 3⟩,
    .applySnapshot ⟨[], ⟨5, 2, []⟩⟩, .appendEntries [⟨3, 6, [9], .normal⟩]]

/-- These operations, from a new storage, are a run of the log. -/
theorem storage_refines_mixedOps :
    ∃ l, IndexedLog.Run (.empty 0) (mixedOps.flatMap StorageOp.abstract) l ∧
      Represents (Runs.exec StorageOp.apply .new mixedOps) l ∧
      ReadsAs (Runs.exec StorageOp.apply .new mixedOps) l :=
  storage_refines .new (.inl rfl) mixedOps (by decide)

end IceRaft
