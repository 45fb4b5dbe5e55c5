import IceRaft.Model.Core

/-!
# The storage trait and `MemStorage`

`Storage` is the trait of `iceraft-storage`: every method takes the storage and
returns its result together with the storage it leaves behind.  Any method may fail
and may depend on the whole state, so a backend whose calls fail in some pattern is
an instance like any other.

`MemStorage` is the in-memory backend.  Its functions keep the offset arithmetic of
the source: positions are computed from the snapshot boundary, never looked up by
the index field of an entry.
-/

set_option autoImplicit false

namespace IceRaft

/-- The storage interface that every backend must satisfy.
SRCLINE: iceraft-storage/src/lib.rs:26-72 -/
class Storage (σ : Type) where
  saveHardState : HardState → σ → Except RaftError Unit × σ
  loadHardState : σ → Except RaftError HardState × σ
  firstIndex : σ → Except RaftError ℕ × σ
  lastIndex : σ → Except RaftError ℕ × σ
  term : ℕ → σ → Except RaftError ℕ × σ
  entries : ℕ → ℕ → Option ℕ → σ → Except RaftError (List LogEntry) × σ
  appendEntries : List LogEntry → σ → Except RaftError Unit × σ
  snapshot : σ → Except RaftError (Option Snapshot) × σ
  applySnapshot : Snapshot → σ → Except RaftError Unit × σ

/-- `MemStorageInner`. -/
structure MemStorage where
  hardState : HardState := {}
  entries : List LogEntry := []
  snapshot : Option Snapshot := none
  deriving DecidableEq, Repr

namespace MemStorage

/-- `MemStorage::new`. -/
def new : MemStorage := {}

/-- `MemStorage::with_snapshot`. -/
def withSnapshot (s : Snapshot) : MemStorage := { snapshot := some s }

/-- SRCLINE: iceraft-storage/src/mem.rs:23-28 -/
def firstIndex (s : MemStorage) : ℕ :=
  match s.snapshot with
  | some snap => snap.metadata.lastIncludedIndex + 1
  | none => 1

/-- SRCLINE: iceraft-storage/src/mem.rs:30-38 -/
def lastIndex (s : MemStorage) : ℕ :=
  match s.entries.getLast? with
  | some last => last.index
  | none =>
    match s.snapshot with
    | some snap => snap.metadata.lastIncludedIndex
    | none => 0

/-- The positional half of `MemStorageInner::term`, for an index that no snapshot
covers. -/
def termInLog (s : MemStorage) (index : ℕ) : Except RaftError ℕ :=
  if index < s.firstIndex then
    .error (.logCompacted index s.firstIndex)
  else
    match s.entries[index - s.firstIndex]? with
    | some e => .ok e.term
    | none => .error (.logUnavailable index)

/-- SRCLINE: iceraft-storage/src/mem.rs:40-68 -/
def term (s : MemStorage) (index : ℕ) : Except RaftError ℕ :=
  if index = 0 then .ok 0
  else
    match s.snapshot with
    | some snap =>
      if index ≤ snap.metadata.lastIncludedIndex then
        if index = snap.metadata.lastIncludedIndex then
          .ok snap.metadata.lastIncludedTerm
        else
          .error (.logCompacted index (snap.metadata.lastIncludedIndex + 1))
      else
        s.termInLog index
    | none => s.termInLog index

/-- The size-capped loop of `MemStorageInner::entries`: the first entry is always
taken, a later one only while the byte total stays within `max`.
SRCLINE: iceraft-storage/src/mem.rs:96-107 -/
def takeCapped (max : ℕ) : List LogEntry → List LogEntry → ℕ → List LogEntry
  | [], result, _ => result
  | entry :: rest, result, totalBytes =>
    if !result.isEmpty && decide (totalBytes + entry.data.length > max) then result
    else takeCapped max rest (result ++ [entry]) (totalBytes + entry.data.length)

/-- The slice `entries[lo_offset..hi_offset]` is `drop` and `take`; a Rust slice that
ends beyond the vector panics, which an aligned log rules out.  `WordStorage.readEntries`
has the panic, and the sum `last + 1` as it wraps.
SRCLINE: iceraft-storage/src/mem.rs:70-111 -/
def readEntries (s : MemStorage) (lo hi : ℕ) (maxSize : Option ℕ) :
    Except RaftError (List LogEntry) :=
  let first := s.firstIndex
  let last := s.lastIndex
  if lo < first then .error (.logCompacted lo first)
  else if hi > last + 1 then .error (.logUnavailable hi)
  else if lo ≥ hi then .ok []
  else
    let slice := (s.entries.drop (lo - first)).take (hi - lo)
    match maxSize with
    | some max => .ok (takeCapped max slice [] 0)
    | none => .ok slice

/-- `truncate_at` underflows when the batch starts below `first_index`; a wrapped
offset is beyond every vector, so nothing is truncated then.
SRCLINE: iceraft-storage/src/mem.rs:113-131 -/
def appendEntries (s : MemStorage) (batch : List LogEntry) : MemStorage :=
  match batch with
  | [] => s
  | head :: _ =>
    let first := s.firstIndex
    let last := s.lastIndex
    let kept :=
      if head.index ≤ last then
        let truncateAt := u64Sub head.index first
        if truncateAt < s.entries.length then s.entries.take truncateAt else s.entries
      else s.entries
    { s with entries := kept ++ batch }

/-- SRCLINE: iceraft-storage/src/mem.rs:198-213 -/
def applySnapshot (s : MemStorage) (snap : Snapshot) : MemStorage :=
  let lastIncluded := snap.metadata.lastIncludedIndex
  let first := s.firstIndex
  let kept :=
    if lastIncluded ≥ first then
      let dropCount := lastIncluded - first + 1
      if dropCount ≥ s.entries.length then [] else s.entries.drop dropCount
    else s.entries
  { s with entries := kept, snapshot := some snap }

/-- The entry with index `i`, found by its index field and not by its position. -/
def get? (s : MemStorage) (i : ℕ) : Option LogEntry :=
  s.entries.find? fun e => e.index = i

/-- SRCLINE: iceraft-storage/src/mem.rs:158-214 -/
instance : Storage MemStorage where
  saveHardState hs s := (.ok (), { s with hardState := hs })
  loadHardState s := (.ok s.hardState, s)
  firstIndex s := (.ok s.firstIndex, s)
  lastIndex s := (.ok s.lastIndex, s)
  term index s := (s.term index, s)
  entries lo hi maxSize s := (s.readEntries lo hi maxSize, s)
  appendEntries batch s := (.ok (), s.appendEntries batch)
  snapshot s := (.ok s.snapshot, s)
  applySnapshot snap s := (.ok (), s.applySnapshot snap)

end MemStorage

end IceRaft
