import IceRaft.Model.Node

/-!
# `MemStorage` on machine words

`WordStorage` is the in-memory backend with the arithmetic of `u64`: the sums that
`MemStorageInner` computes wrap around, and the slice of `entries` panics when it ends beyond
the vector.  `MemStorage` counts in the naturals and cuts a slice to the vector; where the
first index and the index behind the log are in range and the log is aligned the two are the
same, and elsewhere a result about the code has to be about this one.

The sum and the product that `replicate_to` computes, `last_index + 1` and
`max_append_entries * 4096`, are arguments of `entries` and nothing else, so the call takes the
low 64 bits of each, and the node's code for replication does here what it does on words.
-/

set_option autoImplicit false

namespace IceRaft

/-- `MemStorageInner`, with the operations below. -/
structure WordStorage where
  mem : MemStorage
  deriving DecidableEq, Repr

namespace WordStorage

/-- SRCLINE: iceraft-storage/src/mem.rs:23-28 -/
def firstIndex (s : WordStorage) : ℕ :=
  match s.mem.snapshot with
  | some snap => u64Add snap.metadata.lastIncludedIndex 1
  | none => 1

/-- SRCLINE: iceraft-storage/src/mem.rs:30-38 -/
def lastIndex (s : WordStorage) : ℕ := s.mem.lastIndex

/-- The positional half of `MemStorageInner::term`, for an index that no snapshot
covers. -/
def termInLog (s : WordStorage) (index : ℕ) : Except RaftError ℕ :=
  if index < s.firstIndex then
    .error (.logCompacted index s.firstIndex)
  else
    match s.mem.entries[index - s.firstIndex]? with
    | some e => .ok e.term
    | none => .error (.logUnavailable index)

/-- SRCLINE: iceraft-storage/src/mem.rs:40-68 -/
def term (s : WordStorage) (index : ℕ) : Except RaftError ℕ :=
  if index = 0 then .ok 0
  else
    match s.mem.snapshot with
    | some snap =>
      if index ≤ snap.metadata.lastIncludedIndex then
        if index = snap.metadata.lastIncludedIndex then
          .ok snap.metadata.lastIncludedTerm
        else
          .error (.logCompacted index (u64Add snap.metadata.lastIncludedIndex 1))
      else
        s.termInLog index
    | none => s.termInLog index

/-- The outcome of `entries` that stands for the panic of its slice; no function of the
storage returns it.  Both callers of `entries` have no effect after an error other than
`LogCompacted`, so up to the end of the call they do what the panic leaves of them. -/
def slicePanic : RaftError := .other "range end index out of range for slice"

/-- The slice `entries[lo_offset..hi_offset]` panics when it ends beyond the vector.  The byte
total of the capped loop is that of data in memory, and stays in range.
SRCLINE: iceraft-storage/src/mem.rs:70-111 -/
def readEntries (s : WordStorage) (lo hi : ℕ) (maxSize : Option ℕ) :
    Except RaftError (List LogEntry) :=
  let first := s.firstIndex
  let last := s.lastIndex
  if lo < first then .error (.logCompacted lo first)
  else if hi > u64Add last 1 then .error (.logUnavailable hi)
  else if lo ≥ hi then .ok []
  else
    let loOffset := lo - first
    let hiOffset := hi - first
    if hiOffset > s.mem.entries.length then .error slicePanic
    else
      let slice := (s.mem.entries.drop loOffset).take (hiOffset - loOffset)
      match maxSize with
      | some max => .ok (MemStorage.takeCapped max slice [] 0)
      | none => .ok slice

/-- SRCLINE: iceraft-storage/src/mem.rs:113-131 -/
def appendEntries (s : WordStorage) (batch : List LogEntry) : WordStorage :=
  match batch with
  | [] => s
  | head :: _ =>
    let first := s.firstIndex
    let last := s.lastIndex
    let kept :=
      if head.index ≤ last then
        let truncateAt := u64Sub head.index first
        if truncateAt < s.mem.entries.length then s.mem.entries.take truncateAt
        else s.mem.entries
      else s.mem.entries
    ⟨{ s.mem with entries := kept ++ batch }⟩

/-- SRCLINE: iceraft-storage/src/mem.rs:198-213 -/
def applySnapshot (s : WordStorage) (snap : Snapshot) : WordStorage :=
  let lastIncluded := snap.metadata.lastIncludedIndex
  let first := s.firstIndex
  let kept :=
    if lastIncluded ≥ first then
      let dropCount := u64Add (lastIncluded - first) 1
      if dropCount ≥ s.mem.entries.length then [] else s.mem.entries.drop dropCount
    else s.mem.entries
  ⟨{ s.mem with entries := kept, snapshot := some snap }⟩

/-- SRCLINE: iceraft-storage/src/mem.rs:158-214 -/
instance : Storage WordStorage where
  saveHardState hs s := (.ok (), ⟨{ s.mem with hardState := hs }⟩)
  loadHardState s := (.ok s.mem.hardState, s)
  firstIndex s := (.ok s.firstIndex, s)
  lastIndex s := (.ok s.lastIndex, s)
  term index s := (s.term index, s)
  entries lo hi maxSize s := (s.readEntries lo (toU64 hi) (maxSize.map toU64), s)
  appendEntries batch s := (.ok (), s.appendEntries batch)
  snapshot s := (.ok s.mem.snapshot, s)
  applySnapshot snap s := (.ok (), s.applySnapshot snap)

end WordStorage

end IceRaft
