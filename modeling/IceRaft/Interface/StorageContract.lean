import IceRaft.Model.Storage

/-!
# What is assumed of a storage

The results that hold over any storage need its hard state to be durable: a save
succeeds and replaces the persisted hard state, a load returns the last persisted one,
and nothing else touches it.  Where a save may fail it is atomic: a failed one leaves the
persisted hard state as it was.
-/

set_option autoImplicit false

namespace IceRaft

/-- A storage that persists the hard state as the trait documents it, and whose
`save_hard_state` always succeeds.
SRCLINE: iceraft-storage/src/lib.rs:30-35 -/
class DurableHardState (σ : Type) [Storage σ] where
  /-- the last persisted hard state -/
  persisted : σ → HardState
  save_ok : ∀ hs s, (Storage.saveHardState hs s : Except RaftError Unit × σ).1 = .ok ()
  persisted_save : ∀ hs s, persisted (Storage.saveHardState hs s : Except RaftError Unit × σ).2 = hs
  load_ok : ∀ s : σ, (Storage.loadHardState s).1 = .ok (persisted s)
  persisted_load : ∀ s : σ, persisted (Storage.loadHardState s).2 = persisted s
  persisted_firstIndex : ∀ s : σ, persisted (Storage.firstIndex s).2 = persisted s
  persisted_lastIndex : ∀ s : σ, persisted (Storage.lastIndex s).2 = persisted s
  persisted_term : ∀ i (s : σ), persisted (Storage.term i s).2 = persisted s
  persisted_entries : ∀ lo hi max (s : σ), persisted (Storage.entries lo hi max s).2 = persisted s
  persisted_snapshot : ∀ s : σ, persisted (Storage.snapshot s).2 = persisted s
  persisted_append : ∀ es (s : σ), persisted (Storage.appendEntries es s).2 = persisted s
  persisted_applySnapshot : ∀ snap (s : σ),
    persisted (Storage.applySnapshot snap s).2 = persisted s

/-- A storage whose `save_hard_state` may fail, on any call: the hard state is persisted
when the call returns `Ok`, and left alone when it returns `Err`.
SRCLINE: iceraft-storage/src/lib.rs:30-35 -/
class AtomicHardState (σ : Type) [Storage σ] where
  /-- the last persisted hard state -/
  persisted : σ → HardState
  persisted_of_ok : ∀ hs (s : σ), (Storage.saveHardState hs s).1 = .ok () →
    persisted (Storage.saveHardState hs s).2 = hs
  persisted_of_error : ∀ hs (s : σ), (Storage.saveHardState hs s).1 ≠ .ok () →
    persisted (Storage.saveHardState hs s).2 = persisted s
  load_ok : ∀ s : σ, (Storage.loadHardState s).1 = .ok (persisted s)
  persisted_load : ∀ s : σ, persisted (Storage.loadHardState s).2 = persisted s
  persisted_firstIndex : ∀ s : σ, persisted (Storage.firstIndex s).2 = persisted s
  persisted_lastIndex : ∀ s : σ, persisted (Storage.lastIndex s).2 = persisted s
  persisted_term : ∀ i (s : σ), persisted (Storage.term i s).2 = persisted s
  persisted_entries : ∀ lo hi max (s : σ), persisted (Storage.entries lo hi max s).2 = persisted s
  persisted_snapshot : ∀ s : σ, persisted (Storage.snapshot s).2 = persisted s
  persisted_append : ∀ es (s : σ), persisted (Storage.appendEntries es s).2 = persisted s
  persisted_applySnapshot : ∀ snap (s : σ),
    persisted (Storage.applySnapshot snap s).2 = persisted s

/-- A storage whose reads of the last index and of terms leave it as it is; they may still
fail.
SRCLINE: iceraft-storage/src/lib.rs:44-49 -/
class StableReads (σ : Type) [Storage σ] : Prop where
  lastIndex_stable : ∀ s : σ, (Storage.lastIndex s).2 = s
  term_stable : ∀ i (s : σ), (Storage.term i s).2 = s

/-- A storage that a leader's reads for its peers leave as it is, too. -/
class PureReads (σ : Type) [Storage σ] : Prop extends StableReads σ where
  entries_stable : ∀ lo hi max (s : σ), (Storage.entries lo hi max s).2 = s
  snapshot_stable : ∀ s : σ, (Storage.snapshot s).2 = s

/-- A storage that makes no entry up: what it holds it held before, or it came with a batch,
and only what it holds is read from it.
SRCLINE: iceraft-storage/src/lib.rs:26-72 -/
class FaithfulEntries (σ : Type) [Storage σ] where
  /-- the entry is in the storage -/
  hasEntry : σ → LogEntry → Prop
  of_save : ∀ hs (s : σ) e, hasEntry (Storage.saveHardState hs s).2 e → hasEntry s e
  of_load : ∀ (s : σ) e, hasEntry (Storage.loadHardState s).2 e → hasEntry s e
  of_firstIndex : ∀ (s : σ) e, hasEntry (Storage.firstIndex s).2 e → hasEntry s e
  of_lastIndex : ∀ (s : σ) e, hasEntry (Storage.lastIndex s).2 e → hasEntry s e
  of_term : ∀ i (s : σ) e, hasEntry (Storage.term i s).2 e → hasEntry s e
  of_entries : ∀ lo hi max (s : σ) e, hasEntry (Storage.entries lo hi max s).2 e → hasEntry s e
  of_snapshot : ∀ (s : σ) e, hasEntry (Storage.snapshot s).2 e → hasEntry s e
  of_append : ∀ es (s : σ) e, hasEntry (Storage.appendEntries es s).2 e → hasEntry s e ∨ e ∈ es
  of_applySnapshot : ∀ snap (s : σ) e, hasEntry (Storage.applySnapshot snap s).2 e → hasEntry s e
  hasEntry_of_read : ∀ lo hi max (s : σ) es, (Storage.entries lo hi max s).1 = .ok es →
    ∀ e ∈ es, hasEntry s e

instance : StableReads MemStorage where
  lastIndex_stable _ := rfl
  term_stable _ _ := rfl

instance : PureReads MemStorage where
  entries_stable _ _ _ _ := rfl
  snapshot_stable _ := rfl

/-- The in-memory backend, as long as the process that restarts keeps it. -/
instance : DurableHardState MemStorage where
  persisted s := s.hardState
  save_ok _ _ := rfl
  persisted_save _ _ := rfl
  load_ok _ := rfl
  persisted_load _ := rfl
  persisted_firstIndex _ := rfl
  persisted_lastIndex _ := rfl
  persisted_term _ _ := rfl
  persisted_entries _ _ _ _ := rfl
  persisted_snapshot _ := rfl
  persisted_append es s := by cases es <;> rfl
  persisted_applySnapshot _ _ := rfl

end IceRaft
