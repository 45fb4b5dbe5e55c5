import IceRaft.Interface.StorageContract

/-!
# A storage whose saves fail

`FlakyStorage` is a storage with a list of outcomes for the coming calls of
`save_hard_state`: a call that is to fail returns its error and does nothing else.  After
the list every call reaches the storage below, as all other methods always do.
-/

set_option autoImplicit false

namespace IceRaft

/-- A storage, and the errors of the coming calls of `save_hard_state`; `none` is a call
that reaches the storage. -/
structure FlakyStorage (σ : Type) where
  store : σ
  outcomes : List (Option RaftError) := []
  deriving DecidableEq, Repr

namespace FlakyStorage

variable {σ : Type}

/-- A call that reaches the storage below. -/
def pass {α : Type} (op : σ → Except RaftError α × σ) (s : FlakyStorage σ) :
    Except RaftError α × FlakyStorage σ :=
  ((op s.store).1, { s with store := (op s.store).2 })

/-- `save_hard_state`, as the next outcome has it. -/
def save [Storage σ] (hs : HardState) (s : FlakyStorage σ) :
    Except RaftError Unit × FlakyStorage σ :=
  match s.outcomes with
  | some e :: rest => (.error e, { s with outcomes := rest })
  | _ :: rest => pass (Storage.saveHardState hs) { s with outcomes := rest }
  | [] => pass (Storage.saveHardState hs) s

instance [Storage σ] : Storage (FlakyStorage σ) where
  saveHardState := save
  loadHardState := pass Storage.loadHardState
  firstIndex := pass Storage.firstIndex
  lastIndex := pass Storage.lastIndex
  term index := pass (Storage.term index)
  entries lo hi maxSize := pass (Storage.entries lo hi maxSize)
  appendEntries batch := pass (Storage.appendEntries batch)
  snapshot := pass Storage.snapshot
  applySnapshot snap := pass (Storage.applySnapshot snap)

variable [Storage σ] [DurableHardState σ]

open DurableHardState

/-- A save either succeeds and persists its argument, or fails and persists nothing. -/
theorem save_cases (hs : HardState) (s : FlakyStorage σ) :
    ((save hs s).1 = .ok () ∧ persisted (save hs s).2.store = hs) ∨
      ((∃ e, (save hs s).1 = .error e) ∧ persisted (save hs s).2.store = persisted s.store) := by
  obtain ⟨store, outcomes⟩ := s
  cases outcomes with
  | nil => exact .inl ⟨save_ok hs store, persisted_save hs store⟩
  | cons o rest =>
    cases o with
    | none => exact .inl ⟨save_ok hs store, persisted_save hs store⟩
    | some e => exact .inr ⟨⟨e, rfl⟩, rfl⟩

instance : AtomicHardState (FlakyStorage σ) where
  persisted s := persisted s.store
  persisted_of_ok hs s hok := by
    rcases save_cases hs s with ⟨-, hsaved⟩ | ⟨⟨e, herr⟩, -⟩
    · exact hsaved
    · cases herr.symm.trans hok
  persisted_of_error hs s herr := by
    rcases save_cases hs s with ⟨hok, -⟩ | ⟨-, hkept⟩
    · exact absurd hok herr
    · exact hkept
  load_ok s := load_ok s.store
  persisted_load s := persisted_load s.store
  persisted_firstIndex s := persisted_firstIndex s.store
  persisted_lastIndex s := persisted_lastIndex s.store
  persisted_term i s := persisted_term i s.store
  persisted_entries lo hi max s := persisted_entries lo hi max s.store
  persisted_snapshot s := persisted_snapshot s.store
  persisted_append es s := persisted_append es s.store
  persisted_applySnapshot snap s := persisted_applySnapshot snap s.store

end FlakyStorage

end IceRaft
