import IceRaft.Model.Storage

/-!
# A storage whose snapshots are watched

`ProbedStorage` is a storage that records the calls of `apply_snapshot`, with a list of
outcomes for the coming ones: a call that is to fail returns its error and does nothing else.
After the list every call reaches the storage below, as all other methods always do.
-/

set_option autoImplicit false

namespace IceRaft

/-- A storage, the errors of the coming calls of `apply_snapshot` (`none` is a call that
reaches the storage), and the calls so far, each with whether it succeeded. -/
structure ProbedStorage (σ : Type) where
  store : σ
  outcomes : List (Option RaftError) := []
  calls : List (Snapshot × Bool) := []

namespace ProbedStorage

variable {σ : Type}

/-- A call that reaches the storage below. -/
def pass {α : Type} (op : σ → Except RaftError α × σ) (s : ProbedStorage σ) :
    Except RaftError α × ProbedStorage σ :=
  ((op s.store).1, { s with store := (op s.store).2 })

/-- `apply_snapshot`, as the next outcome has it. -/
def apply [Storage σ] (snap : Snapshot) (s : ProbedStorage σ) :
    Except RaftError Unit × ProbedStorage σ :=
  match s.outcomes with
  | some e :: rest => (.error e, { s with outcomes := rest, calls := s.calls ++ [(snap, false)] })
  | _ :: rest =>
    let r := Storage.applySnapshot snap s.store
    (r.1, ⟨r.2, rest, s.calls ++ [(snap, r.1.isOk)]⟩)
  | [] =>
    let r := Storage.applySnapshot snap s.store
    (r.1, ⟨r.2, [], s.calls ++ [(snap, r.1.isOk)]⟩)

instance [Storage σ] : Storage (ProbedStorage σ) where
  saveHardState hs := pass (Storage.saveHardState hs)
  loadHardState := pass Storage.loadHardState
  firstIndex := pass Storage.firstIndex
  lastIndex := pass Storage.lastIndex
  term index := pass (Storage.term index)
  entries lo hi maxSize := pass (Storage.entries lo hi maxSize)
  appendEntries batch := pass (Storage.appendEntries batch)
  snapshot := pass Storage.snapshot
  applySnapshot := apply

variable [Storage σ]

/-- A save leaves the record of snapshot calls alone. -/
@[simp] theorem calls_save (hs : HardState) (s : ProbedStorage σ) :
    (Storage.saveHardState hs s).2.calls = s.calls := rfl

/-- A call of `apply_snapshot` is recorded with its outcome. -/
theorem calls_apply (snap : Snapshot) (s : ProbedStorage σ) :
    (Storage.applySnapshot snap s).2.calls =
      s.calls ++ [(snap, (Storage.applySnapshot snap s).1.isOk)] := by
  obtain ⟨store, outcomes, calls⟩ := s
  cases outcomes with
  | nil => rfl
  | cons o rest => cases o <;> rfl

end ProbedStorage

end IceRaft
