import IceRaft.Model.Cluster

/-!
# What is observed of a cluster

The predicates on cluster states the results speak of.
-/

set_option autoImplicit false

namespace IceRaft

/-- The terms in which a history reached leadership. -/
def leaderships (history : List Effect) : List ℕ :=
  history.filterMap fun
    | .becameLeader term => some term
    | _ => none

/-- The leaderships are the terms the history announces. -/
theorem mem_leaderships {history : List Effect} {term : ℕ} :
    term ∈ leaderships history ↔ Effect.becameLeader term ∈ history := by
  simp only [leaderships, List.mem_filterMap]
  constructor
  · rintro ⟨e, he, hterm⟩
    cases e <;> simp_all
  · exact fun h => ⟨_, h, rfl⟩

/-- The entries a history has sent on `apply_tx`. -/
def applications (history : List Effect) : List LogEntry :=
  history.filterMap fun
    | .applied entry => some entry
    | _ => none

/-- The applications are the entries the history shows sent on `apply_tx`. -/
theorem mem_applications {history : List Effect} {entry : LogEntry} :
    entry ∈ applications history ↔ Effect.applied entry ∈ history := by
  simp only [applications, List.mem_filterMap]
  constructor
  · rintro ⟨e, he, hentry⟩
    cases e <;> simp_all
  · exact fun h => ⟨_, h, rfl⟩

/-- The proposals a history has accepted, with their channels. -/
def acceptances (history : List Effect) : List (Sender × LogEntry) :=
  history.filterMap fun
    | .accepted tx entry => some (tx, entry)
    | _ => none

/-- The acceptances are the entries appended for a waiting caller. -/
theorem mem_acceptances {history : List Effect} {tx : Sender} {entry : LogEntry} :
    (tx, entry) ∈ acceptances history ↔ Effect.accepted tx entry ∈ history := by
  simp only [acceptances, List.mem_filterMap]
  constructor
  · rintro ⟨e, he, hentry⟩
    cases e <;> simp_all
  · exact fun h => ⟨_, h, rfl⟩

/-- The indices a history has answered with, and on which channels. -/
def answers (history : List Effect) : List (Sender × ℕ) :=
  history.filterMap fun
    | .answered tx (.ok index) => some (tx, index)
    | _ => none

/-- The answers are the `Ok` answers in the history. -/
theorem mem_answers {history : List Effect} {tx : Sender} {index : ℕ} :
    (tx, index) ∈ answers history ↔ Effect.answered tx (.ok index) ∈ history := by
  simp only [answers, List.mem_filterMap]
  constructor
  · rintro ⟨e, he, hindex⟩
    split at hindex
    · cases hindex
      exact he
    · cases hindex
  · exact fun h => ⟨_, h, rfl⟩

/-- What an effect adds to the record of an uptime: the commit index it was restored with,
and the entries sent on `apply_tx` since. -/
def uptimeStep : ℕ × List LogEntry → Effect → ℕ × List LogEntry
  | _, .restored commit => (commit, [])
  | (commit, sent), .applied entry => (commit, sent ++ [entry])
  | record, _ => record

/-- The record of the last uptime of a history. -/
def uptime (history : List Effect) : ℕ × List LogEntry := history.foldl uptimeStep (0, [])

/-- The commit index the last uptime began with. -/
abbrev restoredCommit (history : List Effect) : ℕ := (uptime history).1

/-- The entries the last uptime has sent on `apply_tx`. -/
abbrev sentThisUptime (history : List Effect) : List LogEntry := (uptime history).2

/-- The part of the history in this uptime follows the history effect by effect. -/
theorem uptime_append (history : List Effect) (e : Effect) :
    uptime (history ++ [e]) = uptimeStep (uptime history) e := by
  unfold uptime
  rw [List.foldl_append]
  rfl

/-- What was applied is committed, and what is committed is in the log. -/
def IndicesOrdered (n : RaftNodeInner MemStorage) : Prop :=
  n.sm.lastApplied ≤ n.sm.commitIndex ∧ n.sm.commitIndex ≤ n.storage.lastIndex

instance (n : RaftNodeInner MemStorage) : Decidable (IndicesOrdered n) :=
  inferInstanceAs (Decidable (_ ∧ _))

namespace Cluster

variable {σ : Type}

/-- Node `i` is leader in `term`. -/
def Leads (c : Cluster σ) (i : NodeId) (term : ℕ) : Prop :=
  (c.proc i).node.sm.role = .leader ∧ (c.proc i).node.sm.currentTerm = term

instance (c : Cluster σ) (i : NodeId) (term : ℕ) : Decidable (c.Leads i term) :=
  inferInstanceAs (Decidable (_ ∧ _))

/-- The log and hard state of node `i`. -/
abbrev store (c : Cluster σ) (i : NodeId) : σ := (c.proc i).node.storage

/-- The Raft state of node `i`. -/
abbrev sm (c : Cluster σ) (i : NodeId) : RaftStateMachine := (c.proc i).node.sm

/-- No two nodes have been leader in the same term, now or earlier. -/
def UniqueLeaders (cc : ClusterConfig) (c : Cluster σ) : Prop :=
  ∀ i ∈ cc.members, ∀ j ∈ cc.members, ∀ term ∈ leaderships (c.proc i).history,
    term ∈ leaderships (c.proc j).history → i = j

instance (cc : ClusterConfig) (c : Cluster σ) : Decidable (c.UniqueLeaders cc) :=
  inferInstanceAs (Decidable (∀ i ∈ cc.members, ∀ j ∈ cc.members,
    ∀ term ∈ leaderships (c.proc i).history, term ∈ leaderships (c.proc j).history → i = j))

end Cluster

end IceRaft
