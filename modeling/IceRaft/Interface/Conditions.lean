import IceRaft.Interface.Observations

/-!
# Conditions on the activations of a run

Each condition is about one activation: the node before it, its input, and the crash
that may come with it.
-/

set_option autoImplicit false

namespace IceRaft

namespace Cluster

variable {σ : Type}

/-- Both conditions. -/
def Condition.and (p q : Condition σ) : Condition σ :=
  fun cfg n input crashAt => p cfg n input crashAt ∧ q cfg n input crashAt

instance (p q : Condition σ) (cfg : RaftConfig) (n : RaftNodeInner σ) (input : Input)
    (crashAt : Option ℕ) [Decidable (p cfg n input crashAt)] [Decidable (q cfg n input crashAt)] :
    Decidable (p.and q cfg n input crashAt) :=
  inferInstanceAs (Decidable (_ ∧ _))

/-- The process does not crash. -/
def NoCrash : Condition σ := fun _ _ _ crashAt => crashAt = none

instance (cfg : RaftConfig) (n : RaftNodeInner σ) (input : Input) (crashAt : Option ℕ) :
    Decidable (NoCrash cfg n input crashAt) :=
  inferInstanceAs (Decidable (crashAt = none))

/-- A candidate is granted a vote in its own term only: no response of an earlier
candidacy reaches it. -/
def VotesCurrent : Condition σ := fun _ n input _ =>
  match input with
  | .message (.voteResponse _ resp) =>
    resp.voteGranted = true → n.sm.role = .candidate → n.sm.currentTerm ≤ resp.term
  | _ => True

instance (cfg : RaftConfig) (n : RaftNodeInner σ) (input : Input) (crashAt : Option ℕ) :
    Decidable (VotesCurrent cfg n input crashAt) := by
  unfold VotesCurrent
  split
  · infer_instance
  · infer_instance

/-- A leader is told of a success in its own term only: no response to a request of an
earlier leadership reaches it. -/
def AcksCurrent : Condition σ := fun _ n input _ =>
  match input with
  | .message (.appendResponse _ _ resp) =>
    resp.success = true → n.sm.role = .leader → n.sm.currentTerm ≤ resp.term
  | _ => True

instance (cfg : RaftConfig) (n : RaftNodeInner σ) (input : Input) (crashAt : Option ℕ) :
    Decidable (AcksCurrent cfg n input crashAt) := by
  unfold AcksCurrent
  split
  · infer_instance
  · infer_instance

/-- `on_append_entries` gets past its checks on the term and on the previous entry. -/
def Accepts (n : RaftNodeInner MemStorage) (req : AppendEntriesRequest) : Bool :=
  decide (n.sm.currentTerm ≤ req.term) &&
    (decide (req.prevLogIndex = 0) ||
      match n.storage.term req.prevLogIndex with
      | .ok t => decide (t = req.prevLogTerm)
      | .error (.logCompacted _ _) => true
      | .error _ => false)

/-- What the log holds behind the previous entry of a request. -/
def heldSuffix (s : MemStorage) (req : AppendEntriesRequest) : List LogEntry :=
  s.entries.drop (req.prevLogIndex + 1 - s.firstIndex)

/-- An accepted batch whose entries the log holds already does not end before the log
does: nothing is cut off that the batch does not contradict. -/
def KeepsAgreeing : Condition MemStorage := fun _ n input _ =>
  match input with
  | .appendEntries req =>
    Accepts n req = true → req.entries ≠ [] →
      req.entries.map protoEntryToLogEntry <+: heldSuffix n.storage req →
        (heldSuffix n.storage req).length ≤ req.entries.length
  | _ => True

instance (cfg : RaftConfig) (n : RaftNodeInner MemStorage) (input : Input)
    (crashAt : Option ℕ) : Decidable (KeepsAgreeing cfg n input crashAt) := by
  unfold KeepsAgreeing
  split
  · infer_instance
  · infer_instance

/-- An accepted batch does not start below the first index of the log. -/
def StartsInLog : Condition MemStorage := fun _ n input _ =>
  match input with
  | .appendEntries req =>
    Accepts n req = true → req.entries ≠ [] → n.storage.firstIndex ≤ req.prevLogIndex + 1
  | _ => True

instance (cfg : RaftConfig) (n : RaftNodeInner MemStorage) (input : Input)
    (crashAt : Option ℕ) : Decidable (StartsInLog cfg n input crashAt) := by
  unfold StartsInLog
  split
  · infer_instance
  · infer_instance

/-- A snapshot that is installed is not older than the one it replaces. -/
def SnapshotsAdvance : Condition MemStorage := fun _ n input _ =>
  match input with
  | .installSnapshot req =>
    n.sm.currentTerm ≤ req.term → n.storage.firstIndex ≤ req.lastIncludedIndex + 1
  | _ => True

instance (cfg : RaftConfig) (n : RaftNodeInner MemStorage) (input : Input)
    (crashAt : Option ℕ) : Decidable (SnapshotsAdvance cfg n input crashAt) := by
  unfold SnapshotsAdvance
  split
  · infer_instance
  · infer_instance

/-- The positions of the log stay what its indices say. -/
abbrev LogKept : Condition MemStorage := StartsInLog.and SnapshotsAdvance

/-- An accepted batch does not end before the commit index. -/
def CommitKept : Condition MemStorage := fun _ n input _ =>
  match input with
  | .appendEntries req =>
    Accepts n req = true → req.entries ≠ [] →
      n.sm.commitIndex ≤ req.prevLogIndex + req.entries.length
  | _ => True

instance (cfg : RaftConfig) (n : RaftNodeInner MemStorage) (input : Input)
    (crashAt : Option ℕ) : Decidable (CommitKept cfg n input crashAt) := by
  unfold CommitKept
  split
  · infer_instance
  · infer_instance

/-- An index behind the commit index that the next commit step would take: of the current
term, and held by a quorum. -/
def Committable (cfg : RaftConfig) (n : RaftNodeInner MemStorage) (k : ℕ) : Prop :=
  n.sm.commitIndex < k ∧ unwrapOr (n.storage.term k) 0 = n.sm.currentTerm ∧
    cfg.quorum ≤ n.sm.replicated k

instance (cfg : RaftConfig) (n : RaftNodeInner MemStorage) (k : ℕ) :
    Decidable (Committable cfg n k) := inferInstanceAs (Decidable (_ ∧ _))

/-- When the timer branch runs, either there is nothing to apply, now or after the commit
step, or the node is a leader whose heartbeat is due and whose log holds what is to be
applied.  For a node that does not lead only the first is possible: since it last had nothing
to apply, as after a boot, nothing may have raised its commit index, which is what a request
does that tells a higher one. -/
def TimerDelivers : Condition MemStorage := fun cfg n input _ =>
  match input with
  | .timer _ heartbeatDue =>
    (n.sm.lastApplied = n.sm.commitIndex ∧
      (n.sm.role = .leader → heartbeatDue = true →
        ∀ k ≤ n.storage.lastIndex, ¬ Committable cfg n k)) ∨
    (n.sm.role = .leader ∧ heartbeatDue = true ∧ n.storage.firstIndex ≤ n.sm.lastApplied + 1 ∧
      IndicesOrdered n)
  | _ => True

instance (cfg : RaftConfig) (n : RaftNodeInner MemStorage) (input : Input)
    (crashAt : Option ℕ) : Decidable (TimerDelivers cfg n input crashAt) := by
  unfold TimerDelivers
  split
  · infer_instance
  · infer_instance

/-- A snapshot that is installed covers nothing the node has not applied. -/
def SnapshotsApplied : Condition MemStorage := fun _ n input _ =>
  match input with
  | .installSnapshot req =>
    n.sm.currentTerm ≤ req.term → req.lastIncludedIndex ≤ n.sm.lastApplied
  | _ => True

instance (cfg : RaftConfig) (n : RaftNodeInner MemStorage) (input : Input)
    (crashAt : Option ℕ) : Decidable (SnapshotsApplied cfg n input crashAt) := by
  unfold SnapshotsApplied
  split
  · infer_instance
  · infer_instance

/-- The process does not crash while the persisted commit index is above what was applied. -/
def CrashesApplied : Condition MemStorage := fun cfg n input crashAt =>
  match crashAt with
  | some k =>
    ((NodeTurn.run cfg input (Turn.start n)).cutNode n k).storage.hardState.commit ≤
      ((NodeTurn.run cfg input (Turn.start n)).cutNode n k).sm.lastApplied
  | none => True

instance (cfg : RaftConfig) (n : RaftNodeInner MemStorage) (input : Input)
    (crashAt : Option ℕ) : Decidable (CrashesApplied cfg n input crashAt) := by
  unfold CrashesApplied
  split
  · infer_instance
  · infer_instance

/-- An accepted batch leaves the entries that proposals wait for as they are. -/
def PendingKept : Condition MemStorage := fun _ n input _ =>
  match input with
  | .appendEntries req =>
    Accepts n req = true → req.entries ≠ [] → ∀ w ∈ n.pending, w.1 ≤ req.prevLogIndex ∨
      (req.entries.map protoEntryToLogEntry).find? (fun e => decide (e.index = w.1)) =
        n.storage.get? w.1
  | _ => True

instance (cfg : RaftConfig) (n : RaftNodeInner MemStorage) (input : Input)
    (crashAt : Option ℕ) : Decidable (PendingKept cfg n input crashAt) := by
  unfold PendingKept
  split
  · infer_instance
  · infer_instance

/-- A leader is told the outcome of an AppendEntries request in its own term only. -/
def ResponsesCurrent : Condition σ := fun _ n input _ =>
  match input with
  | .message (.appendResponse _ _ resp) => n.sm.role = .leader → n.sm.currentTerm ≤ resp.term
  | _ => True

instance (cfg : RaftConfig) (n : RaftNodeInner σ) (input : Input) (crashAt : Option ℕ) :
    Decidable (ResponsesCurrent cfg n input crashAt) := by
  unfold ResponsesCurrent
  split
  · infer_instance
  · infer_instance

/-- A rejection that a leader is told does not reach back into what the peer acknowledged:
its hint lies behind the match index, and one without a hint finds room below the next
index. -/
def RejectionsAhead : Condition σ := fun _ n input _ =>
  match input with
  | .message (.appendResponse peer _ resp) =>
    resp.success = false → n.sm.role = .leader → resp.term ≤ n.sm.currentTerm →
      ∀ pr ∈ n.sm.progress.lookup peer,
        if resp.conflictIndex > 0 then pr.matchIndex < resp.conflictIndex
        else pr.matchIndex = 0 ∨ pr.matchIndex + 1 < pr.nextIndex
  | _ => True

instance (cfg : RaftConfig) (n : RaftNodeInner σ) (input : Input) (crashAt : Option ℕ) :
    Decidable (RejectionsAhead cfg n input crashAt) := by
  unfold RejectionsAhead
  split
  · infer_instance
  · infer_instance

/-- A batch that a leader accepts in its own term does not end before its log does. -/
def LeaderLogKept : Condition MemStorage := fun _ n input _ =>
  match input with
  | .appendEntries req =>
    n.sm.role = .leader → req.term = n.sm.currentTerm → Accepts n req = true →
      req.entries ≠ [] → n.storage.lastIndex ≤ req.prevLogIndex + req.entries.length
  | _ => True

instance (cfg : RaftConfig) (n : RaftNodeInner MemStorage) (input : Input)
    (crashAt : Option ℕ) : Decidable (LeaderLogKept cfg n input crashAt) := by
  unfold LeaderLogKept
  split
  · infer_instance
  · infer_instance

/-- A storage as its two constructors leave it. -/
def Fresh (s : MemStorage) : Prop := s = .new ∨ ∃ snap, s = .withSnapshot snap

end Cluster

end IceRaft
