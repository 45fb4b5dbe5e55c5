import IceRaft.Analysis.MemLog
import IceRaft.Analysis.SnapshotTurns

/-!
# What a leader's requests do to a follower

Over `MemStorage`, a request that passes the checks on the term and on the previous entry
appends its batch and succeeds; one that fails the second check is refused with a hint.
A snapshot in one chunk is installed.
-/

set_option autoImplicit false

namespace IceRaft

open MemStorage Cluster

namespace NodeTurn

variable {req : AppendEntriesRequest} {x : NodeTurn MemStorage}

/-- A request is accepted if its term is current and its previous entry is there. -/
theorem accepts_iff (n : RaftNodeInner MemStorage) (req : AppendEntriesRequest) :
    Accepts n req = true ↔ n.sm.currentTerm ≤ req.term ∧ PrevOk n.storage req := by
  unfold Accepts PrevOk
  rw [Bool.and_eq_true, Bool.or_eq_true, decide_eq_true_eq, decide_eq_true_eq]
  refine and_congr_right fun _ => or_congr_right ?_
  cases n.storage.term req.prevLogIndex with
  | ok t => simp
  | error e => cases e <;> simp

/-- Where the previous entry is there, the check passes. -/
theorem checkPrevLog_of_prevOk (h : PrevOk x.node.storage req) :
    x.checkPrevLog req = (none, x) := by
  unfold checkPrevLog
  split
  · rename_i hpos
    rw [read_term]
    rcases h with h0 | hok | ⟨r, f, herr⟩
    · omega
    · rw [hok]
      dsimp only
      rw [if_neg (not_not_intro rfl)]
    · rw [herr]
  · rfl

/-- The hint of a refusal names an index up to the previous one, or the one behind it when
the previous entry is the last one of the snapshot. -/
theorem checkPrevLog_of_not (h : ¬ PrevOk x.node.storage req) :
    ∃ c t, x.checkPrevLog req = (some (reject c t x.sm.currentTerm), x) ∧ 1 ≤ c ∧
      c ≤ req.prevLogIndex + 1 ∧
      (c ≤ req.prevLogIndex ↔ x.node.storage.firstIndex ≤ req.prevLogIndex) := by
  have hone := x.node.storage.one_le_firstIndex
  have hpos : req.prevLogIndex > 0 := Nat.pos_of_ne_zero fun h0 => h (.inl h0)
  unfold checkPrevLog
  rw [if_pos hpos, read_term]
  cases ht : x.node.storage.term req.prevLogIndex with
  | ok t =>
    dsimp only
    have hne : t ≠ req.prevLogTerm := fun heq => h (.inr (.inl (by rw [ht, heq])))
    rw [if_pos hne, firstIndexOfTerm_eq]
    by_cases hfirst : x.node.storage.firstIndex ≤ req.prevLogIndex
    · obtain ⟨hlo, hhi⟩ := bisect_mem (termBelow x.node.storage t) hfirst
      exact ⟨_, _, rfl, hone.trans hlo, Nat.le_succ_of_le hhi, iff_of_true hhi hfirst⟩
    · -- the loop does not run, and the hint is the first index
      have hle := firstIndex_le_of_term hpos ht
      rw [bisect_of_le _ (by omega)]
      exact ⟨_, _, rfl, hone, hle, Iff.rfl⟩
  | error e =>
    have hfirst (hcause : ∀ r f, e ≠ .logCompacted r f) :
        x.node.storage.firstIndex ≤ req.prevLogIndex := firstIndex_le_of_error ht hcause
    cases e with
    | logCompacted r f => exact absurd (.inr (.inr ⟨r, f, ht⟩)) h
    | _ =>
      have hin := hfirst fun _ _ => RaftError.noConfusion
      exact ⟨_, _, rfl, hpos, Nat.le_succ _, iff_of_true (Nat.le_refl _) hin⟩

/-- Log and snapshot buffer as told, and the term of the request. -/
structure Contents (n : RaftNodeInner MemStorage) (entries : List LogEntry)
    (snapshot : Option Snapshot) (buf : Option (SnapshotMetadata × Bytes)) (term : ℕ) : Prop where
  entries : n.storage.entries = entries
  snapshot : n.storage.snapshot = snapshot
  snapshotBuf : n.snapshotBuf = buf
  term : n.sm.currentTerm = term

/-- A request of at least our term makes its term ours. -/
theorem descend_contents (leaderId : Option NodeId) {term : ℕ} (hterm : x.sm.currentTerm ≤ term) :
    Contents (x.descend term leaderId).node x.node.storage.entries x.node.storage.snapshot
      x.node.snapshotBuf term := by
  obtain ⟨hentries, hsnapshot⟩ := descend_log term leaderId x
  refine ⟨hentries, hsnapshot, descend_snapshotBuf term leaderId x, ?_⟩
  rw [descend_term, Nat.max_eq_right hterm]

/-- A batch is always written. -/
theorem appendBatch_eq (req : AppendEntriesRequest) (x : NodeTurn MemStorage) :
    (x.appendBatch req).1 = .ok () ∧ (x.appendBatch req).2.node =
      x.node.setStorage (x.node.storage.appendEntries (req.entries.map protoEntryToLogEntry)) := by
  unfold appendBatch
  cases req.entries with
  | nil => exact ⟨rfl, rfl⟩
  | cons e es => exact ⟨rfl, rfl⟩

/-- A follower's commit index is outside the log. -/
theorem advanceCommit_contents {es : List LogEntry} {snapshot : Option Snapshot}
    {buf : Option (SnapshotMetadata × Bytes)} {term : ℕ} (req : AppendEntriesRequest)
    (h : Contents x.node es snapshot buf term) :
    Contents (x.advanceCommit req).node es snapshot buf term := by
  unfold advanceCommit
  split
  · exact ⟨h.entries, h.snapshot, h.snapshotBuf, h.term⟩
  · exact h

/-- The turn behind the check on the term: in the term of the request, under its leader. -/
def recognise (req : AppendEntriesRequest) (x : NodeTurn MemStorage) : NodeTurn MemStorage :=
  (x.descend req.term (some req.leaderId)).modifySm
    fun sm => { sm with leaderId := some req.leaderId }

/-- Behind the check on the term the log is as it was, and the term is that of the request. -/
theorem recognise_contents (hterm : x.sm.currentTerm ≤ req.term) :
    Contents (recognise req x).node x.node.storage.entries x.node.storage.snapshot
      x.node.snapshotBuf req.term := by
  have hy := descend_contents (x := x) (some req.leaderId) hterm
  exact ⟨hy.entries, hy.snapshot, hy.snapshotBuf, hy.term⟩

/-- So are the commit and the last applied index. -/
theorem recognise_indices (req : AppendEntriesRequest) (x : NodeTurn MemStorage) :
    (recognise req x).sm.commitIndex = x.sm.commitIndex ∧
      (recognise req x).sm.lastApplied = x.sm.lastApplied := by
  unfold recognise descend
  split
  · exact ⟨rfl, rfl⟩
  · exact ⟨rfl, rfl⟩

/-- What is left of a request that passes the checks: its batch, and the commit index. -/
theorem onAppendEntries_passed (h : Accepts x.node req = true) : x.onAppendEntries req =
    (.ok ⟨(((recognise req x).appendBatch req).2.advanceCommit req).sm.currentTerm, true, 0, 0⟩,
      (((recognise req x).appendBatch req).2.advanceCommit req).modifyMetrics fun m =>
        { m with appendEntriesReceived := m.appendEntriesReceived + 1 }) := by
  obtain ⟨hterm, hprev⟩ := (accepts_iff _ _).mp h
  have hz := recognise_contents (x := x) hterm
  have hprev' : PrevOk (recognise req x).node.storage req := by
    rw [eq_of_log hz.entries hz.snapshot]
    exact hprev
  obtain ⟨hok, -⟩ := appendBatch_eq req (recognise req x)
  have hcheck := checkPrevLog_of_prevOk hprev'
  have hle : ¬ req.term < (x.descend req.term (some req.leaderId)).sm.currentTerm :=
    Nat.not_lt.mpr (Nat.le_of_eq hz.term)
  unfold onAppendEntries
  dsimp only
  rw [← descend, if_neg hle, ← recognise, hcheck]
  dsimp only
  rw [show (recognise req x).appendBatch req = (.ok (), ((recognise req x).appendBatch req).2) from
    Prod.ext hok rfl]
  rfl

/-- A request whose previous entry does not match is refused without a change, with a hint
behind which the previous index is at most one. -/
theorem onAppendEntries_failed (hterm : x.sm.currentTerm ≤ req.term)
    (h : ¬ PrevOk x.node.storage req) : ∃ c t, 1 ≤ c ∧ c ≤ req.prevLogIndex + 1 ∧
      (c ≤ req.prevLogIndex ↔ x.node.storage.firstIndex ≤ req.prevLogIndex) ∧
      x.onAppendEntries req = (.ok (reject c t req.term), recognise req x) := by
  have hz := recognise_contents (x := x) hterm
  have hlog := eq_of_log hz.entries hz.snapshot
  have hle : ¬ req.term < (x.descend req.term (some req.leaderId)).sm.currentTerm :=
    Nat.not_lt.mpr (Nat.le_of_eq hz.term)
  obtain ⟨c, t, hcheck, hlo, hhi, hin⟩ := @checkPrevLog_of_not req (recognise req x)
    (by rw [hlog]; exact h)
  rw [hlog] at hin
  refine ⟨c, t, hlo, hhi, hin, ?_⟩
  unfold onAppendEntries
  dsimp only
  rw [← descend, if_neg hle, ← recognise, hcheck]
  dsimp only
  rw [show (recognise req x).sm.currentTerm = req.term from hz.term]

/-- A request that passes the checks appends its batch and succeeds. -/
theorem onAppendEntries_accepted (h : Accepts x.node req = true) :
    (x.onAppendEntries req).1 = .ok ⟨req.term, true, 0, 0⟩ ∧
      Contents (x.onAppendEntries req).2.node
        (x.node.storage.appendEntries (req.entries.map protoEntryToLogEntry)).entries
        x.node.storage.snapshot x.node.snapshotBuf req.term := by
  have hz := recognise_contents (x := x) ((accepts_iff _ _).mp h).1
  have hlog := eq_of_log hz.entries hz.snapshot
  rw [onAppendEntries_passed h]
  obtain ⟨-, hnode⟩ := appendBatch_eq req (recognise req x)
  have hw : Contents ((recognise req x).appendBatch req).2.node
      (x.node.storage.appendEntries (req.entries.map protoEntryToLogEntry)).entries
      x.node.storage.snapshot x.node.snapshotBuf req.term := by
    rw [hnode, hlog]
    refine ⟨?_, ?_, hz.snapshotBuf, hz.term⟩
    · cases req.entries.map protoEntryToLogEntry with
      | nil => rfl
      | cons e es => rfl
    · exact (appendEntries_snapshot _ _).trans rfl
  have hv := advanceCommit_contents req hw
  generalize ((recognise req x).appendBatch req).2.advanceCommit req = v at hv
  refine ⟨?_, hv.entries, hv.snapshot, hv.snapshotBuf, hv.term⟩
  exact congrArg Except.ok (congrArg (AppendEntriesResponse.mk · true 0 0) hv.term)

/-- The commit index behind a request that passes the checks. -/
theorem onAppendEntries_commit (h : Accepts x.node req = true) :
    (x.onAppendEntries req).2.sm.commitIndex =
      if req.leaderCommit > x.sm.commitIndex then
        min req.leaderCommit
          (x.node.storage.appendEntries (req.entries.map protoEntryToLogEntry)).lastIndex
      else x.sm.commitIndex := by
  have hz := recognise_contents (x := x) ((accepts_iff _ _).mp h).1
  obtain ⟨hcommit, -⟩ := recognise_indices req x
  obtain ⟨-, hnode⟩ := appendBatch_eq req (recognise req x)
  rw [onAppendEntries_passed h]
  show (((recognise req x).appendBatch req).2.advanceCommit req).sm.commitIndex = _
  have hsm : ((recognise req x).appendBatch req).2.sm = (recognise req x).sm := by
    unfold sm
    rw [hnode]
    rfl
  have hlast : ((recognise req x).appendBatch req).2.node.storage.lastIndex =
      (x.node.storage.appendEntries (req.entries.map protoEntryToLogEntry)).lastIndex := by
    rw [hnode, eq_of_log hz.entries hz.snapshot]
    cases req.entries.map protoEntryToLogEntry with
    | nil => rfl
    | cons e es => rfl
  unfold advanceCommit
  rw [hsm, hcommit, lastIndexOr0_eq, hlast]
  split
  · rfl
  · rw [hsm, hcommit]

/-- A request whose previous entry does not match leaves the log alone, and the refusal
hints at an index up to the previous one. -/
theorem onAppendEntries_refused (hterm : x.sm.currentTerm ≤ req.term)
    (hfirst : x.node.storage.firstIndex ≤ req.prevLogIndex)
    (h : Accepts x.node req = false) :
    ∃ c t, (x.onAppendEntries req).1 = .ok (reject c t req.term) ∧ 1 ≤ c ∧
      c ≤ req.prevLogIndex ∧ Contents (x.onAppendEntries req).2.node x.node.storage.entries
        x.node.storage.snapshot x.node.snapshotBuf req.term := by
  have hprev : ¬ PrevOk x.node.storage req := by
    intro hprev
    rw [(accepts_iff _ _).mpr ⟨hterm, hprev⟩] at h
    cases h
  obtain ⟨c, t, hlo, -, hhi, hfailed⟩ := onAppendEntries_failed hterm hprev
  rw [hfailed]
  exact ⟨c, t, rfl, hlo, hhi.mpr hfirst, recognise_contents hterm⟩

/-- A last chunk: the snapshot that the buffer makes up with it is applied. -/
theorem onInstallSnapshot_applied {req : InstallSnapshotRequest}
    (hterm : x.sm.currentTerm ≤ req.term) (hdone : req.done = true) :
    (x.onInstallSnapshot req).1 = .ok ⟨req.term⟩ ∧
      Contents (x.onInstallSnapshot req).2.node
        (x.node.storage.applySnapshot (x.node.assembled req)).entries
        (some (x.node.assembled req)) none req.term := by
  have hy : Contents (x.recogniseSnapshot req).node x.node.storage.entries x.node.storage.snapshot
      x.node.snapshotBuf req.term := descend_contents (some req.leaderId) hterm
  obtain ⟨hresp, hsm, hempty, hstorage⟩ := onInstallSnapshot_installed (x := x) hterm hdone rfl
  unfold applyOutcome at hstorage
  rw [eq_of_log hy.entries hy.snapshot] at hstorage
  refine ⟨hresp, ?_, ?_, hempty, ?_⟩
  · rw [hstorage]
    rfl
  · rw [hstorage]
    rfl
  · show (x.onInstallSnapshot req).2.sm.currentTerm = _
    rw [hsm]
    exact hy.term

/-- A snapshot in one chunk, when nothing is buffered. -/
theorem onInstallSnapshot_whole {req : InstallSnapshotRequest} (hterm : x.sm.currentTerm ≤ req.term)
    (hdone : req.done = true) (hbuf : x.node.snapshotBuf = none) :
    (x.onInstallSnapshot req).1 = .ok ⟨req.term⟩ ∧
      Contents (x.onInstallSnapshot req).2.node
        (x.node.storage.applySnapshot req.snapshot).entries (some req.snapshot) none req.term := by
  rw [← RaftNodeInner.assembled_of_none hbuf]
  exact onInstallSnapshot_applied hterm hdone

end NodeTurn

end IceRaft
