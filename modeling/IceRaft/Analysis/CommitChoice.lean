import IceRaft.Analysis.Progress
import IceRaft.Analysis.PureReads
import IceRaft.Analysis.VoteFrame
import IceRaft.Lib.DownwardScan

/-!
# The index a leader commits

`maybe_advance_commit` and `RaftStateMachine::maybe_commit` scan the log downwards for an
index of the current term that a quorum holds.  Both are the same scan, so both choose the
greatest such index, over any storage whose reads leave it as it is.
-/

set_option autoImplicit false

namespace IceRaft

variable {σ : Type} [Storage σ]

/-- `storage.last_index().await.unwrap_or(0)` -/
def lastIndexOf (n : RaftNodeInner σ) : ℕ := unwrapOr (Storage.lastIndex n.storage).1 0

/-- `storage.term(index).await.ok()` -/
def termOf (n : RaftNodeInner σ) (index : ℕ) : Option ℕ := (Storage.term index n.storage).1.toOption

/-- The entry at `k` is of the term of the node, and a quorum holds it. -/
abbrev HeldInTerm (cfg : RaftConfig) (n : RaftNodeInner σ) (k : ℕ) : Prop :=
  termOf n k = some n.sm.currentTerm ∧ cfg.quorum ≤ n.sm.replicated k

/-- The indices a leader may commit: behind its commit index, up to the end of the log, of
its term, and held by a quorum. -/
def CommitCandidates (cfg : RaftConfig) (n : RaftNodeInner σ) : Set ℕ :=
  {k | n.sm.commitIndex < k ∧ k ≤ lastIndexOf n ∧ HeldInTerm cfg n k}

/-- Where the scan for such an index ends. -/
def commitChoice (cfg : RaftConfig) (n : RaftNodeInner σ) (upto : ℕ) : Option ℕ :=
  scanDown (HeldInTerm cfg n) n.sm.commitIndex upto

/-- A term from 1 on is read where the default of a failed read is not. -/
theorem unwrapOr_zero_eq_iff {r : Except RaftError ℕ} {t : ℕ} (ht : 1 ≤ t) :
    unwrapOr r 0 = t ↔ r.toOption = some t := by
  cases r with
  | ok a => exact ⟨congrArg some, Option.some.inj⟩
  | error e =>
    constructor
    · intro h
      have hzero : 0 = t := h
      omega
    · intro h
      cases h

/-! ## Two scans -/

namespace RaftStateMachine

/-- The loop of `maybe_commit` is a scan. -/
theorem maybeCommitFrom_eq (sm : RaftStateMachine) (quorum term : ℕ) (termOf : ℕ → Option ℕ)
    (n : ℕ) : sm.maybeCommitFrom quorum term termOf n =
      match scanDown (fun k => termOf k = some term ∧ quorum ≤ sm.replicated k)
        sm.commitIndex n with
      | some k => ({ sm with commitIndex := k }, some k)
      | none => (sm, none) := by
  induction n with
  | zero => rfl
  | succ n ih =>
    unfold maybeCommitFrom scanDown
    split
    · by_cases hterm : termOf (n + 1) = some term
      · rw [if_neg (not_not_intro hterm)]
        by_cases hq : quorum ≤ sm.replicated (n + 1)
        · rw [if_pos hq, if_pos ⟨hterm, hq⟩]
        · rw [if_neg hq, if_neg fun h => hq h.2, ih]
      · rw [if_pos hterm, if_neg fun h => hterm h.1, ih]
    · rfl

end RaftStateMachine

namespace NodeTurn

variable [StableReads σ] {cfg : RaftConfig}

/-- The loop of `maybe_advance_commit` is a scan. -/
theorem commitScan_eq (cfg : RaftConfig) (n : ℕ) (x : NodeTurn σ)
    (hterm : 1 ≤ x.sm.currentTerm) : x.commitScan cfg n =
      ((commitChoice cfg x.node n).getD x.sm.commitIndex, x) := by
  unfold commitChoice
  induction n with
  | zero => rfl
  | succ n ih =>
    unfold commitScan scanDown
    rw [read_stable (StableReads.term_stable (n + 1) _)]
    dsimp only
    split
    · have hread := unwrapOr_zero_eq_iff (r := (Storage.term (n + 1) x.node.storage).1) hterm
      by_cases hfound : HeldInTerm cfg x.node (n + 1)
      · rw [if_pos hfound, if_pos ⟨hread.mpr hfound.1, hfound.2⟩]
        rfl
      · rw [if_neg hfound, if_neg fun h => hfound ⟨hread.mp h.1, h.2⟩, ih]
    · rfl

/-- A leader's commit step, by what the scan finds. -/
theorem maybeAdvanceCommit_eq (cfg : RaftConfig) {x : NodeTurn σ} (hrole : x.sm.role = .leader)
    (hterm : 1 ≤ x.sm.currentTerm) : x.maybeAdvanceCommit cfg =
      (match commitChoice cfg x.node (lastIndexOf x.node) with
      | some k =>
        ((x.modifySm fun sm => { sm with commitIndex := k }).saveHardState).modifyMetrics fun m =>
          { m with
            entriesCommitted := m.entriesCommitted + u64Sub k x.sm.lastApplied,
            commitIndex := asI64 k }
      | none => x).notifyPending := by
  have hlast : x.lastIndexOr0 = (lastIndexOf x.node, x) := by
    unfold lastIndexOr0
    rw [read_stable (StableReads.lastIndex_stable _)]
    rfl
  unfold maybeAdvanceCommit
  rw [if_neg (not_not_intro hrole), hlast]
  dsimp only
  rw [commitScan_eq cfg _ x hterm]
  cases hscan : commitChoice cfg x.node (lastIndexOf x.node) with
  | none => exact congrArg notifyPending (if_neg (Nat.lt_irrefl x.sm.commitIndex))
  | some k => exact congrArg notifyPending (if_pos (scanDown_eq_some hscan).1.1)

/-- It sets the commit index to what the scan finds. -/
theorem maybeAdvanceCommit_scan (cfg : RaftConfig) {x : NodeTurn σ} (hrole : x.sm.role = .leader)
    (hterm : 1 ≤ x.sm.currentTerm) : (x.maybeAdvanceCommit cfg).sm = { x.sm with
      commitIndex := (commitChoice cfg x.node (lastIndexOf x.node)).getD x.sm.commitIndex } := by
  rw [maybeAdvanceCommit_eq cfg hrole hterm]
  unfold sm
  rw [notifyPending_node]
  cases commitChoice cfg x.node (lastIndexOf x.node) with
  | none => rfl
  | some k => rfl

end NodeTurn

/-! ## The choice -/

variable [StableReads σ]

/-- **The commit step takes the greatest index it may.**  The commit index of a leader after
`maybe_advance_commit` is the greatest of the indices it may commit, and the old one when there
is none; `maybe_commit`, given the same quorum, last index, term and term lookup, ends with the
same state and returns the new commit index exactly when there is one.
SRCLINE: iceraft-node/src/node.rs:749-789, iceraft-node/src/state.rs:106-138 -/
theorem commit_greatest (cfg : RaftConfig) (n : RaftNodeInner σ) (hrole : n.sm.role = .leader)
    (hterm : 1 ≤ n.sm.currentTerm) :
    let after := (NodeTurn.maybeAdvanceCommit cfg (Turn.start n)).sm
    let twin := n.sm.maybeCommit cfg.quorum (lastIndexOf n) n.sm.currentTerm (termOf n)
    (IsGreatest (CommitCandidates cfg n) after.commitIndex ∨
      (CommitCandidates cfg n = ∅ ∧ after.commitIndex = n.sm.commitIndex)) ∧
    twin.1 = after ∧ (twin.2.isSome = true ↔ n.sm.commitIndex < after.commitIndex) ∧
    ∀ k, twin.2 = some k → k = after.commitIndex := by
  intro after twin
  have hafter : after = { n.sm with
      commitIndex := (commitChoice cfg n (lastIndexOf n)).getD n.sm.commitIndex } :=
    NodeTurn.maybeAdvanceCommit_scan cfg (x := Turn.start n) hrole hterm
  have htwin : twin = match commitChoice cfg n (lastIndexOf n) with
      | some k => ({ n.sm with commitIndex := k }, some k)
      | none => (n.sm, none) :=
    n.sm.maybeCommitFrom_eq cfg.quorum n.sm.currentTerm (termOf n) (lastIndexOf n)
  rw [hafter, htwin]
  cases hscan : commitChoice cfg n (lastIndexOf n) with
  | none =>
    refine ⟨.inr ⟨scanDown_eq_none hscan, rfl⟩, rfl, ?_, ?_⟩
    · exact iff_of_false Bool.false_ne_true (Nat.lt_irrefl _)
    · intro k hk
      cases hk
  | some k =>
    have hbest : IsGreatest (CommitCandidates cfg n) k := scanDown_eq_some hscan
    refine ⟨.inl hbest, rfl, iff_of_true rfl hbest.1.1, ?_⟩
    intro j hj
    exact (Option.some.inj hj).symm

/-- A leader of term 2 with an entry of term 1 and two of its own; one of its two peers holds
all of them. -/
def leaderWithAck : RaftNodeInner MemStorage where
  sm :=
    { currentTerm := 2, role := .leader, commitIndex := 1, leaderId := some 1,
      progress := (RaftStateMachine.freshProgress 1 [2, 3]).insert 2 ⟨4, 3, false⟩ }
  storage :=
    { entries := [⟨1, 1, [], .normal⟩, ⟨2, 2, [7], .normal⟩, ⟨2, 3, [8], .normal⟩] }
  metrics := {}
  pending := []
  snapshotBuf := none

/-- Of a leader whose peer has acknowledged more than is committed, the greatest index is taken. -/
theorem commit_greatest_leaderWithAck :
    let cfg : RaftConfig := { id := 1, peers := [2, 3] }
    let after := (NodeTurn.maybeAdvanceCommit cfg (Turn.start leaderWithAck)).sm
    let twin := leaderWithAck.sm.maybeCommit cfg.quorum (lastIndexOf leaderWithAck) 2
      (termOf leaderWithAck)
    after.commitIndex = 3 ∧
    (IsGreatest (CommitCandidates cfg leaderWithAck) after.commitIndex ∨
      (CommitCandidates cfg leaderWithAck = ∅ ∧ after.commitIndex = 1)) ∧
    twin.1 = after ∧ (twin.2.isSome = true ↔ 1 < after.commitIndex) ∧
    ∀ k, twin.2 = some k → k = after.commitIndex :=
  ⟨by decide +kernel, commit_greatest _ leaderWithAck rfl (by decide)⟩

end IceRaft
