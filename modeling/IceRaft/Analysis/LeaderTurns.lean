import IceRaft.Analysis.MemLog
import IceRaft.Analysis.Progress
import IceRaft.Analysis.PureReads

/-!
# What a leader's turn does to the node

Over `MemStorage`, replication only sends, notification only answers, and the commit step
sets the commit index to an index of the current term that a quorum holds, or leaves it.
-/

set_option autoImplicit false

namespace IceRaft

open MemStorage Cluster

namespace NodeTurn

variable {x : NodeTurn MemStorage} {cfg : RaftConfig}

/-- The commit loop stays where it is exactly when nothing can be committed. -/
theorem commitScan_eq_iff (cfg : RaftConfig) (n : ℕ) (x : NodeTurn MemStorage) :
    (x.commitScan cfg n).1 = x.sm.commitIndex ↔ ∀ k ≤ n, ¬ Committable cfg x.node k := by
  induction n with
  | zero =>
    apply iff_of_true rfl
    intro k hk hcom
    obtain rfl := Nat.le_zero.mp hk
    exact Nat.not_lt_zero _ hcom.1
  | succ n ih =>
    unfold commitScan
    rw [read_term]
    dsimp only
    split
    · rename_i hlt
      split
      · rename_i hfound
        refine iff_of_false (fun heq => ?_) fun hno => hno (n + 1) (Nat.le_refl _) ⟨hlt, hfound⟩
        exact absurd heq (Nat.ne_of_gt hlt)
      · rename_i hfound
        rw [ih]
        refine ⟨fun hno k hk => ?_, fun hno k hk => hno k (Nat.le_succ_of_le hk)⟩
        rcases Nat.lt_or_eq_of_le hk with hlt' | rfl
        · exact hno k (Nat.le_of_lt_succ hlt')
        · exact fun hcom => hfound hcom.2
    · rename_i hge
      apply iff_of_true rfl
      intro k hk hcom
      have hcommit : x.sm.commitIndex < k := hcom.1
      omega

/-- The commit index after `maybe_advance_commit`. -/
def nextCommit (cfg : RaftConfig) (x : NodeTurn MemStorage) : ℕ :=
  if x.sm.role = .leader then (x.commitScan cfg x.node.storage.lastIndex).1
  else x.sm.commitIndex

/-- It is the old one, or an index of the current term that a quorum holds. -/
theorem nextCommit_cases (cfg : RaftConfig) (x : NodeTurn MemStorage) :
    nextCommit cfg x = x.sm.commitIndex ∨
      (x.sm.role = .leader ∧ x.sm.commitIndex < nextCommit cfg x ∧
        nextCommit cfg x ≤ x.node.storage.lastIndex ∧
        unwrapOr (x.node.storage.term (nextCommit cfg x)) 0 = x.sm.currentTerm ∧
        cfg.quorum ≤ x.sm.replicated (nextCommit cfg x)) := by
  unfold nextCommit
  split
  · rename_i hlead
    exact (commitScan_cases cfg x.node.storage.lastIndex x).2.imp_right fun h => ⟨hlead, h⟩
  · exact .inl rfl

/-- The next commit index of a leader is the one it scans for. -/
theorem nextCommit_of_leader (cfg : RaftConfig) {x : NodeTurn MemStorage}
    (hlead : x.sm.role = .leader) :
    nextCommit cfg x = (x.commitScan cfg x.node.storage.lastIndex).1 := by
  unfold nextCommit
  rw [if_pos hlead]

/-- Where none is higher it stays. -/
theorem nextCommit_of_not_lt {cfg : RaftConfig} {x : NodeTurn MemStorage}
    (h : ¬ nextCommit cfg x > x.sm.commitIndex) : nextCommit cfg x = x.sm.commitIndex := by
  rcases nextCommit_cases cfg x with heq | ⟨-, hlt, -⟩
  · exact heq
  · exact absurd hlt h

/-- The commit step changes the commit index, and saves it. -/
theorem maybeAdvanceCommit_node (cfg : RaftConfig) (x : NodeTurn MemStorage) :
    (x.maybeAdvanceCommit cfg).node.sm = { x.node.sm with commitIndex := nextCommit cfg x } ∧
      (x.maybeAdvanceCommit cfg).node.storage.entries = x.node.storage.entries ∧
      (x.maybeAdvanceCommit cfg).node.storage.snapshot = x.node.storage.snapshot := by
  unfold maybeAdvanceCommit
  split
  · rename_i hrole
    have hsame : nextCommit cfg x = x.node.sm.commitIndex := by
      unfold nextCommit
      rw [if_neg hrole]
    rw [hsame]
    exact ⟨rfl, rfl, rfl⟩
  · rename_i hrole
    rw [lastIndexOr0_eq]
    dsimp only
    rw [(commitScan_cases cfg x.node.storage.lastIndex x).1,
      ← nextCommit_of_leader cfg (Decidable.not_not.mp hrole)]
    split
    · rw [notifyPending_node]
      exact ⟨rfl, rfl, rfl⟩
    · rename_i hle
      rw [notifyPending_node, nextCommit_of_not_lt hle]
      exact ⟨rfl, rfl, rfl⟩

/-- A leader's commit step answers what the new commit index has reached. -/
theorem maybeAdvanceCommit_pending (cfg : RaftConfig) {x : NodeTurn MemStorage}
    (hlead : x.sm.role = .leader) :
    (x.maybeAdvanceCommit cfg).node.pending =
        x.node.pending.filter (fun w => decide (nextCommit cfg x < w.1)) ∧
      (x.maybeAdvanceCommit cfg).node.snapshotBuf = x.node.snapshotBuf := by
  unfold maybeAdvanceCommit
  rw [if_neg (not_not_intro hlead), lastIndexOr0_eq]
  dsimp only
  rw [(commitScan_cases cfg x.node.storage.lastIndex x).1, ← nextCommit_of_leader cfg hlead]
  split
  · rw [notifyPending_node]
    exact ⟨rfl, rfl⟩
  · rename_i hle
    rw [notifyPending_node, nextCommit_of_not_lt hle]
    exact ⟨rfl, rfl⟩

/-- Applying consecutive entries moves the last applied index to the last of them. -/
theorem applyAll_sm (es : List LogEntry) (x : NodeTurn MemStorage)
    (hcons : Consecutive (x.sm.lastApplied + 1) es) :
    (es.foldl applyOne x).sm = { x.sm with lastApplied := x.sm.lastApplied + es.length } := by
  induction es generalizing x with
  | nil => rfl
  | cons e es ih =>
    have hidx : e.index = x.sm.lastApplied + 1 := hcons 0 (Nat.succ_pos _)
    rw [List.foldl_cons, ih]
    · show { x.sm with lastApplied := e.index + es.length } = _
      rw [hidx, List.length_cons, Nat.add_right_comm, Nat.add_assoc]
    · intro k hk
      have hnext := hcons (k + 1) (Nat.succ_lt_succ hk)
      rw [List.getElem_cons_succ] at hnext
      show es[k].index = e.index + 1 + k
      omega

/-- Everything committed is applied, when the log holds it. -/
theorem applyCommitted_sm (halign : x.node.storage.Aligned)
    (hlo : x.node.storage.firstIndex ≤ x.sm.lastApplied + 1)
    (hle : x.sm.lastApplied ≤ x.sm.commitIndex)
    (hhi : x.sm.commitIndex ≤ x.node.storage.lastIndex) :
    x.applyCommitted.sm = { x.sm with lastApplied := x.sm.commitIndex } := by
  unfold applyCommitted
  dsimp only
  split
  · have heq : x.sm.lastApplied = x.sm.commitIndex := by omega
    generalize x.sm = m at heq
    cases m
    cases heq
    rfl
  · rw [read_entries, halign.readEntries_none hlo (by omega) (by omega)]
    dsimp only
    have hlast := halign.lastIndex_succ
    rw [applyAll_sm _ _ (halign.consecutive_drop hlo _), List.length_take, List.length_drop]
    have hlen : min (x.sm.commitIndex + 1 - (x.sm.lastApplied + 1)) (x.node.storage.entries.length -
        (x.sm.lastApplied + 1 - x.node.storage.firstIndex)) =
          x.sm.commitIndex - x.sm.lastApplied := by omega
    rw [hlen, Nat.add_sub_cancel' hle]

/-- Nothing is applied when nothing is committed. -/
theorem applyCommitted_of_ge (hge : x.sm.commitIndex ≤ x.sm.lastApplied) :
    x.applyCommitted = x := by
  unfold applyCommitted
  dsimp only
  rw [if_pos (by omega)]

/-! ## Elections -/

/-- A new leader starts with its own last index. -/
theorem takeLeadership_sm (x : NodeTurn MemStorage) : (x.takeLeadership cfg).sm =
    x.sm.becomeLeader cfg.id x.node.storage.lastIndex cfg.peers := by
  unfold takeLeadership sm
  rw [lastIndexOr0_eq]
  dsimp only
  rw [replicateAll_node]
  rfl

/-- It has committed and applied what it had before. -/
theorem takeLeadership_indices (cfg : RaftConfig) (x : NodeTurn MemStorage) :
    (x.takeLeadership cfg).sm.commitIndex = x.sm.commitIndex ∧
      (x.takeLeadership cfg).sm.lastApplied = x.sm.lastApplied := by
  rw [takeLeadership_sm]
  exact ⟨rfl, rfl⟩

/-- A fan-out of vote requests only sends. -/
theorem fanOut_node (l : List NodeId) (req : RequestVoteRequest) (x : NodeTurn MemStorage) :
    (l.foldl (fun y peer => y.effect (.spawned (.requestVote peer req))) x).node = x.node := by
  refine Turn.foldl_keeps Turn.node (fun y peer => ?_) l x
  rfl

/-- So has a candidate. -/
theorem startElection_indices (cfg : RaftConfig) (x : NodeTurn MemStorage) :
    (x.startElection cfg).sm.commitIndex = x.sm.commitIndex ∧
      (x.startElection cfg).sm.lastApplied = x.sm.lastApplied := by
  unfold startElection
  dsimp only
  have hstart : (x.modifySm (.becomeCandidate cfg.id)).saveHardState.sm.commitIndex =
        x.sm.commitIndex ∧
      (x.modifySm (.becomeCandidate cfg.id)).saveHardState.sm.lastApplied = x.sm.lastApplied :=
    ⟨rfl, rfl⟩
  generalize (x.modifySm (.becomeCandidate cfg.id)).saveHardState = y at hstart ⊢
  rw [lastIndexOr0_eq, termOr0_eq]
  dsimp only
  generalize (if y.node.storage.lastIndex > 0 then
    unwrapOr (y.node.storage.term y.node.storage.lastIndex) 0 else 0) = t
  have hfan : ∀ req : RequestVoteRequest, (cfg.peers.foldl (fun z peer =>
      z.effect (.spawned (.requestVote peer req)))
      (modifyMetrics (fun m => { m with electionsStarted := m.electionsStarted + 1 })
        (y.effect (.electionStarted y.sm.currentTerm)))).sm = y.sm := by
    intro req
    unfold sm
    rw [fanOut_node]
    rfl
  split
  · obtain ⟨hc, hl⟩ := takeLeadership_indices cfg (cfg.peers.foldl (fun z peer =>
      z.effect (.spawned (.requestVote peer _))) _)
    rw [hc, hl, hfan]
    exact hstart
  · rw [hfan]
    exact hstart

end NodeTurn

end IceRaft
