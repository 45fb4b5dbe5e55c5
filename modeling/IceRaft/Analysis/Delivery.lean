import IceRaft.Analysis.BookkeepingRun
import IceRaft.Analysis.CommitSafety
import IceRaft.Analysis.FollowerTurns
import IceRaft.Analysis.LaunchRuns
import IceRaft.Analysis.LeaderTurns
import IceRaft.Analysis.Transitions

/-!
# Delivery to the application

An index is accounted for when the history shows why it may count as applied.  Every place
that moves the last applied index forward has to account for the indices it passes: the
apply loop sends them, a restart takes them over from the disk, and a snapshot covers them.
-/

set_option autoImplicit false

namespace IceRaft

open Cluster MemStorage

/-- What it means that a history accounts for an index, when the log begins at `first`. -/
structure Account (D : List Effect → ℕ → ℕ → Prop) : Prop where
  grows : ∀ {H e first idx}, (∀ c, e ≠ .restored c) → D H first idx → D (H ++ [e]) first idx
  applied : ∀ H e first, D (H ++ [.applied e]) first e.index
  mono : ∀ {H first first' idx}, first ≤ first' → D H first idx → D H first' idx

/-- Every index that counts as applied is accounted for. -/
def AllDelivered (D : List Effect → ℕ → ℕ → Prop) (H : List Effect)
    (n : RaftNodeInner MemStorage) : Prop :=
  ∀ idx ≤ n.sm.lastApplied, D H n.storage.firstIndex idx

/-- A turn keeps the account, if the snapshots it installs are accounted for. -/
theorem delivered_keeps {D : List Effect → ℕ → ℕ → Prop} (hD : Account D) {h : List Effect}
    {n₀ : RaftNodeInner MemStorage} {input : Input}
    (hsnap : ∀ req, input = .installSnapshot req → n₀.sm.currentTerm ≤ req.term →
      ∀ H idx, n₀.sm.lastApplied < idx → idx ≤ req.lastIncludedIndex →
        D H (req.lastIncludedIndex + 1) idx) :
    Keeps .any h n₀ input (AllDelivered D) fun _ _ => True where
  aside := by
    intro H n n' hsame _ _ hI idx hidx
    rw [hsame.firstIndex]
    exact hI idx (by rw [← hsame.lastApplied]; exact hidx)
  note := by
    intro H n e he hI idx hidx
    refine hD.grows ?_ (hI idx hidx)
    rintro c rfl
    exact he
  save hI idx hidx := hD.grows nofun (hI idx hidx)
  batch := by
    intro H n req _ _ _ _ _ _ _ _ _ _ _ hI idx hidx
    show D _ (n.storage.appendEntries _).firstIndex idx
    rw [appendEntries_firstIndex]
    exact hD.grows nofun (hI idx hidx)
  commit _ _ hI := hI
  extend := by
    intro H n e _ _ _ hI idx hidx
    show D _ (n.storage.appendEntries [e]).firstIndex idx
    rw [appendEntries_firstIndex]
    exact hD.grows nofun (hI idx hidx)
  accept _ _ _ hI idx hidx := hD.grows nofun (hI idx hidx)
  forget _ hI := hI
  answer _ _ hI idx hidx := hD.grows nofun (hI idx hidx)
  readIndex _ hI idx hidx := hD.grows nofun (hI idx hidx)
  store := by
    intro H n req snap _ _ _ _ _ hsnapidx hlo hI idx hidx
    refine hD.grows nofun (hD.mono ?_ (hI idx hidx))
    show n.storage.firstIndex ≤ snap.metadata.lastIncludedIndex + 1
    rw [hsnapidx]
    exact hlo
  cover := by
    intro H n req hin hterm happlied _ hfirst hI idx hidx
    show D H n.storage.firstIndex idx
    by_cases hle : idx ≤ n.sm.lastApplied
    · exact hI idx hle
    · rw [hfirst]
      have hmax : idx ≤ max n.sm.lastApplied req.lastIncludedIndex := hidx
      exact hsnap req hin hterm H idx (by omega) (by omega)
  apply := by
    intro H n e _ _ hnext _ hI idx hidx
    have hle : idx ≤ e.index := hidx
    by_cases heq : idx = e.index
    · rw [heq]
      exact hD.applied H e _
    · exact hD.grows nofun (hI idx (by omega))
  send _ _ _ := trivial
  sendSnapshot _ _ := trivial
  at_answer _ _ _ _ := trivial
  at_readIndex _ _ := trivial
  at_other _ := trivial

/-! ## Nothing is skipped -/

/-- The index was sent on `apply_tx`, in this or an earlier uptime. -/
def EverSent (H : List Effect) (_ : ℕ) (idx : ℕ) : Prop :=
  idx = 0 ∨ ∃ e ∈ applications H, e.index = idx

/-- That an index was ever sent is an account. -/
theorem account_everSent : Account EverSent where
  grows := by
    rintro H e first idx - (h0 | ⟨a, ha, hidx⟩)
    · exact .inl h0
    · exact .inr ⟨a, mem_applications.mpr (List.mem_append_left _ (mem_applications.mp ha)), hidx⟩
  applied H e _ := .inr ⟨e, mem_applications.mpr (List.mem_append_right _ (by simp)), rfl⟩
  mono _ h := h

/-- With snapshots and crashes that skip nothing, every turn keeps this account. -/
theorem everSent_booking : Booking .any (AllDelivered EverSent)
    fun _ => LogKept.and (SnapshotsApplied.and CrashesApplied) where
  keeps := by
    intro h n cfg input crashAt _ _ hcond
    refine delivered_keeps account_everSent ?_
    rintro req rfl hterm H idx hlt hle
    have hcovered := hcond.2.1 hterm
    omega
  kept _ _ hcond := hcond.1
  boot := by
    intro h n cfg input k hcond turn cut _ hI idx hidx
    have hsaved : cut.storage.hardState.commit ≤ cut.sm.lastApplied := hcond.2.2
    rcases hI idx (Nat.le_trans hidx hsaved) with h0 | ⟨a, ha, hi⟩
    · exact .inl h0
    · exact .inr ⟨a, mem_applications.mpr (List.mem_append_left _ (mem_applications.mp ha)), hi⟩

/-- Where the processes restore as they start, every index up to the last applied one has been
sent. -/
theorem sent_of_applied {cc : ClusterConfig} {stores : NodeId → MemStorage} {es : List Event}
    {i : NodeId} {idx : ℕ} (hfresh : ∀ i, Fresh (stores i))
    (h : Within cc (LogKept.and (SnapshotsApplied.and CrashesApplied)) (init stores) es)
    (hi : i ∈ cc.members) (hidx : idx ≤ ((exec cc (init stores) es).sm i).lastApplied) :
    idx = 0 ∨ ∃ e ∈ applications ((exec cc (init stores) es).proc i).history, e.index = idx := by
  have hinit : Booking.Holds .any (AllDelivered EverSent) cc (init stores) := by
    refine Booking.holds_init fun i _ => ⟨(hfresh i).aligned, fun idx hidx => .inl ?_⟩
    have hzero : idx ≤ (stores i).hardState.commit := hidx
    rw [(hfresh i).commit] at hzero
    omega
  have hend := everSent_booking.holds_run (fun _ _ hok _ _ hin => hok.of_input hin) hinit h
  exact (hend.node i hi).2 idx hidx

/-- **Nothing is marked applied without being delivered.**  In a run in which no handler runs
before the restore block of its uptime, the log is kept aligned, no installed snapshot covers
an index the node has not applied, and no process crashes while its persisted commit index is
above its last applied one, every index up to the last applied one has been sent on `apply_tx`.
SRCLINE: iceraft-node/src/node.rs:98-104, 161-207, 446-462, 781-818 -/
theorem applied_delivered (cc : ClusterConfig) (stores : NodeId → MemStorage)
    (es : List LaunchEvent) (i : NodeId) (idx : ℕ) (hfresh : ∀ i, Fresh (stores i))
    (h : LaunchedCluster.Within cc (LogKept.and (SnapshotsApplied.and CrashesApplied))
      (LaunchedCluster.init stores) es)
    (hi : i ∈ cc.members) (hpos : 1 ≤ idx)
    (hidx : idx ≤
      ((LaunchedCluster.exec cc (LaunchedCluster.init stores) es).cluster.sm i).lastApplied) :
    ∃ e ∈ applications
        ((LaunchedCluster.exec cc (LaunchedCluster.init stores) es).cluster.proc i).history,
      e.index = idx := by
  cases hrestored : (LaunchedCluster.exec cc (LaunchedCluster.init stores) es).restored i with
  | true =>
    obtain ⟨fs, hsettled, hwithin⟩ := LaunchedCluster.settled_run h
    have hproc := LaunchedCluster.settled_proc hrestored
    rw [hsettled] at hproc
    unfold sm at hidx
    rw [← hproc] at hidx ⊢
    rcases sent_of_applied hfresh hwithin hi hidx with h0 | hsent
    · omega
    · exact hsent
  | false =>
    -- the memory is still empty, and nothing counts as applied
    obtain ⟨s, hnew⟩ := LaunchedCluster.untouched h hrestored
    unfold sm at hidx
    rw [hnew] at hidx
    exact absurd (Nat.le_trans hpos hidx) (Nat.not_succ_le_zero 0)

/-- All three nodes restore, and then node 1 gets two entries committed and applied, and node 2
learns of it. -/
def deliveredRun : List LaunchEvent :=
  [.restore 1, .restore 2, .restore 3] ++ (ackedRun ++ toldRun).map .event

/-- Index 2 counts as applied at node 1, and was sent. -/
theorem applied_delivered_deliveredRun :
    ∃ e ∈ applications ((LaunchedCluster.exec trio (LaunchedCluster.init fun _ => MemStorage.new)
      deliveredRun).cluster.proc 1).history, e.index = 2 :=
  applied_delivered trio (fun _ => MemStorage.new) deliveredRun 1 2 (fun _ => .inl rfl)
    (by decide +kernel) (by decide) (by decide) (by decide +kernel)

/-- The single member of a cluster of its own. -/
def solo : ClusterConfig := .ofIds [1] (by decide)

/-- Node 1 elects itself, takes a proposal, and commits it when its heartbeat is due. -/
def soloRun : List Event :=
  [⟨.timer 1 true false, none⟩, ⟨.client 1 (.propose [7]), none⟩, ⟨.timer 1 false true, none⟩]

/-- Node 1 elects itself and takes a proposal, and crashes right after it has persisted the
commit index. -/
def crashedCommitRun : List LaunchEvent :=
  [.restore 1] ++ (soloRun.take 2).map .event ++
    [.event ⟨.timer 1 false true, some 1⟩, .restore 1]

/-- Node 3 takes the entries and the commit index of the leader before its restore block, which
then takes the commit index for the last applied one. -/
def earlyCommitRun : List LaunchEvent :=
  [.restore 1, .restore 2] ++
    (ackedRun ++ [⟨.timer 1 false true, none⟩, (⟨.deliver 7, none⟩ : Event)]).map .event ++
    [.restore 3]

/-- In both runs an index counts as applied that was not sent. -/
theorem applied_undelivered :
    let c := (LaunchedCluster.exec solo (LaunchedCluster.init fun _ => MemStorage.new)
      crashedCommitRun).cluster
    let d := (LaunchedCluster.exec trio (LaunchedCluster.init fun _ => MemStorage.new)
      earlyCommitRun).cluster
    ((c.sm 1).lastApplied = 1 ∧ (c.store 1).get? 1 = some ⟨1, 1, [7], .normal⟩ ∧
      applications (c.proc 1).history = []) ∧
    (d.sm 3).lastApplied = 2 ∧ (d.store 3).get? 2 = some ⟨1, 2, [8], .normal⟩ ∧
      applications (d.proc 3).history = [] := by
  decide +kernel

/-! ## What a node that does not lead has to apply -/

/-- Everything committed is applied. -/
def RaftStateMachine.CaughtUp (sm : RaftStateMachine) : Prop := sm.lastApplied = sm.commitIndex

/-- A request of a leader that is not of an earlier term, and tells of a commit index above
our own. -/
def TellsCommit (n : RaftNodeInner MemStorage) : Input → Prop
  | .appendEntries req => n.sm.currentTerm ≤ req.term ∧ n.sm.commitIndex < req.leaderCommit
  | _ => False

section CaughtUp

variable {x : NodeTurn MemStorage} {n : RaftNodeInner MemStorage} {cfg : RaftConfig}

/-- Stepping down commits nothing. -/
theorem descend_caughtUp (term : ℕ) (leaderId : Option NodeId) (h : x.sm.CaughtUp) :
    (x.descend term leaderId).sm.CaughtUp := by
  unfold NodeTurn.descend
  split
  · exact h
  · exact h

/-- A batch raises the commit index only by what it tells. -/
theorem onAppendEntries_caughtUp {req : AppendEntriesRequest} (h : x.sm.CaughtUp)
    (hreq : ¬ (x.sm.currentTerm ≤ req.term ∧ x.sm.commitIndex < req.leaderCommit)) :
    (x.onAppendEntries req).2.sm.CaughtUp := by
  rcases Nat.lt_or_ge req.term x.sm.currentTerm with hstale | hterm
  · rw [NodeTurn.onAppendEntries_stale hstale]
    exact h
  · have htold : ¬ req.leaderCommit > x.sm.commitIndex := fun hlt => hreq ⟨hterm, hlt⟩
    unfold NodeTurn.onAppendEntries
    dsimp only
    rw [← NodeTurn.descend]
    split
    · exact descend_caughtUp _ _ h
    · obtain ⟨hcommit, happlied⟩ := NodeTurn.recognise_indices req x
      rw [← NodeTurn.recognise]
      have hcheck := congrArg Volatile.sm
        (NodeTurn.checkPrevLog_volatile req (NodeTurn.recognise req x))
      generalize (NodeTurn.recognise req x).checkPrevLog req = check at hcheck
      obtain ⟨verdict, y⟩ := check
      have hsame : y.sm = (NodeTurn.recognise req x).sm := hcheck
      have hy : y.sm.CaughtUp := by
        unfold RaftStateMachine.CaughtUp
        rw [hsame, happlied, hcommit]
        exact h
      cases verdict with
      | some resp => exact hy
      | none =>
        have hbatch := congrArg Volatile.sm (NodeTurn.appendBatch_volatile req y)
        dsimp only
        generalize y.appendBatch req = written at hbatch
        obtain ⟨result, z⟩ := written
        have hkept : z.sm = y.sm := hbatch
        have hle : ¬ req.leaderCommit > z.sm.commitIndex := by
          rw [hkept, hsame, hcommit]
          exact htold
        have hz : z.sm.CaughtUp := by
          rw [hkept]
          exact hy
        cases result with
        | error e => exact hz
        | ok _ =>
          dsimp only
          unfold NodeTurn.advanceCommit
          rw [if_neg hle]
          exact hz

/-- A vote commits nothing. -/
theorem onRequestVote_caughtUp (req : RequestVoteRequest) (h : x.sm.CaughtUp) :
    (x.onRequestVote req).2.sm.CaughtUp := by
  unfold NodeTurn.onRequestVote
  dsimp only
  rw [← NodeTurn.descend]
  have hy : (x.descend req.term none).sm.CaughtUp := descend_caughtUp _ _ h
  generalize x.descend req.term none = y at hy
  split
  · exact hy
  · split
    · exact hy
    · have hread : (y.lastIndexOr0.2.termOr0 y.lastIndexOr0.1).2.sm.CaughtUp := by
        rw [NodeTurn.termOr0_sm, NodeTurn.lastIndexOr0_sm]
        exact hy
      split
      · exact hread
      · exact hread

/-- A snapshot counts as applied as far as it counts as committed. -/
theorem onInstallSnapshot_caughtUp (req : InstallSnapshotRequest) (h : x.sm.CaughtUp) :
    (x.onInstallSnapshot req).2.sm.CaughtUp := by
  unfold NodeTurn.onInstallSnapshot
  dsimp only
  rw [← NodeTurn.descend]
  have hy : (x.descend req.term (some req.leaderId)).sm.CaughtUp := descend_caughtUp _ _ h
  generalize x.descend req.term (some req.leaderId) = y at hy
  split
  · exact hy
  · split
    · exact congrArg (max · req.lastIncludedIndex) hy
    · exact hy

/-- A vote makes a leader, which has committed nothing yet. -/
theorem handleVoteResponse_caughtUp (peer : NodeId) (resp : RequestVoteResponse)
    (h : x.sm.CaughtUp) : (x.handleVoteResponse cfg peer resp).sm.CaughtUp := by
  unfold NodeTurn.handleVoteResponse
  split
  · exact h
  · split
    · dsimp only
      split
      · obtain ⟨hcommit, happlied⟩ := NodeTurn.takeLeadership_indices cfg (x.modifySm fun sm =>
          { sm with votesReceived := insert peer sm.votesReceived })
        unfold RaftStateMachine.CaughtUp
        rw [hcommit, happlied]
        exact h
      · exact h
    · exact h

/-- Only a leader looks at more than the term of a response. -/
theorem handleResponse_caughtUp (peer : NodeId) (f : Progress → Progress) (term : ℕ)
    (hrole : x.sm.role ≠ .leader) (h : x.sm.CaughtUp) :
    (x.handleResponse cfg peer f term).sm.CaughtUp := by
  obtain heq | ⟨-, hlead, -⟩ := NodeTurn.handleResponse_cases cfg peer f term x
  · rw [heq]
    exact descend_caughtUp _ _ h
  · exact absurd hlead hrole

/-- A node that does not lead refuses a proposal. -/
theorem onProposal_caughtUp (proposal : Proposal) (hrole : x.sm.role ≠ .leader)
    (h : x.sm.CaughtUp) : (x.onProposal cfg proposal).sm.CaughtUp := by
  unfold NodeTurn.onProposal
  dsimp only
  rw [if_pos hrole]
  cases proposal.tx with
  | none => exact h
  | some tx => exact h

/-- Nor does it commit when its timer fires. -/
theorem timerBranch_caughtUp (electionDue heartbeatDue : Bool) (hrole : x.sm.role ≠ .leader)
    (h : x.sm.CaughtUp) : (x.timerBranch cfg electionDue heartbeatDue).sm.CaughtUp := by
  unfold NodeTurn.timerBranch
  split
  · obtain ⟨hcommit, happlied⟩ := NodeTurn.startElection_indices cfg x
    unfold RaftStateMachine.CaughtUp
    rw [hcommit, happlied]
    exact h
  · rw [if_neg fun hdue => hrole hdue.2]
    exact h

/-- **What raises the commit index.**  A node that does not lead and has applied everything
committed still has after its turn, unless the turn takes a request that tells a higher commit
index. -/
theorem run_caughtUp {input : Input} (hrole : n.sm.role ≠ .leader) (h : n.sm.CaughtUp)
    (hin : ¬ TellsCommit n input) :
    (NodeTurn.run cfg input (Turn.start n)).sm.CaughtUp := by
  cases input with
  | appendEntries req => exact onAppendEntries_caughtUp h hin
  | requestVote req => exact onRequestVote_caughtUp req h
  | installSnapshot req => exact onInstallSnapshot_caughtUp req h
  | timer electionDue heartbeatDue => exact timerBranch_caughtUp _ _ hrole h
  | message msg =>
    cases msg with
    | voteResponse peer resp => exact handleVoteResponse_caughtUp peer resp h
    | appendResponse peer last resp => exact handleResponse_caughtUp peer _ resp.term hrole h
    | snapshotResponse peer last resp => exact handleResponse_caughtUp peer _ resp.term hrole h
    | propose proposal => exact onProposal_caughtUp proposal hrole h
    | _ => exact h

/-- So it is over every stretch of a run in which the node does not lead: from a state in which
it has applied everything committed, a boot among them, it has nothing to apply until it takes a
request that tells a higher commit index. -/
theorem caughtUp_run {cc : ClusterConfig} {c : Cluster MemStorage} {es : List Event} {i : NodeId}
    (hstart : (c.sm i).CaughtUp)
    (h : Runs.Within (step cc) (fun c e => ∀ input, c.input? cc e.action = some (i, input) →
      (c.sm i).role ≠ .leader ∧ ¬ TellsCommit (c.proc i).node input) c es) :
    ((exec cc c es).sm i).CaughtUp := by
  refine Runs.invariant (fun c => (c.sm i).CaughtUp) ?_ hstart h
  intro c e hcaught hmeets
  unfold sm at hcaught ⊢
  by_cases hidle : ∀ input, c.input? cc e.action ≠ some (i, input)
  · rw [proc_of_idle hidle]
    exact hcaught
  · push Not at hidle
    obtain ⟨input, hin⟩ := hidle
    obtain ⟨hrole, htold⟩ := hmeets input hin
    rw [proc_step hin]
    cases e.crashAt with
    | none => exact run_caughtUp hrole hcaught htold
    | some k =>
      obtain ⟨term, vote, commit, hboot⟩ := Process.boot_volatile
        (((c.proc i).turn (cc.config i) input).cutNode (c.proc i).node k).storage
      have hsm := congrArg Volatile.sm hboot
      show (Process.boot _).node.sm.CaughtUp
      rw [show (Process.boot _).node.sm = _ from hsm]
      rfl

end CaughtUp

/-! ## Nothing waits behind a timer branch -/

/-- The index was restored, sent in this uptime, or is no longer in the log. -/
def SentOrGone (H : List Effect) (first idx : ℕ) : Prop :=
  idx ≤ restoredCommit H ∨ idx < first ∨ ∃ e ∈ sentThisUptime H, e.index = idx

/-- That an index was sent in this uptime, or is gone, is an account. -/
theorem account_sentOrGone : Account SentOrGone where
  grows := by
    intro H e first idx he hidx
    unfold SentOrGone restoredCommit sentThisUptime at *
    rw [uptime_append]
    cases e with
    | restored c => exact absurd rfl (he c)
    | applied a =>
      rcases hidx with hr | hg | ⟨e', he', hi⟩
      · exact .inl hr
      · exact .inr (.inl hg)
      · exact .inr (.inr ⟨e', List.mem_append_left _ he', hi⟩)
    | _ => exact hidx
  applied := by
    intro H e first
    refine .inr (.inr ⟨e, ?_, rfl⟩)
    unfold sentThisUptime
    rw [uptime_append]
    exact List.mem_append_right _ (List.mem_singleton_self e)
  mono := by
    intro H first first' idx hle hidx
    rcases hidx with hr | hg | hs
    · exact .inl hr
    · exact .inr (.inl (Nat.lt_of_lt_of_le hg hle))
    · exact .inr (.inr hs)

/-- Every turn keeps it, and a boot begins it anew. -/
theorem sentOrGone_booking : Booking .any (AllDelivered SentOrGone) fun _ => LogKept where
  keeps := by
    intro h n cfg input crashAt _ _ _
    refine delivered_keeps account_sentOrGone ?_
    intro req _ _ H idx _ hle
    exact .inr (.inl (Nat.lt_succ_of_le hle))
  kept _ _ hcond := hcond
  boot := by
    intro h n cfg input k _ turn cut _ _ idx hidx
    refine .inl ?_
    unfold restoredCommit
    rw [uptime_append]
    exact hidx

/-- After a timer branch that has what it needs, everything committed is applied. -/
theorem timerBranch_applies {cfg : RaftConfig} {n : RaftNodeInner MemStorage}
    {electionDue heartbeatDue : Bool} {crashAt : Option ℕ} (halign : n.storage.Aligned)
    (hcond : TimerDelivers cfg n (.timer electionDue heartbeatDue) crashAt) :
    (NodeTurn.timerBranch cfg electionDue heartbeatDue (Turn.start n)).sm.lastApplied =
      (NodeTurn.timerBranch cfg electionDue heartbeatDue (Turn.start n)).sm.commitIndex := by
  unfold NodeTurn.timerBranch
  split
  · rename_i hdue
    obtain ⟨hc, hl⟩ := NodeTurn.startElection_indices cfg (Turn.start n)
    rw [hc, hl]
    rcases hcond with ⟨heq, -⟩ | ⟨hlead, -⟩
    · exact heq
    · exact absurd hlead hdue.2
  · split
    · rename_i hdue
      dsimp only
      have hnode := NodeTurn.replicateAll_node cfg (Turn.start n)
      generalize (NodeTurn.replicateAll cfg (Turn.start n) : NodeTurn MemStorage) = y at hnode
      have hsm : y.sm = n.sm := congrArg RaftNodeInner.sm hnode
      have hst : y.node.storage = n.storage := congrArg RaftNodeInner.storage hnode
      obtain ⟨hcsm, hentries, hsnapshot⟩ := NodeTurn.maybeAdvanceCommit_node cfg y
      have hnext := NodeTurn.nextCommit_cases cfg y
      generalize NodeTurn.nextCommit cfg y = k at hcsm hnext
      rw [hsm, hst] at hnext
      have hlog := eq_of_log hentries hsnapshot
      rw [hst] at hlog
      have hzsm : (y.maybeAdvanceCommit cfg).sm = { n.sm with commitIndex := k } :=
        hcsm.trans (by rw [← hsm])
      have hfirst : (y.maybeAdvanceCommit cfg).node.storage.firstIndex = n.storage.firstIndex := by
        rw [hlog]
        rfl
      have hlast : (y.maybeAdvanceCommit cfg).node.storage.lastIndex = n.storage.lastIndex := by
        rw [hlog]
        rfl
      have hzalign : (y.maybeAdvanceCommit cfg).node.storage.Aligned := by
        rw [hlog]
        exact halign
      generalize y.maybeAdvanceCommit cfg = z at hzsm hfirst hlast hzalign
      rcases hcond with ⟨heq, hnone⟩ | ⟨-, -, hlo, happlied, hcommitted⟩
      · have hk : k = n.sm.commitIndex := by
          rcases hnext with hk | ⟨hlead, hlt, hle, hterm, hquorum⟩
          · exact hk
          · exact absurd ⟨hlt, hterm, hquorum⟩ (hnone hlead hdue.1 k hle)
        have hz : z.sm.lastApplied = z.sm.commitIndex := by
          rw [hzsm, hk]
          exact heq
        rw [NodeTurn.applyCommitted_of_ge (Nat.le_of_eq hz.symm)]
        exact hz
      · have hbounds : n.sm.commitIndex ≤ k ∧ k ≤ n.storage.lastIndex := by
          rcases hnext with hk | ⟨-, hlt, hle, -, -⟩
          · rw [hk]
            exact ⟨Nat.le_refl _, hcommitted⟩
          · exact ⟨Nat.le_of_lt hlt, hle⟩
        have hzapplied : z.sm.lastApplied = n.sm.lastApplied := by rw [hzsm]
        have hzcommit : z.sm.commitIndex = k := by rw [hzsm]
        rw [NodeTurn.applyCommitted_sm hzalign (by rw [hfirst, hzapplied]; exact hlo)
          (by rw [hzapplied, hzcommit]; exact Nat.le_trans happlied hbounds.1)
          (by rw [hzcommit, hlast]; exact hbounds.2)]
    · rename_i hnot
      rcases hcond with ⟨heq, -⟩ | ⟨hlead, hbeat, -⟩
      · exact heq
      · exact absurd ⟨hbeat, hlead⟩ hnot

/-- **Committed entries reach the application.**  In a run in which the log is kept aligned
and every timer branch finds nothing to apply or runs on a leader whose heartbeat is due,
after each completed timer branch everything committed is applied, and each index behind
the restored commit index that the log holds has been sent in this uptime.
SRCLINE: iceraft-node/src/node.rs:268-286, 803-818 -/
theorem committed_delivered (cc : ClusterConfig) (stores : NodeId → MemStorage) (es : List Event)
    (hfresh : ∀ i, Fresh (stores i)) (h : Within cc (LogKept.and TimerDelivers) (init stores) es) :
    ∀ before e after i electionDue heartbeatDue, es = before ++ e :: after → e.crashAt = none →
      (exec cc (init stores) before).input? cc e.action =
        some (i, .timer electionDue heartbeatDue) →
      ((exec cc (init stores) (before ++ [e])).sm i).lastApplied =
          ((exec cc (init stores) (before ++ [e])).sm i).commitIndex ∧
        ∀ idx, restoredCommit ((exec cc (init stores) (before ++ [e])).proc i).history < idx →
          idx ≤ ((exec cc (init stores) (before ++ [e])).sm i).commitIndex →
          (∃ entry, ((exec cc (init stores) (before ++ [e])).store i).get? idx = some entry) →
          ∃ entry ∈ sentThisUptime ((exec cc (init stores) (before ++ [e])).proc i).history,
            entry.index = idx := by
  have hinit : Booking.Holds .any (AllDelivered SentOrGone) cc (init stores) := by
    refine Booking.holds_init fun i _ => ⟨(hfresh i).aligned, fun idx hidx => .inl hidx⟩
  have hrun : ∀ fs, Within cc (LogKept.and TimerDelivers) (init stores) fs →
      Booking.Holds .any (AllDelivered SentOrGone) cc (exec cc (init stores) fs) := fun fs hfs =>
    sentOrGone_booking.holds_run (fun _ _ hok _ _ hin => (hok.of_input hin).1) hinit hfs
  rintro before e after i electionDue heartbeatDue rfl hcrash hin
  obtain ⟨hbefore, hcond, -⟩ := (Runs.within_append _ _ _).mp h
  have hc := hrun before hbefore
  have hi := (hc.cause hin).1
  have hstep : exec cc (init stores) (before ++ [e]) = (exec cc (init stores) before).step cc e :=
    Runs.exec_append _ _ _
  have hafter := hrun (before ++ [e])
    ((Runs.within_append _ _ _).mpr ⟨hbefore, hcond, trivial⟩)
  have happlied : ((exec cc (init stores) (before ++ [e])).sm i).lastApplied =
      ((exec cc (init stores) (before ++ [e])).sm i).commitIndex := by
    have hturn := timerBranch_applies (hc.node i hi).1.aligned (hcond.of_input hin).2
    unfold sm
    rw [hstep, proc_step hin, hcrash]
    exact hturn
  refine ⟨happlied, ?_⟩
  rintro idx hlt hle ⟨entry, hentry⟩
  obtain ⟨hbase, hI⟩ := hafter.node i hi
  rcases hI idx (by rw [happlied]; exact hle) with hr | hgone | hsent
  · exact absurd hlt (Nat.not_lt_of_le hr)
  · have hnone := hbase.aligned.get?_eq_none hgone
    rw [hnone] at hentry
    cases hentry
  · exact hsent

/-- Two entries are committed by a quorum, and the next heartbeat of the leader sends them. -/
theorem committed_delivered_toldRun :
    ((exec trio (init fun _ => MemStorage.new) (ackedRun ++ toldRun.take 1)).sm 1).lastApplied =
        ((exec trio (init fun _ => MemStorage.new) (ackedRun ++ toldRun.take 1)).sm 1).commitIndex ∧
      ∃ entry ∈ sentThisUptime
          ((exec trio (init fun _ => MemStorage.new) (ackedRun ++ toldRun.take 1)).proc 1).history,
        entry.index = 2 := by
  have hdelivered := committed_delivered trio (fun _ => MemStorage.new) (ackedRun ++ toldRun)
    (fun _ => .inl rfl) (by decide +kernel) ackedRun ⟨.timer 1 false true, none⟩
    [⟨.deliver 6, none⟩] 1 false true rfl rfl (by decide +kernel)
  exact ⟨hdelivered.1, hdelivered.2 2 (by decide +kernel) (by decide +kernel)
    ⟨⟨1, 2, [8], .normal⟩, by decide +kernel⟩⟩

/-- Node 2 only follows: it learns the commit index by a heartbeat, and its timer branch
sends nothing. -/
theorem committed_undelivered :
    let c := exec trio (init fun _ => MemStorage.new)
      (ackedRun ++ toldRun ++ [⟨.timer 2 true false, none⟩])
    (c.sm 2).commitIndex = 2 ∧ (c.sm 2).lastApplied = 0 ∧
      (c.store 2).get? 1 = some ⟨1, 1, [7], .normal⟩ ∧
      restoredCommit (c.proc 2).history = 0 ∧ applications (c.proc 2).history = [] := by
  decide +kernel

end IceRaft
