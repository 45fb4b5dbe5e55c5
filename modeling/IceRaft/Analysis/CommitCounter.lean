import IceRaft.Analysis.Candidacy
import IceRaft.Analysis.CommitChoice

/-!
# The counter of committed entries

`maybe_advance_commit` adds the distance from the last applied index to the new commit index
to its counter.  Entries are applied at heartbeats only, and a leader commits at every
response, so an entry is counted again at every commit until it is applied.
-/

set_option autoImplicit false

namespace IceRaft

variable {σ : Type} [Storage σ]

/-- The node after an input. -/
def nodeAfter (cfg : RaftConfig) (n : RaftNodeInner σ) (input : Input) : RaftNodeInner σ :=
  (NodeTurn.run cfg input (Turn.start n)).node

/-- The input does not end the leadership of the term: it is of no later term, and no other
node sends requests as the leader of the term. -/
def InTerm (term : ℕ) (input : Input) : Prop :=
  (∀ t ∈ input.term?, t ≤ term) ∧ ∀ r ∈ input.leaderRequest?, r.1 < term

instance (term : ℕ) (input : Input) : Decidable (InTerm term input) :=
  inferInstanceAs (Decidable (_ ∧ _))

/-- The counter has risen by as much as the commit index. -/
def CountedExactly (n n' : RaftNodeInner σ) : Prop :=
  (n'.metrics.entriesCommitted : ℤ) - n.metrics.entriesCommitted =
    n'.sm.commitIndex - n.sm.commitIndex

/-- If there is an index to commit, everything below the commit index is applied. -/
def CountsFromApplied (cfg : RaftConfig) (n : RaftNodeInner σ) : Prop :=
  (CommitCandidates cfg n).Nonempty → n.sm.lastApplied = n.sm.commitIndex

instance (n n' : RaftNodeInner σ) : Decidable (CountedExactly n n') :=
  inferInstanceAs (Decidable (_ = _))

/-- The same for the commit step of an input, behind the progress that a response reports. -/
def CommitsFromApplied (cfg : RaftConfig) (n : RaftNodeInner σ) : Input → Prop
  | .message (.appendResponse peer last resp) => CountsFromApplied cfg
    (n.setSm (NodeTurn.updateProgress peer (NodeTurn.progressAfterAppend last resp) n.sm))
  | .message (.snapshotResponse peer last _) => CountsFromApplied cfg
    (n.setSm (NodeTurn.updateProgress peer (NodeTurn.progressAfterSnapshot last) n.sm))
  | .timer _ heartbeatDue => heartbeatDue = true → CountsFromApplied cfg n
  | _ => True

/-- Role, term, commit index and counter. -/
def tally (n : RaftNodeInner σ) : RaftRole × ℕ × ℕ × ℕ :=
  (n.sm.role, n.sm.currentTerm, n.sm.commitIndex, n.metrics.entriesCommitted)

omit [Storage σ] in
/-- The parts of a tally. -/
theorem tally_inj {n n' : RaftNodeInner σ} (h : tally n' = tally n) :
    n'.sm.role = n.sm.role ∧ n'.sm.currentTerm = n.sm.currentTerm ∧
      n'.sm.commitIndex = n.sm.commitIndex ∧
      n'.metrics.entriesCommitted = n.metrics.entriesCommitted := by
  unfold tally at h
  rw [Prod.mk.injEq, Prod.mk.injEq, Prod.mk.injEq] at h
  exact h

omit [Storage σ] in
/-- With the same tally the counter is as exact as before. -/
theorem CountedExactly.of_tally {n n' : RaftNodeInner σ} (h : tally n' = tally n) :
    CountedExactly n n' := by
  obtain ⟨-, -, hcommit, hcount⟩ := tally_inj h
  unfold CountedExactly
  rw [hcommit, hcount]
  omega

namespace NodeTurn

variable {cfg : RaftConfig}

/-! ## What leaves the tally alone -/

omit [Storage σ] in
/-- A count changes at most the counter. -/
theorem modifyMetrics_tally (f : RaftMetrics → RaftMetrics) (x : NodeTurn σ) :
    tally (x.modifyMetrics f).node =
      (x.sm.role, x.sm.currentTerm, x.sm.commitIndex, (f x.node.metrics).entriesCommitted) := rfl

/-- Saving leaves the tally alone. -/
theorem saveHardState_tally (x : NodeTurn σ) : tally x.saveHardState.node = tally x.node := by
  unfold saveHardState
  dsimp only
  rw [modifyMetrics_tally]
  rfl

/-- A vote leaves the tally alone. -/
theorem grant_tally (req : RequestVoteRequest) (x : NodeTurn σ) :
    tally (x.grant req).node = tally x.node := by
  have hsave := saveHardState_tally (x.modifySm fun sm =>
    { sm with votedFor := some req.candidateId })
  unfold grant
  rw [Turn.emit_node, modifyMetrics_tally]
  generalize (x.modifySm _).saveHardState = y at hsave ⊢
  exact hsave

/-- Applying leaves the tally alone. -/
theorem applyCommitted_tally (x : NodeTurn σ) : tally x.applyCommitted.node = tally x.node := by
  have hread : tally (x.read (Storage.entries (x.sm.lastApplied + 1) (x.sm.commitIndex + 1)
    none)).2.node = tally x.node := rfl
  have hfold : ∀ (es : List LogEntry) (y : NodeTurn σ),
      tally (es.foldl applyOne y).node = tally y.node :=
    Turn.foldl_keeps (fun y => tally y.node) fun _ _ => rfl
  unfold applyCommitted
  dsimp only
  split
  · rfl
  · split
    · rename_i heq
      rw [heq] at hread
      exact (hfold _ _).trans hread
    · rename_i heq
      rw [heq] at hread
      exact hread

/-- A request for a vote of no later term leaves the tally alone. -/
theorem handleRequestVote_tally {req : RequestVoteRequest} {x : NodeTurn σ}
    (hle : req.term ≤ x.sm.currentTerm) :
    tally (x.handleRequestVote req).node = tally x.node := by
  have hreads : tally (x.lastIndexOr0.2.termOr0 x.lastIndexOr0.1).2.node = tally x.node := by
    unfold termOr0
    split
    · rfl
    · rfl
  unfold handleRequestVote onRequestVote
  rw [if_neg (Nat.not_lt.mpr hle)]
  dsimp only
  split
  · rfl
  · split
    · rfl
    · split
      · exact (grant_tally req _).trans hreads
      · exact hreads

/-! ## The input of a leader -/

/-- A leader ignores the votes of its own term. -/
theorem handleVoteResponse_of_leader {peer : NodeId} {resp : RequestVoteResponse} {x : NodeTurn σ}
    (hrole : x.sm.role = .leader) (hle : resp.term ≤ x.sm.currentTerm) :
    x.handleVoteResponse cfg peer resp = x := by
  have hno : ¬ (resp.voteGranted = true ∧ x.sm.role = .candidate) := by
    rintro ⟨-, hcandidate⟩
    cases hrole.symm.trans hcandidate
  unfold handleVoteResponse
  rw [if_neg (Nat.not_lt.mpr hle), if_neg hno]

/-- The timer of a leader does nothing before the heartbeat is due. -/
theorem timerBranch_of_leader (cfg : RaftConfig) (electionDue heartbeatDue : Bool)
    {x : NodeTurn σ} (hrole : x.sm.role = .leader) :
    x.timerBranch cfg electionDue heartbeatDue =
      if heartbeatDue then ((x.replicateAll cfg).maybeAdvanceCommit cfg).applyCommitted
      else x := by
  have hno : ¬ (electionDue = true ∧ x.sm.role ≠ .leader) := fun h => h.2 hrole
  unfold timerBranch
  rw [if_neg hno]
  cases heartbeatDue with
  | false => exact if_neg fun h => Bool.false_ne_true h.1
  | true => exact if_pos ⟨rfl, hrole⟩

/-! ## A proposal -/

variable [PureReads σ]

/-- A proposal commits nothing. -/
theorem onProposal_tally (proposal : Proposal) (x : NodeTurn σ) :
    tally (x.onProposal cfg proposal).node = tally x.node := by
  unfold onProposal
  dsimp only
  split
  · cases proposal.tx <;> rfl
  · have hwrite : tally (x.lastIndexOr0.2.write (Storage.appendEntries
        [⟨x.lastIndexOr0.2.sm.currentTerm, x.lastIndexOr0.1 + 1, proposal.data,
          .normal⟩])).2.node = tally x.node := rfl
    split
    · rename_i heq
      rw [heq] at hwrite
      cases proposal.tx <;> exact hwrite
    · rename_i heq
      rw [heq] at hwrite
      rw [replicateAll_node]
      cases proposal.tx <;> exact hwrite

/-! ## The commit step -/

/-- The tally of a leader after its commit step. -/
theorem maybeAdvanceCommit_tally (cfg : RaftConfig) {x : NodeTurn σ}
    (hrole : x.sm.role = .leader) (hterm : 1 ≤ x.sm.currentTerm) :
    tally (x.maybeAdvanceCommit cfg).node =
      match commitChoice cfg x.node (lastIndexOf x.node) with
      | some k => (x.sm.role, x.sm.currentTerm, k,
        x.node.metrics.entriesCommitted + u64Sub k x.sm.lastApplied)
      | none => tally x.node := by
  have hnotify : ∀ y : NodeTurn σ, tally y.notifyPending.node = tally y.node := by
    intro y
    rw [notifyPending_node]
    rfl
  rw [maybeAdvanceCommit_eq cfg hrole hterm, hnotify]
  cases commitChoice cfg x.node (lastIndexOf x.node) with
  | none => rfl
  | some k =>
    have hsave := saveHardState_tally (x.modifySm fun sm => { sm with commitIndex := k })
    dsimp only
    rw [modifyMetrics_tally]
    generalize (x.modifySm _).saveHardState = y at hsave ⊢
    obtain ⟨hrole', hterm', hcommit, hcount⟩ := tally_inj hsave
    exact Prod.ext hrole' (Prod.ext hterm' (Prod.ext hcommit
      (congrArg (· + u64Sub k x.sm.lastApplied) hcount)))

/-- It counts exactly if it counts from what is applied. -/
theorem maybeAdvanceCommit_counts (cfg : RaftConfig) {x : NodeTurn σ}
    (hrole : x.sm.role = .leader) (hterm : 1 ≤ x.sm.currentTerm)
    (hu64 : x.sm.lastApplied ≤ u64Max) :
    CountedExactly x.node (x.maybeAdvanceCommit cfg).node ↔ CountsFromApplied cfg x.node := by
  have htally := maybeAdvanceCommit_tally cfg hrole hterm
  unfold CountsFromApplied
  cases hscan : commitChoice cfg x.node (lastIndexOf x.node) with
  | none =>
    rw [hscan] at htally
    have hempty : CommitCandidates cfg x.node = ∅ := scanDown_eq_none hscan
    rw [hempty]
    exact iff_of_true (.of_tally htally) fun hne => absurd hne Set.not_nonempty_empty
  | some k =>
    rw [hscan] at htally
    have hmem : k ∈ CommitCandidates cfg x.node := (scanDown_eq_some hscan).1
    have hlt : x.node.sm.commitIndex < k := hmem.1
    have hcommit : (x.maybeAdvanceCommit cfg).node.sm.commitIndex = k :=
      congrArg (fun t => t.2.2.1) htally
    have hcount : (x.maybeAdvanceCommit cfg).node.metrics.entriesCommitted =
        x.node.metrics.entriesCommitted + u64Sub k x.node.sm.lastApplied :=
      congrArg (fun t => t.2.2.2) htally
    have hla : x.node.sm.lastApplied ≤ u64Max := hu64
    have hadded : u64Sub k x.node.sm.lastApplied = k - x.node.sm.commitIndex ↔
        x.node.sm.lastApplied = x.node.sm.commitIndex := by
      unfold u64Sub
      unfold u64Max at hla
      split <;> omega
    rw [imp_iff_right ⟨k, hmem⟩, ← hadded]
    unfold CountedExactly
    rw [hcommit, hcount]
    omega

/-- A leader leads on after its commit step. -/
theorem maybeAdvanceCommit_leads (cfg : RaftConfig) {x : NodeTurn σ}
    (hrole : x.sm.role = .leader) (hterm : 1 ≤ x.sm.currentTerm) :
    (x.maybeAdvanceCommit cfg).sm.role = .leader ∧
      (x.maybeAdvanceCommit cfg).sm.currentTerm = x.sm.currentTerm := by
  rw [maybeAdvanceCommit_scan cfg hrole hterm]
  exact ⟨hrole, rfl⟩

end NodeTurn

/-! ## One input -/

variable [PureReads σ] {cfg : RaftConfig} {n : RaftNodeInner σ} {input : Input}

/-- What an input does in its term: it leaves the tally alone, or it is a commit step behind
which entries may be applied. -/
inductive TermStep (cfg : RaftConfig) (n : RaftNodeInner σ) (input : Input) : Prop
  | same (htally : tally (nodeAfter cfg n input) = tally n)
    (hfree : CommitsFromApplied cfg n input)
  | commit (x : NodeTurn σ) (hstart : tally x.node = tally n)
    (happlied : x.sm.lastApplied = n.sm.lastApplied)
    (hend : tally (nodeAfter cfg n input) = tally (x.maybeAdvanceCommit cfg).node)
    (hcond : CommitsFromApplied cfg n input ↔ CountsFromApplied cfg x.node)

omit [PureReads σ] in
/-- A report in the term is a commit step. -/
theorem termStep_report {peer : NodeId} {f : Progress → Progress} {input : Input}
    (hrun : NodeTurn.run cfg input (Turn.start n) = NodeTurn.maybeAdvanceCommit cfg
      (NodeTurn.modifySm (NodeTurn.updateProgress peer f) (Turn.start n)))
    (hcond : CommitsFromApplied cfg n input ↔
      CountsFromApplied cfg (n.setSm (NodeTurn.updateProgress peer f n.sm))) :
    TermStep cfg n input := by
  obtain ⟨m, hm⟩ := NodeTurn.updateProgress_eq peer f n.sm
  refine .commit (NodeTurn.modifySm (NodeTurn.updateProgress peer f) (Turn.start n)) ?_ ?_ ?_ hcond
  · change tally (n.setSm (NodeTurn.updateProgress peer f n.sm)) = tally n
    rw [hm]
    rfl
  · change (NodeTurn.updateProgress peer f n.sm).lastApplied = n.sm.lastApplied
    rw [hm]
  · unfold nodeAfter
    rw [hrun]

/-- A leader either leaves the tally alone or takes one commit step. -/
theorem termStep_of_inTerm (hrole : n.sm.role = .leader) {input : Input}
    (hin : InTerm n.sm.currentTerm input) : TermStep cfg n input := by
  obtain ⟨hterm, hlead⟩ := hin
  cases input with
  | appendEntries req =>
    have hlt : req.term < n.sm.currentTerm := hlead _ rfl
    have hrun := NodeTurn.handleAppendEntries_stale (x := Turn.start n) hlt
    exact .same (congrArg (fun x => tally x.node) hrun) trivial
  | installSnapshot req =>
    have hlt : req.term < n.sm.currentTerm := hlead _ rfl
    have hrun := NodeTurn.handleInstallSnapshot_stale (x := Turn.start n) hlt
    exact .same (congrArg (fun x => tally x.node) hrun) trivial
  | requestVote req =>
    exact .same (NodeTurn.handleRequestVote_tally (x := Turn.start n) (hterm _ rfl)) trivial
  | message msg =>
    cases msg with
    | propose proposal => exact .same (NodeTurn.onProposal_tally proposal _) trivial
    | voteResponse peer resp =>
      have hrun : NodeTurn.handleVoteResponse cfg peer resp (Turn.start n) = Turn.start n :=
        NodeTurn.handleVoteResponse_of_leader hrole (hterm _ rfl)
      exact .same (congrArg (fun x => tally x.node) hrun) trivial
    | appendResponse peer last resp =>
      have hrun : NodeTurn.handleAppendResponse cfg peer last resp (Turn.start n) = _ :=
        NodeTurn.handleResponse_of_leader cfg peer (NodeTurn.progressAfterAppend last resp)
          (x := Turn.start n) hrole (hterm _ rfl)
      exact termStep_report hrun Iff.rfl
    | snapshotResponse peer last resp =>
      have hrun : NodeTurn.handleSnapshotResponse cfg peer last resp (Turn.start n) = _ :=
        NodeTurn.handleResponse_of_leader cfg peer (NodeTurn.progressAfterSnapshot last)
          (x := Turn.start n) hrole (hterm _ rfl)
      exact termStep_report hrun Iff.rfl
    | _ => exact .same rfl trivial
  | timer electionDue heartbeatDue =>
    have hrun := fun due => NodeTurn.timerBranch_of_leader (x := Turn.start n) cfg electionDue due
      hrole
    cases heartbeatDue with
    | false => exact .same (congrArg (fun x => tally x.node) (hrun false)) nofun
    | true =>
      have hnode : (NodeTurn.replicateAll cfg (Turn.start n)).node = n :=
        NodeTurn.replicateAll_node cfg (Turn.start n)
      refine .commit (NodeTurn.replicateAll cfg (Turn.start n)) (congrArg tally hnode)
        (congrArg (fun n => n.sm.lastApplied) hnode) ?_ ?_
      · have hend := congrArg (fun x => tally x.node) (hrun true)
        exact hend.trans (NodeTurn.applyCommitted_tally _)
      · rw [hnode]
        exact imp_iff_right rfl

/-- It leads on in its term. -/
theorem TermStep.leads (h : TermStep cfg n input) (hrole : n.sm.role = .leader)
    (hterm : 1 ≤ n.sm.currentTerm) : (nodeAfter cfg n input).sm.role = .leader ∧
      (nodeAfter cfg n input).sm.currentTerm = n.sm.currentTerm := by
  cases h with
  | same htally hfree =>
    obtain ⟨hrole', hterm', -, -⟩ := tally_inj htally
    exact ⟨hrole'.trans hrole, hterm'⟩
  | commit x hstart happlied hend hcond =>
    obtain ⟨hrole', hterm', -, -⟩ := tally_inj hstart
    obtain ⟨hrole'', hterm'', -, -⟩ := tally_inj hend
    have hleads := NodeTurn.maybeAdvanceCommit_leads cfg (hrole'.trans hrole) (hterm'.symm ▸ hterm)
    exact ⟨hrole''.trans hleads.1, hterm''.trans (hleads.2.trans hterm')⟩

/-- It counts exactly if its commit step counts from what is applied. -/
theorem TermStep.counts_iff (h : TermStep cfg n input) (hrole : n.sm.role = .leader)
    (hterm : 1 ≤ n.sm.currentTerm) (hu64 : n.sm.lastApplied ≤ u64Max) :
    CountedExactly n (nodeAfter cfg n input) ↔ CommitsFromApplied cfg n input := by
  cases h with
  | same htally hfree => exact iff_of_true (.of_tally htally) hfree
  | commit x hstart happlied hend hcond =>
    obtain ⟨hrole', hterm', hcommit', hcount'⟩ := tally_inj hstart
    obtain ⟨-, -, hcommit'', hcount''⟩ := tally_inj hend
    have hstep := NodeTurn.maybeAdvanceCommit_counts cfg (hrole'.trans hrole)
      (hterm'.symm ▸ hterm) (happlied.symm ▸ hu64)
    rw [hcond, ← hstep]
    unfold CountedExactly
    rw [hcommit', hcount', hcommit'', hcount'']

/-! ## One leadership -/

/-- A step of a leadership; `last_applied` is a `u64`. -/
def LeadershipStep (n : RaftNodeInner σ) (input : Input) : Prop :=
  InTerm n.sm.currentTerm input ∧ n.sm.lastApplied ≤ u64Max

instance (n : RaftNodeInner σ) (input : Input) : Decidable (LeadershipStep n input) :=
  inferInstanceAs (Decidable (_ ∧ _))

/-- In every run of a leadership, whatever comes in: the counter has risen by as much as the
commit index at every point of the run exactly when every commit step of it that finds an index
to commit starts with everything below the commit index applied.
SRCLINE: iceraft-node/src/node.rs:697-818, iceraft-metrics/src/lib.rs:46-50 -/
theorem entries_committed_exact_iff (hrole : n.sm.role = .leader) (hterm : 1 ≤ n.sm.currentTerm)
    {inputs : List Input} (hrun : Runs.Within (nodeAfter cfg) LeadershipStep n inputs) :
    (∀ before, before <+: inputs → CountedExactly n (Runs.exec (nodeAfter cfg) n before)) ↔
      Runs.Within (nodeAfter cfg) (CommitsFromApplied cfg) n inputs := by
  have hlead := hrun.with_invariant (fun n => n.sm.role = .leader ∧ 1 ≤ n.sm.currentTerm)
    (by
      intro n input hn hstep
      have hturn : TermStep cfg n input := termStep_of_inTerm hn.1 hstep.1
      have hleads := hturn.leads hn.1 hn.2
      exact ⟨hleads.1, hleads.2.symm ▸ hn.2⟩) ⟨hrole, hterm⟩
  have hexcess : ∀ n n' : RaftNodeInner σ, CountedExactly n n' ↔
      (n'.metrics.entriesCommitted : ℤ) - n'.sm.commitIndex =
        n.metrics.entriesCommitted - n.sm.commitIndex := by
    intro n n'
    unfold CountedExactly
    omega
  have hsteps : Runs.Within (nodeAfter cfg)
      (fun n input => CountedExactly n (nodeAfter cfg n input)) n inputs ↔
        Runs.Within (nodeAfter cfg) (CommitsFromApplied cfg) n inputs := by
    apply hlead.congr
    rintro n input ⟨hn, hstep⟩
    exact (termStep_of_inTerm hn.1 hstep.1).counts_iff hn.1 hn.2 hstep.2
  rw [← hsteps]
  simp only [hexcess]
  exact Runs.constant_iff fun n : RaftNodeInner σ =>
    (n.metrics.entriesCommitted : ℤ) - n.sm.commitIndex

/-- Node 1 of three is elected and takes two proposals. -/
def freshLeader : RaftNodeInner MemStorage :=
  Runs.exec (nodeAfter { id := 1, peers := [2, 3] }) (RaftNodeInner.new .new)
    [.timer true false, .message (.voteResponse 2 ⟨1, true⟩),
      .message (.propose ⟨[7], none⟩), .message (.propose ⟨[8], none⟩)]

/-- Node 2 holds everything up to `last`. -/
def holds (last : ℕ) : Input := .message (.appendResponse 2 last ⟨1, true, 0, 0⟩)

/-- A leader that applies between two commits counts its two entries as two. -/
theorem entries_committed_exact_iff_freshLeader :
    let step := nodeAfter (σ := MemStorage) { id := 1, peers := [2, 3] }
    let inputs := [holds 1, .timer false true, holds 2]
    (Runs.exec step freshLeader inputs).metrics.entriesCommitted = 2 ∧
      ((∀ before, before <+: inputs →
          CountedExactly freshLeader (Runs.exec step freshLeader before)) ↔
        Runs.Within step (CommitsFromApplied { id := 1, peers := [2, 3] }) freshLeader inputs) := by
  refine ⟨by decide +kernel, ?_⟩
  apply entries_committed_exact_iff
  · decide +kernel
  · decide +kernel
  · decide +kernel

/-- Two entries that are committed before the first heartbeat are counted as three. -/
theorem committed_entry_counted_twice :
    let step := nodeAfter (σ := MemStorage) { id := 1, peers := [2, 3] }
    let n := Runs.exec step freshLeader [holds 1, holds 2]
    freshLeader.sm.role = .leader ∧ freshLeader.sm.commitIndex = 0 ∧
      freshLeader.metrics.entriesCommitted = 0 ∧ n.sm.role = .leader ∧
      n.sm.commitIndex = 2 ∧ n.metrics.entriesCommitted = 3 ∧ ¬ CountedExactly freshLeader n := by
  decide +kernel

end IceRaft
