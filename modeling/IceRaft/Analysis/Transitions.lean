import IceRaft.Analysis.Progress
import IceRaft.Analysis.VoteFrame

/-!
# The moves of a node's memory

Over any storage, a turn changes the Raft state and the waiting proposals by a sequence of
moves, and there are nine kinds of them.  What every move keeps, every run keeps.
-/

set_option autoImplicit false

namespace IceRaft

open Relation

/-- The part of a node that a crash loses and that decides what it does. -/
structure Volatile where
  sm : RaftStateMachine
  pending : List (ℕ × Sender)

/-- The memory of a node. -/
def RaftNodeInner.volatile {σ : Type} (n : RaftNodeInner σ) : Volatile := ⟨n.sm, n.pending⟩

/-- The term a message carries. -/
def Input.term? : Input → Option ℕ
  | .appendEntries req => some req.term
  | .requestVote req => some req.term
  | .installSnapshot req => some req.term
  | .message (.voteResponse _ resp) => some resp.term
  | .message (.appendResponse _ _ resp) => some resp.term
  | .message (.snapshotResponse _ _ resp) => some resp.term
  | _ => none

namespace NodeTurn

/-- The memory of the node, at this point of the turn. -/
abbrev volatile {σ : Type} (x : NodeTurn σ) : Volatile := x.node.volatile

variable {σ : Type} [Storage σ] {cfg : RaftConfig}

/-! ## Code that leaves the memory alone -/

/-- A read of the last index leaves the memory alone. -/
@[simp] theorem lastIndexOr0_volatile (x : NodeTurn σ) :
    x.lastIndexOr0.2.volatile = x.volatile := rfl

/-- So does a read of a term. -/
@[simp] theorem termOr0_volatile (i : ℕ) (x : NodeTurn σ) :
    (x.termOr0 i).2.volatile = x.volatile := by
  unfold termOr0
  split
  · rfl
  · rfl

/-- The search for the first index of a term only reads. -/
@[simp] theorem searchTerm_volatile (term fuel lo hi : ℕ) (x : NodeTurn σ) :
    (x.searchTerm term fuel lo hi).2.volatile = x.volatile := by
  induction fuel generalizing lo hi x with
  | zero => rfl
  | succ fuel ih =>
    unfold searchTerm
    split
    · have hread : (x.read (Storage.term (lo + (hi - lo) / 2))).2.volatile = x.volatile := rfl
      dsimp only
      split
      · rename_i t y heq
        rw [heq] at hread
        split
        · rw [ih]
          exact hread
        · rw [ih]
          exact hread
      · rename_i e y heq
        rw [heq] at hread
        rw [ih]
        exact hread
    · rfl

/-- The check on the previous entry only reads. -/
@[simp] theorem checkPrevLog_volatile (req : AppendEntriesRequest) (x : NodeTurn σ) :
    (x.checkPrevLog req).2.volatile = x.volatile := by
  have hread : (x.read (Storage.term req.prevLogIndex)).2.volatile = x.volatile := rfl
  unfold checkPrevLog
  split
  · split
    · rename_i heq
      rw [heq] at hread
      exact hread
    · rename_i heq
      rw [heq] at hread
      exact hread
    · rename_i heq
      rw [heq] at hread
      split
      · unfold firstIndexOfTerm
        rw [searchTerm_volatile]
        exact hread
      · exact hread
  · rfl

/-- A batch goes to the disk; the memory knows nothing of it. -/
@[simp] theorem appendBatch_volatile (req : AppendEntriesRequest) (x : NodeTurn σ) :
    (x.appendBatch req).2.volatile = x.volatile := by
  unfold appendBatch
  split
  · rfl
  · rfl

/-- Sending a snapshot changes no memory, whatever the storage answers. -/
@[simp] theorem sendSnapshotTo_volatile (peer : NodeId) (x : NodeTurn σ) :
    (x.sendSnapshotTo cfg peer).volatile = x.volatile := by
  have hread : (x.read Storage.snapshot).2.volatile = x.volatile := rfl
  unfold sendSnapshotTo
  split
  · rename_i heq
    rw [heq] at hread
    exact hread
  · rename_i heq
    rw [heq] at hread
    exact hread
  · rename_i heq
    rw [heq] at hread
    exact hread

/-- Replication to a peer reads and sends; its progress moves at the response. -/
@[simp] theorem replicateTo_volatile (peer : NodeId) (x : NodeTurn σ) :
    (x.replicateTo cfg peer).volatile = x.volatile := by
  unfold replicateTo
  split
  · rfl
  · rename_i progress _
    have hpre :
        (x.termOr0 (u64Sub progress.nextIndex 1)).2.lastIndexOr0.2.volatile = x.volatile := by
      rw [lastIndexOr0_volatile, termOr0_volatile]
    dsimp only
    generalize (x.termOr0 (u64Sub progress.nextIndex 1)).2.lastIndexOr0 = last at hpre
    split
    · have hread : (last.2.read (Storage.entries progress.nextIndex (last.1 + 1)
          (some (cfg.maxAppendEntries * 4096)))).2.volatile = x.volatile := hpre
      split
      · rename_i heq
        rw [heq] at hread
        exact hread
      · rename_i heq
        rw [heq] at hread
        rw [sendSnapshotTo_volatile]
        exact hread
      · rename_i heq
        rw [heq] at hread
        exact hread
    · exact hpre

/-- Replication to all peers is one to each. -/
@[simp] theorem replicateAll_volatile (x : NodeTurn σ) :
    (x.replicateAll cfg).volatile = x.volatile := by
  unfold replicateAll
  split
  · rfl
  · exact Turn.foldl_keeps volatile (fun y peer => replicateTo_volatile peer y) cfg.peers x

/-- The scan for an index to commit only reads. -/
@[simp] theorem commitScan_volatile (n : ℕ) (x : NodeTurn σ) :
    (x.commitScan cfg n).2.volatile = x.volatile := by
  induction n generalizing x with
  | zero => rfl
  | succ n ih =>
    unfold commitScan
    split
    · dsimp only
      split
      · rfl
      · rw [ih]
        rfl
    · rfl

omit [Storage σ] in
/-- A fan-out only sends. -/
theorem fanOut_volatile (l : List NodeId) (req : RequestVoteRequest) (x : NodeTurn σ) :
    (l.foldl (fun y peer => y.effect (.spawned (.requestVote peer req))) x).volatile =
      x.volatile := by
  refine Turn.foldl_keeps volatile (fun y peer => ?_) l x
  rfl

omit [Storage σ] in
/-- Notification keeps those waiting that the commit index has not reached. -/
theorem notifyPending_volatile (x : NodeTurn σ) : x.notifyPending.volatile =
    { x.volatile with
      pending := x.node.pending.filter fun w => decide (x.node.sm.commitIndex < w.1) } := by
  unfold volatile
  rw [notifyPending_node]
  rfl

end NodeTurn

/-! ## The moves -/

/-- What a turn on `input` may do to the memory. -/
inductive Move (cfg : RaftConfig) (input : Input) : Volatile → Volatile → Prop
  /-- leader hint, commit index and last applied index -/
  | note (m : Volatile) (leader : Option NodeId) (commit applied : ℕ) :
      Move cfg input m { m with
        sm := { m.sm with leaderId := leader, commitIndex := commit, lastApplied := applied } }
  /-- the message carries a higher term -/
  | stepDown (m : Volatile) {term : ℕ} (leader : Option NodeId) (hinput : input.term? = some term)
      (h : term > m.sm.currentTerm) :
      Move cfg input m { m with sm := m.sm.becomeFollower term leader }
  /-- a vote is granted -/
  | grant (m : Volatile) {req : RequestVoteRequest} (hinput : input = .requestVote req)
      (hterm : req.term = m.sm.currentTerm)
      (hfree : NodeTurn.alreadyVoted m.sm req.candidateId = false) :
      Move cfg input m { m with sm := { m.sm with votedFor := some req.candidateId } }
  /-- the election timer fires -/
  | stand (m : Volatile) {heartbeatDue : Bool} (hinput : input = .timer true heartbeatDue)
      (hrole : m.sm.role ≠ .leader) :
      Move cfg input m { m with sm := m.sm.becomeCandidate cfg.id }
  /-- a granted vote arrives -/
  | count (m : Volatile) {peer : NodeId} {resp : RequestVoteResponse}
      (hinput : input = .message (.voteResponse peer resp)) (hrole : m.sm.role = .candidate) :
      Move cfg input m { m with
        sm := { m.sm with votesReceived := insert peer m.sm.votesReceived } }
  /-- the votes are a quorum -/
  | lead (m : Volatile) (last : ℕ) (hrole : m.sm.role = .candidate)
      (hquorum : cfg.quorum ≤ m.sm.votesReceived.card) :
      Move cfg input m { m with sm := m.sm.becomeLeader cfg.id last cfg.peers }
  /-- a follower reports -/
  | progress (m : Volatile) (peer : NodeId) (f : Progress → Progress)
      (hrole : m.sm.role = .leader) (hf : ∀ p, 1 ≤ (f p).nextIndex) :
      Move cfg input m { m with sm := NodeTurn.updateProgress peer f m.sm }
  /-- a proposal is accepted -/
  | accept (m : Volatile) {data : Bytes} {tx : Sender} (index : ℕ)
      (hinput : input = .message (.propose ⟨data, some tx⟩)) (hrole : m.sm.role = .leader) :
      Move cfg input m { m with pending := m.pending ++ [(index, tx)] }
  /-- what the commit index has reached is answered -/
  | answer (m : Volatile) (hrole : m.sm.role = .leader) :
      Move cfg input m { m with
        pending := m.pending.filter fun w => decide (m.sm.commitIndex < w.1) }

/-- Any number of moves. -/
abbrev Moves (cfg : RaftConfig) (input : Input) : Volatile → Volatile → Prop :=
  ReflTransGen (Move cfg input)

namespace NodeTurn

variable {σ : Type} [Storage σ] {cfg : RaftConfig} {input : Input}

omit [Storage σ] in
/-- A new commit index. -/
theorem moves_commit (x : NodeTurn σ) (commit : ℕ) :
    Moves cfg input x.volatile (x.modifySm fun sm => { sm with commitIndex := commit }).volatile :=
  .single (.note x.volatile x.sm.leaderId commit x.sm.lastApplied)

/-- A follower's commit index is a note. -/
theorem advanceCommit_moves (req : AppendEntriesRequest) (x : NodeTurn σ) :
    Moves cfg input x.volatile (x.advanceCommit req).volatile := by
  unfold advanceCommit
  split
  · exact moves_commit x _
  · exact .refl

/-- The commit step notes an index, and answers those it reaches. -/
theorem maybeAdvanceCommit_moves (x : NodeTurn σ) :
    Moves cfg input x.volatile (x.maybeAdvanceCommit cfg).volatile := by
  unfold maybeAdvanceCommit
  split
  · exact .refl
  · rename_i hlead
    have hrole : x.sm.role = .leader := Decidable.not_not.mp hlead
    dsimp only
    have hscan : (x.lastIndexOr0.2.commitScan cfg x.lastIndexOr0.1).2.volatile = x.volatile := by
      rw [commitScan_volatile, lastIndexOr0_volatile]
    generalize x.lastIndexOr0.2.commitScan cfg x.lastIndexOr0.1 = scan at hscan
    have hscanrole : scan.2.sm.role = .leader := by
      rw [show scan.2.sm = x.sm from congrArg Volatile.sm hscan, hrole]
    rw [← hscan]
    rw [notifyPending_volatile]
    split
    · exact (moves_commit scan.2 scan.1).tail (.answer _ hscanrole)
    · exact .single (.answer scan.2.volatile hscanrole)

/-- Each applied entry is a note of its index. -/
theorem applyCommitted_moves (x : NodeTurn σ) :
    Moves cfg input x.volatile x.applyCommitted.volatile := by
  have hfold : ∀ (es : List LogEntry) (y : NodeTurn σ),
      Moves cfg input y.volatile (es.foldl applyOne y).volatile := by
    intro es
    induction es with
    | nil => exact fun _ => .refl
    | cons e es ih =>
      intro y
      refine .head (.note y.volatile y.sm.leaderId y.sm.commitIndex e.index) ?_
      exact ih (y.applyOne e)
  unfold applyCommitted
  dsimp only
  split
  · exact .refl
  · have hread : (x.read (Storage.entries (x.sm.lastApplied + 1) (x.sm.commitIndex + 1)
        none)).2.volatile = x.volatile := rfl
    split
    · rename_i es y heq
      rw [heq] at hread
      rw [← hread]
      exact hfold es y
    · rename_i e y heq
      rw [heq] at hread
      rw [hread]

/-- Stepping down is a move of its own. -/
theorem descend_moves {term : ℕ} (hinput : input.term? = some term) (leader : Option NodeId)
    (x : NodeTurn σ) : Moves cfg input x.volatile (x.descend term leader).volatile := by
  unfold descend
  split
  · exact .single (.stepDown x.volatile leader hinput ‹_›)
  · exact .refl

/-- A candidate with a quorum of votes becomes leader. -/
theorem takeLeadership_moves {x : NodeTurn σ} (hrole : x.sm.role = .candidate)
    (hquorum : cfg.quorum ≤ x.sm.votesReceived.card) :
    Moves cfg input x.volatile (x.takeLeadership cfg).volatile := by
  unfold takeLeadership
  dsimp only
  rw [replicateAll_volatile]
  exact .single (.lead x.volatile _ hrole hquorum)

/-- An election is a candidacy, and in a cluster of one a leadership behind it. -/
theorem startElection_moves {x : NodeTurn σ} {heartbeatDue : Bool} (hrole : x.sm.role ≠ .leader) :
    Moves cfg (.timer true heartbeatDue) x.volatile (x.startElection cfg).volatile := by
  have hstand : Move cfg (.timer true heartbeatDue) x.volatile
      { x.volatile with sm := x.sm.becomeCandidate cfg.id } := .stand x.volatile rfl hrole
  unfold startElection
  dsimp only
  have hstart : (x.modifySm (.becomeCandidate cfg.id)).saveHardState.volatile =
    { x.volatile with sm := x.sm.becomeCandidate cfg.id } := rfl
  generalize (x.modifySm (.becomeCandidate cfg.id)).saveHardState = y at hstart
  have hterm : (y.lastIndexOr0.2.termOr0 y.lastIndexOr0.1).2.volatile =
      { x.volatile with sm := x.sm.becomeCandidate cfg.id } := by
    rw [termOr0_volatile, lastIndexOr0_volatile, hstart]
  generalize y.lastIndexOr0.2.termOr0 y.lastIndexOr0.1 = z at hterm
  have hfan : ∀ req : RequestVoteRequest, (cfg.peers.foldl (fun w peer =>
      w.effect (.spawned (.requestVote peer req)))
      (modifyMetrics (fun m => { m with electionsStarted := m.electionsStarted + 1 })
        (z.2.effect (.electionStarted z.2.sm.currentTerm)))).volatile =
          { x.volatile with sm := x.sm.becomeCandidate cfg.id } := by
    intro req
    rw [fanOut_volatile]
    exact hterm
  split
  · rename_i hwon
    refine .head hstand ?_
    rw [← hfan]
    exact takeLeadership_moves hwon.2 hwon.1
  · rw [hfan]
    exact .single hstand

/-! ## The handlers -/

/-- A request of a leader steps down, notes the leader, and notes its commit index. -/
theorem onAppendEntries_moves (req : AppendEntriesRequest) (x : NodeTurn σ) :
    Moves cfg (.appendEntries req) x.volatile (x.onAppendEntries req).2.volatile := by
  unfold onAppendEntries
  dsimp only
  rw [← descend]
  have hdown : Moves cfg (.appendEntries req) x.volatile
      (x.descend req.term (some req.leaderId)).volatile := descend_moves rfl _ x
  generalize x.descend req.term (some req.leaderId) = y at hdown
  split
  · exact hdown
  · have hhint : Moves cfg (.appendEntries req) x.volatile
        (y.modifySm fun sm => { sm with leaderId := some req.leaderId }).volatile :=
      hdown.tail (.note y.volatile (some req.leaderId) y.sm.commitIndex y.sm.lastApplied)
    generalize (y.modifySm fun sm => { sm with leaderId := some req.leaderId }) = z at hhint
    have hcheck := checkPrevLog_volatile req z
    generalize z.checkPrevLog req = check at hcheck
    obtain ⟨verdict, w⟩ := check
    cases verdict with
    | some resp =>
      dsimp only at hcheck ⊢
      rw [hcheck]
      exact hhint
    | none =>
      dsimp only at hcheck ⊢
      have hbatch := appendBatch_volatile req w
      generalize w.appendBatch req = written at hbatch
      obtain ⟨result, v⟩ := written
      have hv : Moves cfg (.appendEntries req) x.volatile v.volatile := by
        rw [show v.volatile = w.volatile from hbatch, hcheck]
        exact hhint
      cases result with
      | error e => exact hv
      | ok _ => exact hv.trans (advanceCommit_moves req v)

/-- A vote is granted in the term of its request. -/
theorem onRequestVote_moves (req : RequestVoteRequest) (x : NodeTurn σ) :
    Moves cfg (.requestVote req) x.volatile (x.onRequestVote req).2.volatile := by
  unfold onRequestVote
  dsimp only
  rw [← descend]
  have hdown : Moves cfg (.requestVote req) x.volatile (x.descend req.term none).volatile :=
    descend_moves rfl none x
  have hge := le_descend req.term none x
  generalize x.descend req.term none = y at hdown hge
  split
  · exact hdown
  · rename_i hle
    split
    · exact hdown
    · rename_i hfree
      have hread : (y.lastIndexOr0.2.termOr0 y.lastIndexOr0.1).2.volatile = y.volatile := by
        rw [termOr0_volatile, lastIndexOr0_volatile]
      generalize y.lastIndexOr0.2.termOr0 y.lastIndexOr0.1 = z at hread
      have hsm : z.2.sm = y.sm := congrArg Volatile.sm hread
      split
      · refine hdown.tail ?_
        rw [← hread]
        refine .grant z.2.volatile rfl ?_ ?_
        · show req.term = z.2.sm.currentTerm
          rw [hsm]
          exact Nat.le_antisymm hge (Nat.le_of_not_lt hle)
        · show alreadyVoted z.2.sm req.candidateId = false
          rw [hsm]
          exact Bool.eq_false_iff.mpr hfree
      · rw [hread]
        exact hdown

/-- A snapshot steps down, and notes the indices it covers. -/
theorem onInstallSnapshot_moves (req : InstallSnapshotRequest) (x : NodeTurn σ) :
    Moves cfg (.installSnapshot req) x.volatile (x.onInstallSnapshot req).2.volatile := by
  unfold onInstallSnapshot
  dsimp only
  rw [← descend]
  have hdown : Moves cfg (.installSnapshot req) x.volatile
      (x.descend req.term (some req.leaderId)).volatile := descend_moves rfl _ x
  generalize x.descend req.term (some req.leaderId) = y at hdown
  split
  · exact hdown
  · split
    · split
      · rename_i e z heq
        have hz : z.volatile = y.volatile := congrArg (fun r => NodeTurn.volatile r.2) heq.symm
        rw [hz]
        exact hdown
      · rename_i z heq
        have hz : z.volatile = y.volatile := congrArg (fun r => NodeTurn.volatile r.2) heq.symm
        refine hdown.tail ?_
        rw [← hz]
        exact .note z.volatile z.sm.leaderId _ _
    · exact hdown

/-- A granted vote is counted, and a quorum of them makes a leader. -/
theorem handleVoteResponse_moves (peer : NodeId) (resp : RequestVoteResponse) (x : NodeTurn σ) :
    Moves cfg (.message (.voteResponse peer resp)) x.volatile
      (x.handleVoteResponse cfg peer resp).volatile := by
  unfold handleVoteResponse
  split
  · exact .single (.stepDown x.volatile none rfl ‹_›)
  · split
    · rename_i hvote
      have hcount : Moves cfg (.message (.voteResponse peer resp)) x.volatile (x.modifySm fun sm =>
          { sm with votesReceived := insert peer sm.votesReceived }).volatile :=
        .single (.count x.volatile rfl hvote.2)
      dsimp only
      split
      · rename_i hquorum
        exact hcount.trans (takeLeadership_moves hvote.2 hquorum)
      · exact hcount
    · exact .refl

/-- A report moves the progress of its peer, and then the commit index. -/
theorem handleResponse_moves (peer : NodeId) {f : Progress → Progress}
    (hf : ∀ p, 1 ≤ (f p).nextIndex) {term : ℕ} (hinput : input.term? = some term)
    (x : NodeTurn σ) :
    Moves cfg input x.volatile (x.handleResponse cfg peer f term).volatile := by
  obtain heq | ⟨-, hlead, heq⟩ := handleResponse_cases cfg peer f term x
  · rw [heq]
    exact descend_moves hinput none x
  · rw [heq]
    refine .head (.progress x.volatile peer f hlead hf) ?_
    exact maybeAdvanceCommit_moves (x.modifySm (updateProgress peer f))

/-- A leader keeps the caller of a proposal it has appended. -/
theorem onProposal_moves (proposal : Proposal) (x : NodeTurn σ) :
    Moves cfg (.message (.propose proposal)) x.volatile (x.onProposal cfg proposal).volatile := by
  obtain ⟨data, tx⟩ := proposal
  unfold onProposal
  dsimp only
  split
  · cases tx with
    | none => exact .refl
    | some tx => exact .refl
  · rename_i hlead
    split
    · rename_i e y heq
      have hy : y.volatile = x.volatile := congrArg (fun r => NodeTurn.volatile r.2) heq.symm
      rw [← hy]
      cases tx with
      | none => exact .refl
      | some tx => exact .refl
    · rename_i y heq
      have hy : y.volatile = x.volatile := congrArg (fun r => NodeTurn.volatile r.2) heq.symm
      rw [← hy, replicateAll_volatile]
      cases tx with
      | none => exact .refl
      | some tx =>
        refine .single (.accept y.volatile _ rfl ?_)
        rw [hy]
        exact Decidable.not_not.mp hlead

/-- The timer starts an election, or commits and applies. -/
theorem timerBranch_moves (electionDue heartbeatDue : Bool) (x : NodeTurn σ) :
    Moves cfg (.timer electionDue heartbeatDue) x.volatile
      (x.timerBranch cfg electionDue heartbeatDue).volatile := by
  unfold timerBranch
  split
  · rename_i hdue
    obtain rfl : electionDue = true := hdue.1
    exact startElection_moves hdue.2
  · split
    · have hsent : (x.replicateAll cfg).volatile = x.volatile := replicateAll_volatile x
      dsimp only
      rw [← hsent]
      exact (maybeAdvanceCommit_moves _).trans (applyCommitted_moves _)
    · exact .refl

/-- The messages of the event loop, one by one. -/
theorem handleMessage_moves (msg : RaftMessage) (x : NodeTurn σ) :
    Moves cfg (.message msg) x.volatile (x.handleMessage cfg msg).volatile := by
  cases msg with
  | voteResponse peer resp => exact handleVoteResponse_moves peer resp x
  | appendResponse peer last resp =>
    exact handleResponse_moves peer (one_le_progressAfterAppend last resp) rfl x
  | snapshotResponse peer last resp =>
    exact handleResponse_moves peer (one_le_progressAfterSnapshot last) rfl x
  | propose proposal => exact onProposal_moves proposal x
  | _ => exact .refl

/-- A turn is a sequence of moves. -/
theorem run_moves (input : Input) (x : NodeTurn σ) :
    Moves cfg input x.volatile (NodeTurn.run cfg input x).volatile := by
  cases input with
  | appendEntries req => exact onAppendEntries_moves req x
  | requestVote req => exact onRequestVote_moves req x
  | installSnapshot req => exact onInstallSnapshot_moves req x
  | message msg => exact handleMessage_moves msg x
  | timer electionDue heartbeatDue => exact timerBranch_moves electionDue heartbeatDue x

end NodeTurn

namespace Process

variable {σ : Type} [Storage σ]

/-- The memory right after a boot. -/
theorem boot_volatile (s : σ) : ∃ term vote commit, (boot s).node.volatile =
    ⟨{ currentTerm := term, votedFor := vote, commitIndex := commit, lastApplied := commit },
      []⟩ := by
  unfold boot NodeTurn.restore
  dsimp only
  split
  · rename_i hs y heq
    have hy : y.volatile = ⟨.new, []⟩ := congrArg (fun r => NodeTurn.volatile r.2) heq.symm
    refine ⟨hs.term, if hs.vote = 0 then none else some hs.vote, hs.commit, ?_⟩
    show { y.volatile with sm := { y.volatile.sm with
      currentTerm := hs.term, votedFor := if hs.vote = 0 then none else some hs.vote,
      commitIndex := hs.commit, lastApplied := hs.commit } } = _
    rw [hy]
    rfl
  · rename_i e y heq
    have hy : y.volatile = ⟨.new, []⟩ := congrArg (fun r => NodeTurn.volatile r.2) heq.symm
    refine ⟨0, none, 0, ?_⟩
    show y.volatile = _
    rw [hy]
    rfl

/-- What every move keeps, every turn keeps. -/
theorem turn_keeps {cfg : RaftConfig} {input : Input} {I : Volatile → Prop}
    (hmove : ∀ m m', Move cfg input m m' → I m → I m') {p : Process σ} (hI : I p.node.volatile) :
    I (p.turn cfg input).node.volatile := by
  have hmoves : Moves cfg input p.node.volatile (p.turn cfg input).node.volatile :=
    NodeTurn.run_moves input (Turn.start p.node)
  generalize (p.turn cfg input).node.volatile = m' at hmoves
  induction hmoves with
  | refl => exact hI
  | tail _ hlast ih => exact hmove _ _ hlast ih

/-- What a boot establishes and every move keeps holds after every activation. -/
theorem invariant_of_moves {cfg : RaftConfig} {ok : Input → Prop} {I : Volatile → Prop}
    (hboot : ∀ s : σ, I (boot s).node.volatile)
    (hmove : ∀ input m m', ok input → Move cfg input m m' → I m → I m') (s : σ)
    (es : List (Input × Option ℕ)) (hok : ∀ e ∈ es, ok e.1) :
    I ((boot s).exec cfg es).node.volatile := by
  have hact : ∀ (p : Process σ) (e : Input × Option ℕ), ok e.1 → I p.node.volatile →
      I (p.act cfg e.1 e.2).node.volatile := by
    rintro p ⟨input, crashAt⟩ he hI
    cases crashAt with
    | some k => exact hboot _
    | none => exact turn_keeps (fun m m' => hmove input m m' he) hI
  have hrun : ∀ (p : Process σ), I p.node.volatile → I (p.exec cfg es).node.volatile := by
    induction es with
    | nil => exact fun _ hI => hI
    | cons e es ih =>
      intro p hI
      exact ih (fun e' he' => hok e' (List.mem_cons_of_mem _ he')) _
        (hact p e (hok e List.mem_cons_self) hI)
  exact hrun _ (hboot s)

end Process

end IceRaft
