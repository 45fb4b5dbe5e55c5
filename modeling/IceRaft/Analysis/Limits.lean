import IceRaft.Analysis.LeaderTurns
import IceRaft.Analysis.SnapshotOrder

/-!
# Sums at the end of the range

Terms and indices are `u64`, and the code adds one to the term, the commit index, the last
index of the log and the last index of the snapshot without a check.  All four are taken over
from requests, and added to later.  The model counts without a bound; up to the first sum that
does not fit it does what the code does.
-/

set_option autoImplicit false

namespace IceRaft

open MemStorage Cluster

/-- One more than each of term, commit index, last index and last included index is a `u64`. -/
structure SumsFit (n : RaftNodeInner MemStorage) : Prop where
  term : n.sm.currentTerm + 1 ≤ u64Max
  commit : n.sm.commitIndex + 1 ≤ u64Max
  last : n.storage.lastIndex + 1 ≤ u64Max
  first : n.storage.firstIndex ≤ u64Max

/-- A term that is taken over is not the last one. -/
def TermFits (n : RaftNodeInner MemStorage) (term : ℕ) : Prop :=
  n.sm.currentTerm < term → term < u64Max

/-- What the input brings to the node leaves room for one more. -/
def StaysBelow (n : RaftNodeInner MemStorage) : Input → Prop
  | .appendEntries req => TermFits n req.term ∧
    (Accepts n req = true → ∀ e ∈ req.batch.getLast?, e.index < u64Max)
  | .requestVote req => TermFits n req.term
  | .installSnapshot req => TermFits n req.term ∧
    (n.sm.currentTerm ≤ req.term → req.done = true →
      (n.assembled req).metadata.lastIncludedIndex < u64Max ∧ req.lastIncludedIndex < u64Max)
  | .message (.voteResponse _ resp) => TermFits n resp.term
  | .message (.appendResponse _ _ resp) => TermFits n resp.term
  | .message (.snapshotResponse _ _ resp) => TermFits n resp.term
  | .message (.propose _) => n.sm.role = .leader → n.storage.lastIndex + 1 < u64Max
  | .timer electionDue _ =>
    electionDue = true → n.sm.role ≠ .leader → n.sm.currentTerm + 1 < u64Max
  | _ => True

/-- What the sums are made of. -/
def limits (n : RaftNodeInner MemStorage) : ℕ × ℕ × ℕ × ℕ :=
  (n.sm.currentTerm, n.sm.commitIndex, n.storage.lastIndex, n.storage.firstIndex)

/-- Whether the sums fit is read off the limits. -/
theorem sumsFit_iff {n : RaftNodeInner MemStorage} {t c l f : ℕ} (h : limits n = (t, c, l, f)) :
    SumsFit n ↔ t < u64Max ∧ c < u64Max ∧ l < u64Max ∧ f ≤ u64Max := by
  unfold limits at h
  rw [Prod.mk.injEq, Prod.mk.injEq, Prod.mk.injEq] at h
  obtain ⟨rfl, rfl, rfl, rfl⟩ := h
  constructor
  · intro h
    exact ⟨h.term, h.commit, h.last, h.first⟩
  · rintro ⟨hterm, hcommit, hlast, hfirst⟩
    exact ⟨hterm, hcommit, hlast, hfirst⟩

instance (n : RaftNodeInner MemStorage) : Decidable (SumsFit n) :=
  decidable_of_iff _ (sumsFit_iff (n := n) rfl).symm

/-! ## The log -/

/-- The log ends where the batch does, if there is one. -/
theorem lastIndex_appendEntries (s : MemStorage) (batch : List LogEntry) :
    (s.appendEntries batch).lastIndex = match batch.getLast? with
      | some e => e.index
      | none => s.lastIndex := by
  cases batch with
  | nil => rfl
  | cons head rest =>
    have hlast : (s.appendEntries (head :: rest)).entries.getLast? = (head :: rest).getLast? := by
      unfold appendEntries
      dsimp only
      rw [List.getLast?_append_of_ne_nil _ (List.cons_ne_nil _ _)]
    unfold lastIndex
    rw [hlast, List.getLast?_cons]

/-- Behind a snapshot the log ends where it did, or where the snapshot does. -/
theorem lastIndex_applySnapshot_cases (s : MemStorage) (snap : Snapshot) :
    (s.applySnapshot snap).lastIndex = s.lastIndex ∨
      (s.applySnapshot snap).lastIndex = snap.metadata.lastIncludedIndex := by
  have hkept : (s.applySnapshot snap).entries = [] ∨
      (s.applySnapshot snap).entries.getLast? = s.entries.getLast? := by
    unfold applySnapshot
    dsimp only
    split
    · split
      · exact .inl rfl
      · rename_i hlt
        rw [List.getLast?_drop, if_neg hlt]
        exact .inr rfl
    · exact .inr rfl
  unfold lastIndex
  rcases hkept with hnil | hlast
  · rw [hnil]
    exact .inr rfl
  · rw [hlast]
    cases s.entries.getLast? with
    | none => exact .inr rfl
    | some e => exact .inl rfl

namespace NodeTurn

variable {x : NodeTurn MemStorage} {cfg : RaftConfig}

/-- A count moves no limit. -/
theorem modifyMetrics_limits (f : RaftMetrics → RaftMetrics) (x : NodeTurn MemStorage) :
    limits (x.modifyMetrics f).node = limits x.node := rfl

/-- Saving moves no limit. -/
theorem saveHardState_limits (x : NodeTurn MemStorage) :
    limits x.saveHardState.node = limits x.node := by
  unfold saveHardState
  dsimp only
  rw [modifyMetrics_limits]
  rfl

/-- Stepping down moves the term. -/
theorem descend_limits (term : ℕ) (leaderId : Option NodeId) (x : NodeTurn MemStorage) :
    limits (x.descend term leaderId).node = (max x.sm.currentTerm term, x.sm.commitIndex,
      x.node.storage.lastIndex, x.node.storage.firstIndex) := by
  unfold descend
  split
  · rename_i hlt
    rw [Nat.max_eq_right (Nat.le_of_lt hlt)]
    unfold stepDown
    rw [saveHardState_limits]
    rfl
  · rename_i hle
    rw [Nat.max_eq_left (Nat.le_of_not_lt hle)]
    rfl

/-- A vote moves no limit. -/
theorem grant_limits (req : RequestVoteRequest) (x : NodeTurn MemStorage) :
    limits (x.grant req).node = limits x.node := by
  unfold grant
  rw [Turn.emit_node, modifyMetrics_limits, saveHardState_limits]
  rfl

/-- A request for a vote moves at most the term. -/
theorem handleRequestVote_limits (req : RequestVoteRequest) (x : NodeTurn MemStorage) :
    limits (x.handleRequestVote req).node = limits (x.descend req.term none).node := by
  unfold handleRequestVote onRequestVote
  dsimp only
  rw [← descend]
  generalize x.descend req.term none = y
  split
  · rfl
  · split
    · rfl
    · rw [lastIndexOr0_eq, termOr0_eq]
      dsimp only
      generalize (if y.node.storage.lastIndex > 0 then
        unwrapOr (y.node.storage.term y.node.storage.lastIndex) 0 else 0) = t
      split
      · exact grant_limits req y
      · rfl

/-- A leadership moves no limit. -/
theorem takeLeadership_limits (cfg : RaftConfig) (x : NodeTurn MemStorage) :
    limits (x.takeLeadership cfg).node = limits x.node := by
  unfold takeLeadership
  rw [lastIndexOr0_eq]
  dsimp only
  rw [replicateAll_node, modifyMetrics_limits]
  rfl

/-- The response of a voter moves at most the term. -/
theorem handleVoteResponse_limits (peer : NodeId) (resp : RequestVoteResponse)
    (x : NodeTurn MemStorage) : limits (x.handleVoteResponse cfg peer resp).node =
      limits (x.descend resp.term none).node := by
  unfold handleVoteResponse descend
  split
  · rfl
  · split
    · dsimp only
      split
      · exact takeLeadership_limits cfg _
      · rfl
    · rfl

/-- A candidacy moves the term by one. -/
theorem startElection_limits (cfg : RaftConfig) (x : NodeTurn MemStorage) :
    limits (x.startElection cfg).node = (x.sm.currentTerm + 1, x.sm.commitIndex,
      x.node.storage.lastIndex, x.node.storage.firstIndex) := by
  have hstood : limits (x.modifySm (.becomeCandidate cfg.id)).saveHardState.node =
      (x.sm.currentTerm + 1, x.sm.commitIndex, x.node.storage.lastIndex,
        x.node.storage.firstIndex) := saveHardState_limits _
  unfold startElection
  dsimp only
  generalize (x.modifySm (.becomeCandidate cfg.id)).saveHardState = y at hstood
  rw [lastIndexOr0_eq, termOr0_eq]
  dsimp only
  generalize (if y.node.storage.lastIndex > 0 then
    unwrapOr (y.node.storage.term y.node.storage.lastIndex) 0 else 0) = t
  have hfan : ∀ req : RequestVoteRequest, limits (cfg.peers.foldl (fun z peer =>
      z.effect (.spawned (.requestVote peer req)))
      (modifyMetrics (fun m => { m with electionsStarted := m.electionsStarted + 1 })
        (y.effect (.electionStarted y.sm.currentTerm)))).node = limits y.node := by
    intro req
    rw [fanOut_node, modifyMetrics_limits]
    rfl
  split
  · rw [takeLeadership_limits, hfan, hstood]
  · rw [hfan, hstood]

/-- The commit step moves the commit index within the log. -/
theorem maybeAdvanceCommit_limits (cfg : RaftConfig) (x : NodeTurn MemStorage) :
    limits (x.maybeAdvanceCommit cfg).node = (x.sm.currentTerm, nextCommit cfg x,
      x.node.storage.lastIndex, x.node.storage.firstIndex) := by
  obtain ⟨hsm, hentries, hsnapshot⟩ := maybeAdvanceCommit_node cfg x
  unfold limits
  rw [hsm, eq_of_log hentries hsnapshot]
  rfl

/-- Applying moves no limit. -/
theorem applyCommitted_limits (x : NodeTurn MemStorage) :
    limits x.applyCommitted.node = limits x.node := by
  have hfold : ∀ (es : List LogEntry) (y : NodeTurn MemStorage),
      limits (es.foldl applyOne y).node = limits y.node :=
    Turn.foldl_keeps (fun y => limits y.node) fun _ _ => rfl
  unfold applyCommitted
  dsimp only
  split
  · rfl
  · rw [read_entries]
    generalize x.node.storage.readEntries _ _ _ = result
    cases result with
    | ok es => exact hfold es x
    | error e => rfl

/-- A leader's proposal makes the log one entry longer. -/
theorem onProposal_limits (proposal : Proposal) (x : NodeTurn MemStorage) :
    limits (x.onProposal cfg proposal).node = (x.sm.currentTerm, x.sm.commitIndex,
      if x.sm.role = .leader then x.node.storage.lastIndex + 1 else x.node.storage.lastIndex,
      x.node.storage.firstIndex) := by
  unfold onProposal
  dsimp only
  split
  · cases proposal.tx <;> rfl
  · rename_i hrole
    rw [lastIndexOr0_eq, if_pos (Decidable.not_not.mp hrole)]
    dsimp only
    have happended : ∀ e : LogEntry, limits (x.node.setStorage
        (x.node.storage.appendEntries [e])) = (x.sm.currentTerm, x.sm.commitIndex, e.index,
          x.node.storage.firstIndex) := by
      intro e
      unfold limits RaftNodeInner.setStorage
      dsimp only
      rw [lastIndex_appendEntries, appendEntries_firstIndex]
      rfl
    split
    · rename_i heq
      cases heq
    · rename_i heq
      cases heq
      rw [replicateAll_node]
      have hentry := happended
        ⟨x.sm.currentTerm, x.node.storage.lastIndex + 1, proposal.data, .normal⟩
      cases proposal.tx with
      | none => exact hentry
      | some tx => exact hentry

/-- Behind an accepted request. -/
theorem handleAppendEntries_limits {req : AppendEntriesRequest}
    (h : Accepts x.node req = true) : limits (x.handleAppendEntries req).node =
      (req.term,
        if req.leaderCommit > x.sm.commitIndex then
          min req.leaderCommit (x.node.storage.appendEntries req.batch).lastIndex
        else x.sm.commitIndex,
        (x.node.storage.appendEntries req.batch).lastIndex, x.node.storage.firstIndex) := by
  obtain ⟨-, hnode⟩ := onAppendEntries_accepted h
  have hcommit := onAppendEntries_commit h
  show limits (x.onAppendEntries req).2.node = _
  have hlog := eq_of_log hnode.entries (hnode.snapshot.trans (appendEntries_snapshot _ _).symm)
  unfold limits
  rw [hnode.term, hlog]
  show (_, (x.onAppendEntries req).2.sm.commitIndex, _,
    (x.node.storage.appendEntries req.batch).firstIndex) = _
  rw [hcommit, appendEntries_firstIndex]
  rfl

/-- A request that is not accepted only brings its term. -/
theorem handleAppendEntries_limits_of_not {req : AppendEntriesRequest}
    (h : ¬ Accepts x.node req = true) : limits (x.handleAppendEntries req).node =
      limits (x.descend req.term none).node := by
  rw [descend_limits]
  by_cases hterm : x.sm.currentTerm ≤ req.term
  · have hprev : ¬ PrevOk x.node.storage req := fun hprev =>
      h ((accepts_iff _ _).mpr ⟨hterm, hprev⟩)
    obtain ⟨c, t, -, -, -, hfailed⟩ := onAppendEntries_failed hterm hprev
    show limits (x.onAppendEntries req).2.node = _
    rw [hfailed, ← descend_limits req.term (some req.leaderId)]
    rfl
  · have hlt := Nat.lt_of_not_le hterm
    rw [handleAppendEntries_stale hlt, Nat.max_eq_left (Nat.le_of_lt hlt)]
    rfl

/-- Behind the last chunk of a snapshot. -/
theorem handleInstallSnapshot_limits {req : InstallSnapshotRequest}
    (hterm : x.sm.currentTerm ≤ req.term) (hdone : req.done = true) :
    limits (x.handleInstallSnapshot req).node =
      (req.term, max x.sm.commitIndex req.lastIncludedIndex,
        (x.node.storage.applySnapshot (x.node.assembled req)).lastIndex,
        (x.node.assembled req).metadata.lastIncludedIndex + 1) := by
  have hseen := recogniseSnapshot_term hterm
  have hlog : Contents (x.recogniseSnapshot req).node x.node.storage.entries
      x.node.storage.snapshot x.node.snapshotBuf req.term :=
    descend_contents (some req.leaderId) hterm
  obtain ⟨-, hsm, -, hstorage⟩ := onInstallSnapshot_installed (x := x) hterm hdone rfl
  unfold applyOutcome at hstorage
  rw [eq_of_log hlog.entries hlog.snapshot] at hstorage
  show limits (x.onInstallSnapshot req).2.node = _
  unfold limits
  rw [hstorage, show (x.onInstallSnapshot req).2.node.sm = _ from hsm, ← hseen]
  rfl

/-- Any other chunk only brings its term. -/
theorem handleInstallSnapshot_limits_of_not {req : InstallSnapshotRequest}
    (h : ¬ (x.sm.currentTerm ≤ req.term ∧ req.done = true)) :
    limits (x.handleInstallSnapshot req).node = limits (x.descend req.term none).node := by
  rw [descend_limits]
  by_cases hterm : x.sm.currentTerm ≤ req.term
  · have hdone : req.done = false := Bool.eq_false_iff.mpr fun hdone => h ⟨hterm, hdone⟩
    obtain ⟨-, hnode⟩ := onInstallSnapshot_buffered (x := x) hterm hdone
    show limits (x.onInstallSnapshot req).2.node = _
    rw [hnode, ← descend_limits req.term (some req.leaderId)]
    rfl
  · have hlt := Nat.lt_of_not_le hterm
    rw [handleInstallSnapshot_stale hlt, Nat.max_eq_left (Nat.le_of_lt hlt)]
    rfl

end NodeTurn

/-! ## One input -/

variable {cfg : RaftConfig} {n n' : RaftNodeInner MemStorage}

/-- An input that only brings a term. -/
theorem SumsFit.descend_iff (h : SumsFit n) {term : ℕ}
    (hn : limits n' = limits (NodeTurn.descend term none (Turn.start n)).node) :
    SumsFit n' ↔ TermFits n term := by
  have hterm : n.sm.currentTerm < u64Max := h.term
  have hlim := hn.trans (NodeTurn.descend_limits term none (Turn.start n))
  rw [sumsFit_iff hlim]
  constructor
  · rintro ⟨hmax, -⟩ -
    exact Nat.lt_of_le_of_lt (Nat.le_max_right _ _) hmax
  · intro hfits
    refine ⟨?_, h.commit, h.last, h.first⟩
    rcases Nat.lt_or_ge n.sm.currentTerm term with hlt | hge
    · exact Nat.max_lt.mpr ⟨hterm, hfits hlt⟩
    · exact Nat.max_lt.mpr ⟨hterm, Nat.lt_of_le_of_lt hge hterm⟩

/-- The commit step commits nothing behind the log. -/
theorem SumsFit.advance {x : NodeTurn MemStorage} (h : SumsFit x.node) :
    SumsFit (x.maybeAdvanceCommit cfg).node := by
  rw [sumsFit_iff (NodeTurn.maybeAdvanceCommit_limits cfg x)]
  refine ⟨h.term, ?_, h.last, h.first⟩
  rcases NodeTurn.nextCommit_cases cfg x with heq | ⟨-, -, hle, -⟩
  · rw [heq]
    exact h.commit
  · exact Nat.lt_of_le_of_lt hle h.last

/-- The report of a follower brings its term, and progress that the sums do not look at. -/
theorem SumsFit.report_iff (h : SumsFit n) {peer : NodeId} {f : Progress → Progress} {term : ℕ}
    (hn : n' = (NodeTurn.handleResponse cfg peer f term (Turn.start n)).node) :
    SumsFit n' ↔ TermFits n term := by
  rw [hn]
  obtain heq | ⟨hle, -, heq⟩ := NodeTurn.handleResponse_cases cfg peer f term (Turn.start n)
  · rw [heq]
    exact h.descend_iff rfl
  · refine iff_of_true ?_ fun hgt => absurd hle (Nat.not_le.mpr hgt)
    rw [heq]
    apply SumsFit.advance
    obtain ⟨m, hm⟩ := NodeTurn.updateProgress_eq peer f n.sm
    have hsame : limits (n.setSm (NodeTurn.updateProgress peer f n.sm)) = limits n := by
      rw [hm]
      rfl
    exact (sumsFit_iff hsame).mpr ⟨h.term, h.commit, h.last, h.first⟩

/-- A batch leaves room if its term and its last index do. -/
theorem SumsFit.appendEntries_iff (h : SumsFit n) {req : AppendEntriesRequest}
    (haccepts : Accepts n req = true) :
    SumsFit (NodeTurn.handleAppendEntries req (Turn.start n)).node ↔
      req.term < u64Max ∧ ∀ e ∈ req.batch.getLast?, e.index < u64Max := by
  have hcommit : n.sm.commitIndex < u64Max := h.commit
  have hend : (n.storage.appendEntries req.batch).lastIndex < u64Max ↔
      ∀ e ∈ req.batch.getLast?, e.index < u64Max := by
    rw [lastIndex_appendEntries]
    cases req.batch.getLast? with
    | none => exact iff_of_true h.last nofun
    | some e => exact ⟨fun hlt e' he' => Option.some.inj he' ▸ hlt, fun hall => hall e rfl⟩
  rw [sumsFit_iff (NodeTurn.handleAppendEntries_limits (x := Turn.start n) haccepts), ← hend]
  constructor
  · rintro ⟨hterm, -, hlast, -⟩
    exact ⟨hterm, hlast⟩
  · rintro ⟨hterm, hlast⟩
    refine ⟨hterm, ?_, hlast, h.first⟩
    split
    · exact Nat.lt_of_le_of_lt (Nat.min_le_right _ _) hlast
    · exact hcommit

/-- A snapshot leaves room if its term and its indices do. -/
theorem SumsFit.installSnapshot_iff (h : SumsFit n) {req : InstallSnapshotRequest}
    (hterm : n.sm.currentTerm ≤ req.term) (hdone : req.done = true) :
    SumsFit (NodeTurn.handleInstallSnapshot req (Turn.start n)).node ↔
      req.term < u64Max ∧ (n.assembled req).metadata.lastIncludedIndex < u64Max ∧
        req.lastIncludedIndex < u64Max := by
  rw [sumsFit_iff (NodeTurn.handleInstallSnapshot_limits (x := Turn.start n) hterm hdone)]
  constructor
  · rintro ⟨hterm', hcommit, -, hfirst⟩
    exact ⟨hterm', hfirst, Nat.lt_of_le_of_lt (Nat.le_max_right _ _) hcommit⟩
  · rintro ⟨hterm', hfirst, hcommit⟩
    refine ⟨hterm', Nat.max_lt.mpr ⟨h.commit, hcommit⟩, ?_, hfirst⟩
    rcases lastIndex_applySnapshot_cases n.storage (n.assembled req) with hlast | hlast
    · rw [Turn.start_node, hlast]
      exact h.last
    · rw [Turn.start_node, hlast]
      exact hfirst

/-- The term of an accepted request is ours, or higher. -/
theorem SumsFit.termFits_iff (h : SumsFit n) {term : ℕ} (hle : n.sm.currentTerm ≤ term) :
    TermFits n term ↔ term < u64Max := by
  constructor
  · intro hfits
    rcases Nat.lt_or_eq_of_le hle with hlt | heq
    · exact hfits hlt
    · exact heq ▸ h.term
  · intro hlt _
    exact hlt

/-- A proposal leaves room if the next index does. -/
theorem SumsFit.propose_iff {x : NodeTurn MemStorage} (h : SumsFit x.node)
    {proposal : Proposal} : SumsFit (x.onProposal cfg proposal).node ↔
      (x.sm.role = .leader → x.node.storage.lastIndex + 1 < u64Max) := by
  rw [sumsFit_iff (NodeTurn.onProposal_limits proposal x)]
  by_cases hrole : x.sm.role = .leader
  · rw [if_pos hrole, imp_iff_right hrole]
    exact ⟨fun hfit => hfit.2.2.1, fun hlast => ⟨h.term, h.commit, hlast, h.first⟩⟩
  · rw [if_neg hrole]
    exact iff_of_true ⟨h.term, h.commit, h.last, h.first⟩ fun hlead => absurd hlead hrole

/-- A timeout leaves room if the next term does. -/
theorem SumsFit.timer_iff {x : NodeTurn MemStorage} (h : SumsFit x.node)
    {electionDue heartbeatDue : Bool} :
    SumsFit (x.timerBranch cfg electionDue heartbeatDue).node ↔
      (electionDue = true → x.sm.role ≠ .leader → x.sm.currentTerm + 1 < u64Max) := by
  unfold NodeTurn.timerBranch
  by_cases hdue : electionDue = true ∧ x.sm.role ≠ .leader
  · rw [if_pos hdue, sumsFit_iff (NodeTurn.startElection_limits cfg x), imp_iff_right hdue.1,
      imp_iff_right hdue.2]
    exact ⟨fun hfit => hfit.1, fun hterm => ⟨hterm, h.commit, h.last, h.first⟩⟩
  · refine iff_of_true ?_ fun hd hr => absurd ⟨hd, hr⟩ hdue
    rw [if_neg hdue]
    split
    · have hbeat : SumsFit ((x.replicateAll cfg).maybeAdvanceCommit cfg).node := by
        apply SumsFit.advance
        rw [NodeTurn.replicateAll_node]
        exact h
      apply (sumsFit_iff (NodeTurn.applyCommitted_limits _)).mpr
      exact ⟨hbeat.term, hbeat.commit, hbeat.last, hbeat.first⟩
    · exact h

/-- Whether the sums fit after an input is decided by what it brings. -/
theorem SumsFit.step_iff (h : SumsFit n) (input : Input) :
    SumsFit (deliver cfg n input) ↔ StaysBelow n input := by
  cases input with
  | appendEntries req =>
    show SumsFit (NodeTurn.handleAppendEntries req (Turn.start n)).node ↔ _ ∧ _
    by_cases haccepts : Accepts n req = true
    · have hterm := ((NodeTurn.accepts_iff n req).mp haccepts).1
      rw [h.appendEntries_iff haccepts, h.termFits_iff hterm]
      exact and_congr_right' (imp_iff_right haccepts).symm
    · rw [h.descend_iff (NodeTurn.handleAppendEntries_limits_of_not (x := Turn.start n) haccepts)]
      exact (and_iff_left fun hacc => absurd hacc haccepts).symm
  | requestVote req => exact h.descend_iff (NodeTurn.handleRequestVote_limits req (Turn.start n))
  | installSnapshot req =>
    show SumsFit (NodeTurn.handleInstallSnapshot req (Turn.start n)).node ↔ _ ∧ _
    by_cases hlast : n.sm.currentTerm ≤ req.term ∧ req.done = true
    · rw [h.installSnapshot_iff hlast.1 hlast.2, h.termFits_iff hlast.1]
      exact and_congr_right' ⟨fun hfit _ _ => hfit, fun hfit => hfit hlast.1 hlast.2⟩
    · rw [h.descend_iff (NodeTurn.handleInstallSnapshot_limits_of_not (x := Turn.start n) hlast)]
      exact (and_iff_left fun hterm hdone => absurd ⟨hterm, hdone⟩ hlast).symm
  | message msg =>
    cases msg with
    | propose proposal => exact SumsFit.propose_iff h
    | voteResponse peer resp =>
      exact h.descend_iff (NodeTurn.handleVoteResponse_limits peer resp (Turn.start n))
    | appendResponse peer last resp => exact h.report_iff rfl
    | snapshotResponse peer last resp => exact h.report_iff rfl
    | _ => exact iff_of_true h trivial
  | timer electionDue heartbeatDue => exact SumsFit.timer_iff h

/-! ## Runs -/

/-- From any node and for any inputs: term, commit index, last index and last included index
have room for one more at every point of the run exactly when they have at its start, no input
of the run brings a term or an index without room, and no election or proposal uses it up.
SRCLINE: iceraft-storage/src/mem.rs:22-38, iceraft-node/src/state.rs:85-104,
iceraft-node/src/node.rs:302-558 -/
theorem sums_fit_iff (cfg : RaftConfig) (n : RaftNodeInner MemStorage) (inputs : List Input) :
    (∀ before, before <+: inputs → SumsFit (Runs.exec (deliver cfg) n before)) ↔
      SumsFit n ∧ Runs.Within (deliver cfg) StaysBelow n inputs := by
  rw [Runs.forall_prefix_iff SumsFit]
  apply and_congr_right
  intro h
  apply Runs.within_congr_of_invariant SumsFit
  · intro n input _ hnext
    exact hnext
  · intro n input hn
    exact hn.step_iff input
  · exact h

/-- A vote in the last term is granted, and the next election leaves the range of terms; a
snapshot up to the last index is installed, and the log would begin behind the range. -/
theorem last_term_accepted :
    let cfg : RaftConfig := { id := 2, peers := [1, 3] }
    let voted := deliver cfg (.new MemStorage.new) (.requestVote ⟨u64Max, 1, 0, 0, false⟩)
    let installed := deliver cfg (.new MemStorage.new)
      (.installSnapshot ⟨1, 1, u64Max, 1, 0, [], true⟩)
    SumsFit (.new .new) ∧
      (voted.sm.votedFor = some 1 ∧ ¬ voted.sm.currentTerm + 1 ≤ u64Max ∧
        (deliver cfg voted (.timer true false)).sm.currentTerm = 2 ^ 64) ∧
      installed.sm.commitIndex = u64Max ∧ installed.storage.firstIndex = 2 ^ 64 := by
  refine ⟨⟨by decide, by decide, by decide, by decide⟩, by decide +kernel, by decide +kernel⟩

end IceRaft
