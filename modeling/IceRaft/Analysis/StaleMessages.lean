import IceRaft.Analysis.LeaderTurns
import IceRaft.Analysis.Transitions

/-!
# Messages of an earlier term

A request whose term is lower than that of the node is refused at once.  The three
response handlers only compare for a higher term, so a response of an earlier term is
handled like one of the present term.
-/

set_option autoImplicit false

namespace IceRaft

open MemStorage Cluster

/-- The Raft state, the waiting proposals, the snapshot buffer and the log are the same.
The progress map is compared by its look-ups. -/
structure Unchanged (n n' : RaftNodeInner MemStorage) : Prop where
  role : n'.sm.role = n.sm.role
  currentTerm : n'.sm.currentTerm = n.sm.currentTerm
  votedFor : n'.sm.votedFor = n.sm.votedFor
  leaderId : n'.sm.leaderId = n.sm.leaderId
  votesReceived : n'.sm.votesReceived = n.sm.votesReceived
  progress : ∀ j, n'.sm.progress.lookup j = n.sm.progress.lookup j
  commitIndex : n'.sm.commitIndex = n.sm.commitIndex
  lastApplied : n'.sm.lastApplied = n.sm.lastApplied
  pending : n'.pending = n.pending
  snapshotBuf : n'.snapshotBuf = n.snapshotBuf
  entries : n'.storage.entries = n.storage.entries
  snapshot : n'.storage.snapshot = n.storage.snapshot

/-- A node is unchanged in itself. -/
theorem Unchanged.refl (n : RaftNodeInner MemStorage) : Unchanged n n := by
  constructor <;> intros <;> rfl

/-- The commit step has nothing to commit and nobody to answer. -/
def AtRest (cfg : RaftConfig) (n : RaftNodeInner MemStorage) : Prop :=
  (∀ k ≤ n.storage.lastIndex, ¬ Committable cfg n k) ∧ ∀ w ∈ n.pending, n.sm.commitIndex < w.1

/-- What an append response says, the progress says already. -/
def SaysNothing (reqLastIndex : ℕ) (resp : AppendEntriesResponse) (p : Progress) : Prop :=
  if resp.success then
    reqLastIndex ≤ p.matchIndex ∧ p.nextIndex = p.matchIndex + 1 ∧ p.inFlight = false
  else if resp.conflictIndex > 0 then p.nextIndex = resp.conflictIndex
  else p.nextIndex = 1

/-- A request; or a response that says what the node knows: a vote that was refused, comes
after the election or was counted before, or the progress of a peer that nothing follows
from. -/
def Harmless (cfg : RaftConfig) (n : RaftNodeInner MemStorage) : Input → Prop
  | .message (.voteResponse peer resp) =>
    resp.voteGranted = true → n.sm.role = .candidate →
      peer ∈ n.sm.votesReceived ∧ n.sm.votesReceived.card < cfg.quorum
  | .message (.appendResponse peer reqLastIndex resp) =>
    n.sm.role = .leader → AtRest cfg n ∧
      ∀ p, n.sm.progress.lookup peer = some p → SaysNothing reqLastIndex resp p
  | .message (.snapshotResponse peer reqLastIndex _) =>
    n.sm.role = .leader → AtRest cfg n ∧ ∀ p, n.sm.progress.lookup peer = some p →
      reqLastIndex ≤ p.matchIndex ∧ p.nextIndex = p.matchIndex + 1 ∧ p.inFlight = false
  | _ => True

/-! ## Progress -/

/-- A snapshot that is already acknowledged says nothing new. -/
theorem progressAfterSnapshot_eq_iff (last : ℕ) (p : Progress) :
    NodeTurn.progressAfterSnapshot last p = p ↔
      last ≤ p.matchIndex ∧ p.nextIndex = p.matchIndex + 1 ∧ p.inFlight = false := by
  obtain ⟨next, mat, flight⟩ := p
  unfold NodeTurn.progressAfterSnapshot
  rw [Progress.mk.injEq]
  dsimp only
  constructor
  · rintro ⟨hnext, hmat, hflight⟩
    exact ⟨by omega, by omega, hflight.symm⟩
  · rintro ⟨hle, hnext, hflight⟩
    exact ⟨by omega, by omega, hflight.symm⟩

/-- Nor does a response that moves neither index. -/
theorem progressAfterAppend_eq_iff (last : ℕ) (resp : AppendEntriesResponse) (p : Progress) :
    NodeTurn.progressAfterAppend last resp p = p ↔ SaysNothing last resp p := by
  unfold NodeTurn.progressAfterAppend SaysNothing
  split
  · exact progressAfterSnapshot_eq_iff last p
  · obtain ⟨next, mat, flight⟩ := p
    split
    · rw [Progress.mk.injEq]
      exact ⟨fun h => h.1.symm, fun h => ⟨h.symm, rfl, rfl⟩⟩
    · rw [Progress.mk.injEq]
      dsimp only
      constructor
      · rintro ⟨hnext, -⟩
        omega
      · intro hone
        exact ⟨by omega, rfl, rfl⟩

/-- An update leaves the look-ups alone exactly when it leaves the entry alone. -/
theorem updateProgress_lookup_iff (peer : NodeId) (f : Progress → Progress)
    (sm : RaftStateMachine) :
    (∀ j, (NodeTurn.updateProgress peer f sm).progress.lookup j = sm.progress.lookup j) ↔
      ∀ p, sm.progress.lookup peer = some p → f p = p := by
  unfold NodeTurn.updateProgress
  cases hp : sm.progress.lookup peer with
  | none => exact iff_of_true (fun _ => rfl) nofun
  | some old =>
    dsimp only
    constructor
    · rintro hall p ⟨⟩
      have hpeer := hall peer
      rw [AList.lookup_insert, hp] at hpeer
      exact Option.some.inj hpeer
    · intro hsame j
      by_cases hj : j = peer
      · subst hj
        rw [AList.lookup_insert, hp, hsame old rfl]
      · rw [AList.lookup_insert_ne hj]

/-- The count of `maybe_advance_commit` depends on the look-ups only. -/
theorem replicated_congr {sm sm' : RaftStateMachine}
    (h : ∀ j, sm'.progress.lookup j = sm.progress.lookup j) (k : ℕ) :
    sm'.replicated k = sm.replicated k := by
  have hperm : sm'.progress.entries.Perm sm.progress.entries :=
    List.lookup_ext sm'.progress.nodupKeys sm.progress.nodupKeys fun j pr => by
      show pr ∈ sm'.progress.lookup j ↔ pr ∈ sm.progress.lookup j
      rw [h j]
  unfold RaftStateMachine.replicated ProgressMap.values
  rw [(hperm.map Sigma.snd).countP_eq]

/-- A leader's response handler leaves the node as it is exactly when the response says
nothing new and nothing is left to commit or to answer. -/
theorem progress_unchanged_iff {cfg : RaftConfig} {x : NodeTurn MemStorage}
    (hlead : x.sm.role = .leader) (peer : NodeId) (f : Progress → Progress) :
    Unchanged x.node
        ((x.modifySm (NodeTurn.updateProgress peer f)).maybeAdvanceCommit cfg).node ↔
      AtRest cfg x.node ∧ ∀ p, x.sm.progress.lookup peer = some p → f p = p := by
  obtain ⟨m, hm⟩ := NodeTurn.updateProgress_eq peer f x.sm
  have hlook := updateProgress_lookup_iff peer f x.sm
  have hnode : (x.modifySm (NodeTurn.updateProgress peer f)).node =
      { x.node with sm := { x.node.sm with progress := m } } := by
    rw [← hm]
    rfl
  rw [hm] at hlook
  generalize x.modifySm (NodeTurn.updateProgress peer f) = y at hnode ⊢
  have hrole : y.node.sm.role = .leader := by
    rw [hnode]
    exact hlead
  obtain ⟨hsm, hentries, hsnap⟩ := NodeTurn.maybeAdvanceCommit_node cfg y
  obtain ⟨hpend, hbuf⟩ := NodeTurn.maybeAdvanceCommit_pending cfg hrole
  have hcommit : NodeTurn.nextCommit cfg y = y.node.sm.commitIndex ↔
      ∀ k ≤ y.node.storage.lastIndex, ¬ Committable cfg y.node k := by
    unfold NodeTurn.nextCommit
    rw [if_pos hrole]
    exact NodeTurn.commitScan_eq_iff cfg y.node.storage.lastIndex y
  rw [hnode] at hsm hpend hentries hsnap hbuf hcommit
  have hrest : (∀ j, m.lookup j = x.sm.progress.lookup j) → ∀ k,
      Committable cfg { x.node with sm := { x.node.sm with progress := m } } k ↔
        Committable cfg x.node k := by
    intro hsame k
    unfold Committable
    rw [show RaftStateMachine.replicated { x.node.sm with progress := m } k = _ from
      replicated_congr hsame k]
  constructor
  · intro h
    have hsame : ∀ j, m.lookup j = x.sm.progress.lookup j := by
      intro j
      rw [← h.progress j, hsm]
    have hnext : NodeTurn.nextCommit cfg y = x.node.sm.commitIndex := by
      rw [← h.commitIndex, hsm]
    refine ⟨⟨?_, ?_⟩, hlook.mp hsame⟩
    · intro k hk
      rw [← hrest hsame k]
      exact hcommit.mp hnext k hk
    · intro w hw
      have heq := hpend.symm.trans h.pending
      rw [hnext] at heq
      exact of_decide_eq_true (List.filter_eq_self.mp heq w hw)
  · rintro ⟨⟨hnone, hwait⟩, hf⟩
    have hsame := hlook.mpr hf
    have hnext : NodeTurn.nextCommit cfg y = x.node.sm.commitIndex :=
      hcommit.mpr fun k hk => (hrest hsame k).not.mpr (hnone k hk)
    rw [hnext] at hsm hpend
    have hall : x.node.pending.filter (fun w => decide (x.node.sm.commitIndex < w.1)) =
        x.node.pending :=
      List.filter_eq_self.mpr fun w hw => decide_eq_true (hwait w hw)
    constructor
    case pending => exact hpend.trans hall
    case progress => rw [hsm]; exact hsame
    case snapshotBuf => exact hbuf
    case entries => exact hentries
    case snapshot => exact hsnap
    all_goals rw [hsm]

/-- A vote that reaches a candidate leaves it as it is exactly when it was counted before
and the votes are no majority. -/
theorem vote_unchanged_iff {cfg : RaftConfig} {x : NodeTurn MemStorage}
    (hcand : x.sm.role = .candidate) {peer : NodeId} {resp : RequestVoteResponse}
    (hle : ¬ resp.term > x.sm.currentTerm) (hgrant : resp.voteGranted = true) :
    Unchanged x.node (x.handleVoteResponse cfg peer resp).node ↔
      peer ∈ x.sm.votesReceived ∧ x.sm.votesReceived.card < cfg.quorum := by
  unfold NodeTurn.handleVoteResponse
  rw [if_neg hle, if_pos ⟨hgrant, hcand⟩]
  dsimp only
  have hnode : (x.modifySm fun sm => { sm with
      votesReceived := insert peer sm.votesReceived }).node = { x.node with
        sm := { x.node.sm with votesReceived := insert peer x.node.sm.votesReceived } } := rfl
  generalize (x.modifySm fun sm => { sm with votesReceived := insert peer sm.votesReceived }) = y
    at hnode ⊢
  rw [show y.sm.votesReceived = insert peer x.sm.votesReceived by rw [NodeTurn.sm, hnode]]
  split
  · rename_i hquorum
    refine iff_of_false ?_ ?_
    · intro h
      have hrole : (y.takeLeadership cfg).sm.role = x.sm.role := h.role
      rw [NodeTurn.takeLeadership_sm, hcand] at hrole
      cases hrole
    · rintro ⟨hmem, hlt⟩
      rw [Finset.insert_eq_of_mem hmem] at hquorum
      omega
  · rename_i hquorum
    rw [hnode]
    constructor
    · intro h
      have heq : insert peer x.sm.votesReceived = x.sm.votesReceived := h.votesReceived
      rw [heq] at hquorum
      exact ⟨Finset.insert_eq_self.mp heq, by omega⟩
    · rintro ⟨hmem, -⟩
      rw [Finset.insert_eq_of_mem hmem]
      exact .refl x.node

/-! ## The six handlers -/

/-- A stale vote changes nothing unless it is counted. -/
theorem voteResponse_unchanged_iff {cfg : RaftConfig} {x : NodeTurn MemStorage} {peer : NodeId}
    {resp : RequestVoteResponse} (hstale : resp.term < x.sm.currentTerm) :
    Unchanged x.node (x.handleVoteResponse cfg peer resp).node ↔
      Harmless cfg x.node (.message (.voteResponse peer resp)) := by
  have hle : ¬ resp.term > x.sm.currentTerm := Nat.not_lt_of_lt hstale
  by_cases hvote : resp.voteGranted = true ∧ x.sm.role = .candidate
  · rw [vote_unchanged_iff hvote.2 hle hvote.1]
    exact ⟨fun h _ _ => h, fun h => h hvote.1 hvote.2⟩
  · refine iff_of_true ?_ fun hgrant hcand => absurd ⟨hgrant, hcand⟩ hvote
    unfold NodeTurn.handleVoteResponse
    rw [if_neg hle, if_neg hvote]
    exact .refl x.node

/-- A response to a request. -/
theorem response_unchanged_iff (cfg : RaftConfig) {x : NodeTurn MemStorage} (peer : NodeId)
    (f : Progress → Progress) {term : ℕ} (hstale : term < x.sm.currentTerm) :
    Unchanged x.node (x.handleResponse cfg peer f term).node ↔ (x.sm.role = .leader →
      AtRest cfg x.node ∧ ∀ p, x.sm.progress.lookup peer = some p → f p = p) := by
  by_cases hlead : x.sm.role = .leader
  · rw [NodeTurn.handleResponse_of_leader cfg peer f hlead (Nat.le_of_lt hstale),
      progress_unchanged_iff hlead]
    exact (imp_iff_right hlead).symm
  · unfold NodeTurn.handleResponse
    rw [if_neg (Nat.not_lt_of_lt hstale), if_pos hlead]
    exact iff_of_true (.refl x.node) fun h => absurd h hlead

/-- **A message of an earlier term changes nothing, exactly when it is harmless.** -/
theorem stale_unchanged_iff (cfg : RaftConfig) (n : RaftNodeInner MemStorage) (input : Input)
    (term : ℕ) (hterm : input.term? = some term) (hstale : term < n.sm.currentTerm) :
    Unchanged n (NodeTurn.run cfg input (Turn.start n)).node ↔ Harmless cfg n input := by
  cases input with
  | timer electionDue heartbeatDue => cases hterm
  | appendEntries req =>
    cases hterm
    refine iff_of_true ?_ trivial
    show Unchanged n (NodeTurn.handleAppendEntries req (Turn.start n)).node
    rw [NodeTurn.handleAppendEntries_stale hstale]
    exact .refl n
  | requestVote req =>
    cases hterm
    refine iff_of_true ?_ trivial
    show Unchanged n (NodeTurn.handleRequestVote req (Turn.start n)).node
    rw [NodeTurn.handleRequestVote_stale hstale]
    exact .refl n
  | installSnapshot req =>
    cases hterm
    refine iff_of_true ?_ trivial
    show Unchanged n (NodeTurn.handleInstallSnapshot req (Turn.start n)).node
    rw [NodeTurn.handleInstallSnapshot_stale hstale]
    exact .refl n
  | message msg =>
    cases msg with
    | voteResponse peer resp =>
      cases hterm
      exact voteResponse_unchanged_iff (x := Turn.start n) hstale
    | appendResponse peer reqLastIndex resp =>
      cases hterm
      have hresponse := response_unchanged_iff cfg (x := Turn.start n) peer
        (NodeTurn.progressAfterAppend reqLastIndex resp) hstale
      simp only [progressAfterAppend_eq_iff] at hresponse
      exact hresponse
    | snapshotResponse peer reqLastIndex resp =>
      cases hterm
      have hresponse := response_unchanged_iff cfg (x := Turn.start n) peer
        (NodeTurn.progressAfterSnapshot reqLastIndex) hstale
      simp only [progressAfterSnapshot_eq_iff] at hresponse
      exact hresponse
    | _ => cases hterm

/-- The node has stood for election twice. -/
def twiceCandidate : RaftNodeInner MemStorage :=
  ((Process.boot .new).exec ⟨1, [2, 3], 100, 300, 600, 128⟩
    [(.timer true false, none), (.timer true false, none)]).node

/-- A stale refusal changes nothing for a candidate of a later term. -/
theorem stale_unchanged_iff_twiceCandidate :
    Unchanged twiceCandidate (NodeTurn.run ⟨1, [2, 3], 100, 300, 600, 128⟩
        (.message (.voteResponse 2 ⟨1, false⟩)) (Turn.start twiceCandidate)).node ↔
      Harmless ⟨1, [2, 3], 100, 300, 600, 128⟩ twiceCandidate
        (.message (.voteResponse 2 ⟨1, false⟩)) :=
  stale_unchanged_iff _ twiceCandidate _ 1 rfl (by decide +kernel)

/-- A vote granted in the first of two elections makes the node leader in the second. -/
theorem stale_vote_counts :
    (Input.message (.voteResponse 2 ⟨1, true⟩)).term? = some 1 ∧
      1 < twiceCandidate.sm.currentTerm ∧
      ¬ Unchanged twiceCandidate (NodeTurn.run ⟨1, [2, 3], 100, 300, 600, 128⟩
        (.message (.voteResponse 2 ⟨1, true⟩)) (Turn.start twiceCandidate)).node := by
  refine ⟨rfl, by decide +kernel, ?_⟩
  intro h
  have hrole : twiceCandidate.sm.role = .leader := h.role.symm.trans (by decide +kernel)
  exact absurd hrole (by decide +kernel)

end IceRaft
