import IceRaft.Analysis.VoteDurability
import IceRaft.Interface.FlakyStorage

/-!
# What is persisted when a reply goes out

`save_hard_state` reports nothing to its callers, so a reply goes out whether or not the
hard state was saved.  Followed here is what the persisted hard state is at every reply,
over any storage whose saves may fail.  Every vote is persisted when it is cast exactly
when the last save before it succeeds or the vote was persisted before; and where every
vote is, no crash leads to a second vote in a term.
-/

set_option autoImplicit false

namespace IceRaft

/-- The hard state holds a vote; `0` is no vote. -/
def HardState.Holds (hs : HardState) (term : ℕ) (candidate : NodeId) : Prop :=
  hs.term = term ∧ hs.vote = candidate ∧ candidate ≠ 0

instance (hs : HardState) (term : ℕ) (candidate : NodeId) : Decidable (hs.Holds term candidate) :=
  inferInstanceAs (Decidable (_ ∧ _ ∧ _))

/-- The term in which an effect acknowledges a request of a leader. -/
def Effect.success? : Effect → Option ℕ
  | .replied (.appendEntries _ (.ok resp)) => if resp.success then some resp.term else none
  | _ => none

/-- The hard state holds the vote an effect gives, or the term of the success it replies. -/
def Effect.Backed (hs : HardState) (e : Effect) : Prop :=
  (∀ v ∈ e.vote?, hs.Holds v.1 v.2) ∧ ∀ term ∈ e.success?, hs.term = term

instance (hs : HardState) (e : Effect) : Decidable (e.Backed hs) :=
  inferInstanceAs (Decidable (_ ∧ _))

section

variable {σ : Type} [Storage σ] [AtomicHardState σ]

open AtomicHardState

/-- Whenever the turn of an input votes or replies success, the storage holds that vote, or
that term, at that moment. -/
def PersistedFirst (cfg : RaftConfig) (p : Process σ) (e : Input × Option ℕ) : Prop :=
  ∀ c ∈ (p.turn cfg e.1).trace, c.1.Backed (persisted c.2.storage)

/-- A save of `hs` succeeds. -/
def Saves (hs : HardState) (s : σ) : Prop := (Storage.saveHardState hs s).1 = .ok ()

/-- The storage of a node that has seen `term`: a higher term is saved, without a vote. -/
def entered (n : RaftNodeInner σ) (term : ℕ) : σ :=
  if term > n.sm.currentTerm then
    (Storage.saveHardState ⟨term, 0, n.sm.commitIndex⟩ n.storage).2
  else n.storage

/-- The vote of a node that has seen `term`. -/
def enteredVote (n : RaftNodeInner σ) (term : ℕ) : Option NodeId :=
  if term > n.sm.currentTerm then none else n.sm.votedFor

/-- The last index and its term, as the storage tells them one after the other. -/
def lastEntry (s : σ) : (ℕ × ℕ) × σ :=
  let last := Storage.lastIndex s
  let index := unwrapOr last.1 0
  if index > 0 then
    let term := Storage.term index last.2
    ((index, unwrapOr term.1 0), term.2)
  else ((index, 0), last.2)

/-- The candidate has no rival in its term, and its log is up to date. -/
def Grants (n : RaftNodeInner σ) (req : RequestVoteRequest) : Prop :=
  n.sm.currentTerm ≤ req.term ∧
    (enteredVote n req.term = none ∨ enteredVote n req.term = some req.candidateId) ∧
    NodeTurn.candidateLogOk req (lastEntry (entered n req.term)).1.1
      (lastEntry (entered n req.term)).1.2 = true

/-- The storage lets the previous entry of a request pass. -/
def prevPasses (s : σ) (req : AppendEntriesRequest) : Prop :=
  req.prevLogIndex = 0 ∨ match (Storage.term req.prevLogIndex s).1 with
    | .ok t => t = req.prevLogTerm
    | .error (.logCompacted _ _) => True
    | .error _ => False

/-- The storage after the check on the previous entry. -/
def checked (s : σ) (req : AppendEntriesRequest) : σ :=
  if req.prevLogIndex > 0 then (Storage.term req.prevLogIndex s).2 else s

/-- The outcome of appending the entries of a request, if there are any. -/
def batchOutcome (s : σ) (req : AppendEntriesRequest) : Except RaftError Unit × σ :=
  if req.entries.isEmpty then (.ok (), s)
  else Storage.appendEntries (req.entries.map protoEntryToLogEntry) s

/-- The storage a request leaves before the commit index is looked at. -/
def batched (n : RaftNodeInner σ) (req : AppendEntriesRequest) : Except RaftError Unit × σ :=
  batchOutcome (checked (entered n req.term) req) req

/-- The request is of no earlier term, follows the log, and its entries can be appended. -/
def AcceptsOn (n : RaftNodeInner σ) (req : AppendEntriesRequest) : Prop :=
  n.sm.currentTerm ≤ req.term ∧ prevPasses (entered n req.term) req ∧ (batched n req).1 = .ok ()

/-- The save before the reply succeeds, or it is not needed: what is going to be promised
is persisted already. -/
def SavedInTime (cfg : RaftConfig) (n : RaftNodeInner σ) : Input → Prop
  | .requestVote req => Grants n req → req.candidateId ≠ 0 ∧
      (Saves ⟨req.term, req.candidateId, n.sm.commitIndex⟩ (lastEntry (entered n req.term)).2 ∨
        (persisted (entered n req.term)).Holds req.term req.candidateId)
  | .appendEntries req => AcceptsOn n req →
      (persisted (entered n req.term)).term = req.term ∨
        (n.sm.commitIndex < req.leaderCommit ∧
          Saves ⟨req.term, (enteredVote n req.term).getD 0,
              min req.leaderCommit (unwrapOr (Storage.lastIndex (batched n req).2).1 0)⟩
            (Storage.lastIndex (batched n req).2).2)
  | .timer electionDue _ => electionDue = true → n.sm.role ≠ .leader → cfg.peers ≠ [] →
      cfg.id ≠ 0 ∧ (Saves ⟨n.sm.currentTerm + 1, cfg.id, n.sm.commitIndex⟩ n.storage ∨
        (persisted n.storage).Holds (n.sm.currentTerm + 1) cfg.id)
  | _ => True

/-! ## One save -/

/-- A vote is on the disk after a save if the save worked, or it was there before. -/
theorem holds_save_iff (term : ℕ) (candidate : NodeId) (commit : ℕ) (s : σ) :
    (persisted (Storage.saveHardState ⟨term, candidate, commit⟩ s).2).Holds term candidate ↔
      candidate ≠ 0 ∧
        (Saves ⟨term, candidate, commit⟩ s ∨ (persisted s).Holds term candidate) := by
  by_cases hok : Saves ⟨term, candidate, commit⟩ s
  · rw [persisted_of_ok _ s hok]
    exact ⟨fun h => ⟨h.2.2, .inl hok⟩, fun h => ⟨rfl, rfl, h.1⟩⟩
  · rw [persisted_of_error _ s hok]
    exact ⟨fun h => ⟨h.2.2, .inr h⟩, fun h => h.2.resolve_left hok⟩

/-- So it is with the term. -/
theorem term_save_iff (term : ℕ) (vote : NodeId) (commit : ℕ) (s : σ) :
    (persisted (Storage.saveHardState ⟨term, vote, commit⟩ s).2).term = term ↔
      Saves ⟨term, vote, commit⟩ s ∨ (persisted s).term = term := by
  by_cases hok : Saves ⟨term, vote, commit⟩ s
  · rw [persisted_of_ok _ s hok]
    exact iff_of_true rfl (.inl hok)
  · rw [persisted_of_error _ s hok]
    exact ⟨.inr, fun h => h.resolve_left hok⟩

/-- Reading the end of the log leaves the disk alone. -/
theorem persisted_lastEntry (s : σ) : persisted (lastEntry s).2 = persisted s := by
  unfold lastEntry
  dsimp only
  split
  · exact (persisted_term _ _).trans (persisted_lastIndex s)
  · exact persisted_lastIndex s

/-- A batch leaves the hard state as the step down left it. -/
theorem persisted_batched (n : RaftNodeInner σ) (req : AppendEntriesRequest) :
    persisted (batched n req).2 = persisted (entered n req.term) := by
  have hchecked : persisted (checked (entered n req.term) req) =
      persisted (entered n req.term) := by
    unfold checked
    split
    · exact persisted_term _ _
    · rfl
  unfold batched batchOutcome
  split
  · exact hchecked
  · exact (persisted_append _ _).trans hchecked

end

/-! ## Turns that have promised nothing so far -/

/-- Neither a vote nor a success. -/
def Effect.NoPromise (e : Effect) : Prop := e.vote? = none ∧ e.success? = none

/-- An effect that promises nothing needs no support. -/
theorem Effect.NoPromise.backed {e : Effect} (h : e.NoPromise) (hs : HardState) :
    e.Backed hs := by
  unfold Effect.Backed
  rw [h.1, h.2]
  exact ⟨nofun, nofun⟩

variable {σ : Type}

/-- The turn has neither voted nor replied success so far. -/
def NodeTurn.NoPromise (x : NodeTurn σ) : Prop := ∀ c ∈ x.trace, c.1.NoPromise

namespace NodeTurn

variable {x : NodeTurn σ}

/-- A turn starts without promises. -/
theorem NoPromise.start (n : RaftNodeInner σ) : NodeTurn.NoPromise (Turn.start n) := by
  intro c hc
  cases hc

/-- A change of the Raft state promises nothing. -/
theorem NoPromise.modifySm (h : x.NoPromise) (f : RaftStateMachine → RaftStateMachine) :
    (x.modifySm f).NoPromise := h

/-- A count promises nothing. -/
theorem NoPromise.modifyMetrics (h : x.NoPromise) (f : RaftMetrics → RaftMetrics) :
    (x.modifyMetrics f).NoPromise := h

/-- One more effect that promises nothing. -/
theorem NoPromise.effect (h : x.NoPromise) {e : Effect} (he : e.NoPromise) :
    (x.effect e).NoPromise := by
  intro c hc
  rcases List.mem_append.mp hc with hc | hc
  · exact h c hc
  · rw [List.mem_singleton.mp hc]
    exact he

/-- A write promises nothing. -/
theorem NoPromise.write (h : x.NoPromise) {α : Type} (op : σ → Except RaftError α × σ) :
    (x.write op).2.NoPromise :=
  NoPromise.effect (x := x.update fun n => { n with storage := (op x.node.storage).2 }) h ⟨rfl, rfl⟩

/-- What the whole turn shows is its last effect. -/
theorem NoPromise.backed_iff [Storage σ] [AtomicHardState σ] (h : x.NoPromise) (e : Effect) :
    (∀ c ∈ (x.effect e).trace, c.1.Backed (AtomicHardState.persisted c.2.storage)) ↔
      e.Backed (AtomicHardState.persisted x.node.storage) := by
  constructor
  · intro hall
    exact hall (e, x.node) (List.mem_append_right _ (List.mem_singleton.mpr rfl))
  · intro he c hc
    rcases List.mem_append.mp hc with hc | hc
    · exact (h c hc).backed _
    · rw [List.mem_singleton.mp hc]
      exact he

variable [Storage σ]

/-- Saving promises nothing. -/
theorem NoPromise.save (h : x.NoPromise) : x.saveHardState.NoPromise := by
  unfold saveHardState
  exact (h.write _).modifyMetrics _

/-- Stepping down promises nothing. -/
theorem NoPromise.descend (h : x.NoPromise) (term : ℕ) (leaderId : Option NodeId) :
    (x.descend term leaderId).NoPromise := by
  unfold NodeTurn.descend
  split
  · exact (h.modifySm _).save
  · exact h

/-- The search for a term shows nothing. -/
theorem searchTerm_trace (term fuel lo hi : ℕ) (x : NodeTurn σ) :
    (x.searchTerm term fuel lo hi).2.trace = x.trace := by
  induction fuel generalizing lo hi x with
  | zero => rfl
  | succ fuel ih =>
    unfold searchTerm
    split
    · dsimp only
      have hread : (x.read (Storage.term (lo + (hi - lo) / 2))).2.trace = x.trace := rfl
      generalize x.read (Storage.term (lo + (hi - lo) / 2)) = r at hread
      obtain ⟨result, y⟩ := r
      cases result with
      | error e => exact (ih _ _ y).trans hread
      | ok t =>
        dsimp only
        split
        · exact (ih _ _ y).trans hread
        · exact (ih _ _ y).trans hread
    · rfl

/-- So does the search for its first index. -/
theorem firstIndexOfTerm_trace (term upper : ℕ) (x : NodeTurn σ) :
    (x.firstIndexOfTerm term upper).2.trace = x.trace := searchTerm_trace _ _ _ _ _

/-! ## Requests for votes -/

/-- What a step down leaves. -/
theorem descend_entered (term : ℕ) (leaderId : Option NodeId) (x : NodeTurn σ) :
    (x.descend term leaderId).node.storage = entered x.node term ∧
      (x.descend term leaderId).sm.votedFor = enteredVote x.node term ∧
      (x.descend term leaderId).sm.currentTerm = max x.node.sm.currentTerm term ∧
      (x.descend term leaderId).sm.commitIndex = x.node.sm.commitIndex := by
  unfold NodeTurn.descend entered enteredVote
  split
  · exact ⟨rfl, rfl, (Nat.max_eq_right (Nat.le_of_lt ‹_›)).symm, rfl⟩
  · exact ⟨rfl, rfl, (Nat.max_eq_left (Nat.le_of_not_lt ‹_›)).symm, rfl⟩

/-- The two reads of the last entry. -/
theorem lastEntry_eq (x : NodeTurn σ) :
    ((x.lastIndexOr0.1, (x.lastIndexOr0.2.termOr0 x.lastIndexOr0.1).1),
        (x.lastIndexOr0.2.termOr0 x.lastIndexOr0.1).2.node) =
      ((lastEntry x.node.storage).1, x.node.setStorage (lastEntry x.node.storage).2) ∧
    (x.lastIndexOr0.2.termOr0 x.lastIndexOr0.1).2.trace = x.trace := by
  unfold lastEntry termOr0
  dsimp only
  have hindex : x.lastIndexOr0.1 = unwrapOr (Storage.lastIndex x.node.storage).1 0 := rfl
  rw [hindex]
  split
  · exact ⟨rfl, rfl⟩
  · exact ⟨rfl, rfl⟩

/-- The vote of the term is free, or it is the candidate's. -/
theorem not_alreadyVoted_iff (sm : RaftStateMachine) (candidateId : NodeId) :
    ¬ alreadyVoted sm candidateId = true ↔
      sm.votedFor = none ∨ sm.votedFor = some candidateId := by
  unfold alreadyVoted
  cases sm.votedFor <;> simp

/-- A request for a vote is granted exactly when it is to be granted, and otherwise
refused; nothing but writes comes before the reply. -/
theorem handleRequestVote_cases (req : RequestVoteRequest) {x : NodeTurn σ} (hx : x.NoPromise) :
    ∃ y : NodeTurn σ, y.NoPromise ∧
      ((¬ Grants x.node req ∧ ∃ term, x.handleRequestVote req =
          y.effect (.replied (.requestVote req (.ok ⟨term, false⟩)))) ∨
        (Grants x.node req ∧ x.handleRequestVote req = y.grant req ∧
          y.node.storage = (lastEntry (entered x.node req.term)).2 ∧
          y.sm.currentTerm = req.term ∧ y.sm.commitIndex = x.node.sm.commitIndex)) := by
  obtain ⟨hstorage, hvote, hterm, hcommit⟩ := descend_entered req.term none x
  have hy := hx.descend req.term none
  unfold handleRequestVote onRequestVote Grants
  dsimp only
  rw [← NodeTurn.descend, ← hvote, ← hstorage]
  generalize x.descend req.term none = y at *
  by_cases hlt : req.term < y.sm.currentTerm
  · rw [if_pos hlt]
    refine ⟨y, hy, .inl ⟨fun h => ?_, _, rfl⟩⟩
    have hle := h.1
    omega
  rw [if_neg hlt]
  by_cases hvoted : alreadyVoted y.sm req.candidateId = true
  · rw [if_pos hvoted]
    refine ⟨y, hy, .inl ⟨fun h => ?_, _, rfl⟩⟩
    exact (not_alreadyVoted_iff _ _).mpr h.2.1 hvoted
  rw [if_neg hvoted]
  obtain ⟨hlast, htrace⟩ := lastEntry_eq y
  obtain ⟨hentry, hnode⟩ := Prod.mk.inj hlast
  have hz : (y.lastIndexOr0.2.termOr0 y.lastIndexOr0.1).2.NoPromise := by
    unfold NoPromise
    rw [htrace]
    exact hy
  rw [← hentry]
  generalize y.lastIndexOr0.2.termOr0 y.lastIndexOr0.1 = r at *
  generalize y.lastIndexOr0.1 = index at *
  by_cases hok : candidateLogOk req index r.1 = true
  · rw [if_pos hok]
    refine ⟨r.2, hz, .inr ⟨⟨?_, (not_alreadyVoted_iff _ _).mp hvoted, hok⟩, rfl, ?_, ?_, ?_⟩⟩
    · have hmax := hterm
      omega
    · rw [hnode]
      rfl
    · rw [NodeTurn.sm, hnode]
      show y.sm.currentTerm = req.term
      omega
    · rw [NodeTurn.sm, hnode]
      exact hcommit
  · rw [if_neg hok]
    exact ⟨r.2, hz, .inl ⟨fun h => hok h.2.2, _, rfl⟩⟩

end NodeTurn

section

variable [Storage σ] [AtomicHardState σ]

open AtomicHardState

/-- Every vote and every success of the turn is persisted when it goes out. -/
def NodeTurn.Backed (x : NodeTurn σ) : Prop :=
  ∀ c ∈ x.trace, c.1.Backed (persisted c.2.storage)

/-- A granted vote is backed if it is on the disk as the reply goes out. -/
theorem NodeTurn.grant_backed_iff (req : RequestVoteRequest) {x : NodeTurn σ} (hx : x.NoPromise) :
    (x.grant req).Backed ↔ Effect.Backed (persisted (x.grant req).node.storage)
      (.replied (.requestVote req (.ok ⟨x.sm.currentTerm, true⟩))) := by
  have hsaved := (hx.modifySm fun sm => { sm with votedFor := some req.candidateId }).save
  exact (hsaved.modifyMetrics fun m => { m with votesGranted := m.votesGranted + 1 }).backed_iff _

/-- The reply to a candidate is backed if the saves it depends on work. -/
theorem requestVote_backed_iff (cfg : RaftConfig) (req : RequestVoteRequest)
    {x : NodeTurn σ} (hx : x.NoPromise) :
    (x.handleRequestVote req).Backed ↔ SavedInTime cfg x.node (.requestVote req) := by
  obtain ⟨y, hy, ⟨hno, term, heq⟩ | ⟨hgrant, heq, hstorage, hterm, hcommit⟩⟩ :=
    NodeTurn.handleRequestVote_cases req hx
  · rw [heq]
    refine iff_of_true ((hy.backed_iff _).mpr (Effect.NoPromise.backed ⟨rfl, rfl⟩ _)) ?_
    exact fun h => absurd h hno
  · rw [heq]
    have hlast := holds_save_iff req.term req.candidateId x.node.sm.commitIndex
      (lastEntry (entered x.node req.term)).2
    rw [persisted_lastEntry] at hlast
    rw [NodeTurn.grant_backed_iff req hy, NodeTurn.grant_storage, hterm, hcommit, hstorage]
    constructor
    · intro hbacked _
      exact hlast.mp (hbacked.1 (req.term, req.candidateId) rfl)
    · intro hcond
      refine ⟨fun v hv => ?_, nofun⟩
      cases hv
      exact hlast.mpr (hcond hgrant)

/-! ## Requests to append -/

omit [AtomicHardState σ] in
/-- The check on the previous entry lets the request pass, or refuses it without a trace. -/
theorem NodeTurn.checkPrevLog_outcome (req : AppendEntriesRequest) (x : NodeTurn σ) :
    (prevPasses x.node.storage req ∧ x.checkPrevLog req =
        (none, x.update fun n => { n with storage := checked x.node.storage req })) ∨
      (¬ prevPasses x.node.storage req ∧ ∃ resp y, x.checkPrevLog req = (some resp, y) ∧
        resp.success = false ∧ y.trace = x.trace) := by
  unfold checkPrevLog prevPasses checked
  by_cases hpos : req.prevLogIndex > 0
  · have hne : req.prevLogIndex ≠ 0 := by omega
    rw [if_pos hpos, if_pos hpos]
    have hread : x.read (Storage.term req.prevLogIndex) =
        ((Storage.term req.prevLogIndex x.node.storage).1, x.update fun n =>
          { n with storage := (Storage.term req.prevLogIndex x.node.storage).2 }) := rfl
    rw [hread]
    cases (Storage.term req.prevLogIndex x.node.storage).1 with
    | ok t =>
      dsimp only
      by_cases ht : t = req.prevLogTerm
      · rw [if_neg (not_not_intro ht)]
        exact .inl ⟨.inr ht, rfl⟩
      · rw [if_pos ht]
        refine .inr ⟨fun h => h.elim hne ht, _, _, rfl, rfl, ?_⟩
        rw [firstIndexOfTerm_trace]
        rfl
    | error e =>
      cases e with
      | logCompacted r f => exact .inl ⟨.inr trivial, rfl⟩
      | _ => exact .inr ⟨fun h => h.elim hne id, _, _, rfl, rfl, rfl⟩
  · have hzero : req.prevLogIndex = 0 := by omega
    rw [if_neg hpos, if_neg hpos]
    exact .inl ⟨.inl hzero, rfl⟩

omit [AtomicHardState σ] in
/-- A batch ends as the storage says. -/
theorem NodeTurn.appendBatch_outcome (req : AppendEntriesRequest) {x : NodeTurn σ}
    (hx : x.NoPromise) :
    (x.appendBatch req).1 = (batchOutcome x.node.storage req).1 ∧
      (x.appendBatch req).2.node = x.node.setStorage (batchOutcome x.node.storage req).2 ∧
      (x.appendBatch req).2.NoPromise := by
  unfold appendBatch batchOutcome
  split
  · exact ⟨rfl, rfl, hx⟩
  · exact ⟨rfl, rfl, hx.write _⟩

/-- The commit step of a follower persists the term exactly when it saves. -/
theorem NodeTurn.advanceCommit_term_iff (req : AppendEntriesRequest) {x : NodeTurn σ}
    (hx : x.NoPromise) :
    (x.advanceCommit req).NoPromise ∧ (x.advanceCommit req).sm.currentTerm = x.sm.currentTerm ∧
      ((persisted (x.advanceCommit req).node.storage).term = x.sm.currentTerm ↔
        (persisted x.node.storage).term = x.sm.currentTerm ∨
          (x.sm.commitIndex < req.leaderCommit ∧
            Saves ⟨x.sm.currentTerm, x.sm.votedFor.getD 0,
                min req.leaderCommit (unwrapOr (Storage.lastIndex x.node.storage).1 0)⟩
              (Storage.lastIndex x.node.storage).2)) := by
  unfold advanceCommit
  split
  · rename_i hlt
    have hread : x.lastIndexOr0.2.NoPromise := hx
    refine ⟨(hread.modifySm _).save, rfl, ?_⟩
    have hsave := term_save_iff x.sm.currentTerm (x.sm.votedFor.getD 0)
      (min req.leaderCommit (unwrapOr (Storage.lastIndex x.node.storage).1 0))
      (Storage.lastIndex x.node.storage).2
    rw [persisted_lastIndex] at hsave
    exact hsave.trans ⟨fun h => h.symm.imp_right fun hs => ⟨hlt, hs⟩,
      fun h => h.symm.imp_left And.right⟩
  · rename_i hle
    exact ⟨hx, rfl, .inl, fun h => h.resolve_right fun hs => hle hs.1⟩

/-- From the batch to the commit step. -/
theorem NodeTurn.appendBatch_advanceCommit (req : AppendEntriesRequest) {x : NodeTurn σ}
    (hx : x.NoPromise) (hterm : x.sm.currentTerm = req.term) :
    (x.appendBatch req).2.NoPromise ∧
      (x.appendBatch req).1 = (batchOutcome x.node.storage req).1 ∧
      ((x.appendBatch req).2.advanceCommit req).NoPromise ∧
      ((x.appendBatch req).2.advanceCommit req).sm.currentTerm = req.term ∧
      ((persisted ((x.appendBatch req).2.advanceCommit req).node.storage).term = req.term ↔
        (persisted (batchOutcome x.node.storage req).2).term = req.term ∨
          (x.sm.commitIndex < req.leaderCommit ∧
            Saves ⟨req.term, x.sm.votedFor.getD 0, min req.leaderCommit
                (unwrapOr (Storage.lastIndex (batchOutcome x.node.storage req).2).1 0)⟩
              (Storage.lastIndex (batchOutcome x.node.storage req).2).2)) := by
  obtain ⟨hresult, hnode, hb⟩ := NodeTurn.appendBatch_outcome req hx
  obtain ⟨hdone, hdterm, hiff⟩ := NodeTurn.advanceCommit_term_iff req hb
  have hsm : (x.appendBatch req).2.sm = x.sm := by
    rw [NodeTurn.sm, hnode]
    rfl
  have hstorage : (x.appendBatch req).2.node.storage = (batchOutcome x.node.storage req).2 := by
    rw [hnode]
    rfl
  rw [hsm, hterm] at hdterm
  rw [hsm, hterm, hstorage] at hiff
  exact ⟨hb, hresult, hdone, hdterm, hiff⟩

/-- A request to append succeeds exactly when it is accepted; nothing but writes comes
before the reply. -/
theorem NodeTurn.handleAppendEntries_cases (req : AppendEntriesRequest) {x : NodeTurn σ}
    (hx : x.NoPromise) :
    ∃ y : NodeTurn σ, y.NoPromise ∧
      ((¬ AcceptsOn x.node req ∧ ∃ result, x.handleAppendEntries req =
          y.effect (.replied (.appendEntries req result)) ∧
            ∀ resp, result = .ok resp → resp.success = false) ∨
        (AcceptsOn x.node req ∧ x.handleAppendEntries req =
            y.effect (.replied (.appendEntries req (.ok ⟨req.term, true, 0, 0⟩))) ∧
          ((persisted y.node.storage).term = req.term ↔
            (persisted (entered x.node req.term)).term = req.term ∨
              (x.node.sm.commitIndex < req.leaderCommit ∧
                Saves ⟨req.term, (enteredVote x.node req.term).getD 0, min req.leaderCommit
                    (unwrapOr (Storage.lastIndex (batched x.node req).2).1 0)⟩
                  (Storage.lastIndex (batched x.node req).2).2)))) := by
  obtain ⟨hstorage, hvote, hterm, hcommit⟩ := descend_entered req.term (some req.leaderId) x
  have hy := hx.descend req.term (some req.leaderId)
  have hkept := persisted_batched x.node req
  unfold handleAppendEntries onAppendEntries AcceptsOn
  unfold batched at hkept ⊢
  dsimp only
  rw [← NodeTurn.descend]
  rw [← hstorage] at hkept ⊢
  rw [← hvote, ← hcommit]
  generalize x.descend req.term (some req.leaderId) = y at *
  by_cases hlt : req.term < y.sm.currentTerm
  · rw [if_pos hlt]
    refine ⟨y, hy, .inl ⟨?_, _, rfl, ?_⟩⟩
    · intro h
      have hle := h.1
      omega
    · rintro resp ⟨⟩
      rfl
  rw [if_neg hlt]
  have hle : x.node.sm.currentTerm ≤ req.term := by omega
  have hreq : y.sm.currentTerm = req.term := by omega
  have hz := hy.modifySm fun sm => { sm with leaderId := some req.leaderId }
  obtain ⟨hpass, heq⟩ | ⟨hstop, resp, w, heq, hfail, htrace⟩ :=
    (y.modifySm fun sm => { sm with leaderId := some req.leaderId }).checkPrevLog_outcome req
  · rw [heq]
    dsimp only
    have hw : NodeTurn.NoPromise ((y.modifySm fun sm => { sm with
        leaderId := some req.leaderId }).update fun n => { n with
          storage := checked
            (y.modifySm fun sm => { sm with leaderId := some req.leaderId }).node.storage
            req }) := hz
    obtain ⟨hb, hresult, hdone, hdterm, hiff⟩ := NodeTurn.appendBatch_advanceCommit req hw hreq
    split
    · rename_i e v hbatch
      rw [hbatch] at hb hresult
      refine ⟨v, hb, .inl ⟨?_, _, rfl, ?_⟩⟩
      · intro h
        cases hresult.trans h.2.2
      · intro _ h
        cases h
    · rename_i v hbatch
      rw [hbatch] at hdone hresult hdterm hiff
      refine ⟨_, hdone.modifyMetrics fun m =>
        { m with appendEntriesReceived := m.appendEntriesReceived + 1 },
        .inr ⟨⟨hle, hpass, hresult.symm⟩, ?_, ?_⟩⟩
      · dsimp only
        rw [← hdterm]
        rfl
      · rw [← hkept]
        exact hiff
  · rw [heq]
    refine ⟨w, ?_, .inl ⟨fun h => hstop h.2.1, _, rfl, ?_⟩⟩
    · unfold NoPromise
      rw [htrace]
      exact hz
    · rintro resp' ⟨⟩
      exact hfail

/-- The reply to a leader is backed if the term of the request is saved. -/
theorem appendEntries_backed_iff (cfg : RaftConfig) (req : AppendEntriesRequest)
    {x : NodeTurn σ} (hx : x.NoPromise) :
    (x.handleAppendEntries req).Backed ↔ SavedInTime cfg x.node (.appendEntries req) := by
  obtain ⟨y, hy, ⟨hno, result, heq, hfail⟩ | ⟨haccept, heq, hterm⟩⟩ :=
    NodeTurn.handleAppendEntries_cases req hx
  · rw [heq]
    have hsilent : Effect.NoPromise (.replied (.appendEntries req result)) := by
      refine ⟨rfl, ?_⟩
      cases result with
      | error e => rfl
      | ok resp =>
        unfold Effect.success?
        dsimp only
        rw [hfail resp rfl]
        rfl
    exact iff_of_true ((hy.backed_iff _).mpr (hsilent.backed _)) fun h => absurd h hno
  · rw [heq]
    refine (hy.backed_iff _).trans ?_
    constructor
    · intro hbacked _
      exact hterm.mp (hbacked.2 req.term rfl)
    · intro hcond
      refine ⟨nofun, ?_⟩
      intro term ht
      cases ht
      exact hterm.mpr (hcond haccept)

/-! ## Elections -/

/-- The requests for votes, one after the other. -/
def NodeTurn.fanOut (peers : List NodeId) (req : RequestVoteRequest) (x : NodeTurn σ) :
    NodeTurn σ :=
  peers.foldl (fun x peer => x.effect (.spawned (.requestVote peer req))) x

omit [Storage σ] [AtomicHardState σ] in
/-- All the requests of a candidate go out at the same node. -/
theorem NodeTurn.fanOut_trace (peers : List NodeId) (req : RequestVoteRequest) (x : NodeTurn σ) :
    (x.fanOut peers req).node = x.node ∧ (x.fanOut peers req).trace =
      x.trace ++ peers.map fun peer => (.spawned (.requestVote peer req), x.node) := by
  unfold fanOut
  induction peers generalizing x with
  | nil => exact ⟨rfl, (List.append_nil _).symm⟩
  | cons peer peers ih =>
    obtain ⟨hnode, htrace⟩ := ih (x.effect (.spawned (.requestVote peer req)))
    refine ⟨hnode, htrace.trans ?_⟩
    rw [Turn.emit_trace, List.append_assoc]
    rfl

omit [AtomicHardState σ] in
/-- Without peers a leader has nobody to send to. -/
theorem NodeTurn.NoPromise.takeLeadership {cfg : RaftConfig} (hpeers : cfg.peers = [])
    {x : NodeTurn σ} (hx : x.NoPromise) : (x.takeLeadership cfg).NoPromise := by
  have hnobody : ∀ y : NodeTurn σ, y.NoPromise → (y.replicateAll cfg).NoPromise := by
    intro y hy
    unfold replicateAll
    rw [hpeers]
    split
    · exact hy
    · exact hy
  have hread : x.lastIndexOr0.2.NoPromise := hx
  have hled := (hread.modifySm (.becomeLeader cfg.id x.lastIndexOr0.1 cfg.peers)).effect
    (e := .becameLeader x.sm.currentTerm) ⟨rfl, rfl⟩
  exact hnobody _ (hled.modifyMetrics fun m => { m with leaderChanges := m.leaderChanges + 1 })

/-- The lines that announce an election. -/
def NodeTurn.announce (x : NodeTurn σ) : NodeTurn σ :=
  (x.effect (.electionStarted x.sm.currentTerm)).modifyMetrics
    fun m => { m with electionsStarted := m.electionsStarted + 1 }

/-- A candidate saves its vote for itself, sends it out, and takes the lead if that is
enough. -/
theorem NodeTurn.startElection_eq (cfg : RaftConfig) {x : NodeTurn σ} (hx : x.NoPromise) :
    ∃ (y : NodeTurn σ) (req : RequestVoteRequest), y.NoPromise ∧
      (∀ R, Indifferent R → Indifferent.Then R (x.modifySm (.becomeCandidate cfg.id)) y) ∧
      y.sm = x.node.sm.becomeCandidate cfg.id ∧
      persisted y.node.storage = persisted (Storage.saveHardState
        ⟨x.node.sm.currentTerm + 1, cfg.id, x.node.sm.commitIndex⟩ x.node.storage).2 ∧
      req.term = x.node.sm.currentTerm + 1 ∧ req.candidateId = cfg.id ∧
      x.startElection cfg =
        if (y.announce.fanOut cfg.peers req).sm.votesReceived.card ≥ cfg.quorum ∧
            (y.announce.fanOut cfg.peers req).sm.role = .candidate then
          (y.announce.fanOut cfg.peers req).takeLeadership cfg
        else y.announce.fanOut cfg.peers req := by
  have hc := (hx.modifySm (.becomeCandidate cfg.id)).save
  have hsm : (x.modifySm (.becomeCandidate cfg.id)).saveHardState.sm =
      x.node.sm.becomeCandidate cfg.id := rfl
  have hstorage : (x.modifySm (.becomeCandidate cfg.id)).saveHardState.node.storage =
      (Storage.saveHardState ⟨x.node.sm.currentTerm + 1, cfg.id, x.node.sm.commitIndex⟩
        x.node.storage).2 := rfl
  have hsave : ∀ R, Indifferent R → Indifferent.Then R (x.modifySm (.becomeCandidate cfg.id))
      (x.modifySm (.becomeCandidate cfg.id)).saveHardState := fun _ hR => hR.save _
  unfold NodeTurn.startElection
  rw [← hstorage]
  dsimp only
  generalize (x.modifySm (.becomeCandidate cfg.id)).saveHardState = c at *
  have hreads : ∀ R, Indifferent R → Indifferent.Then R (x.modifySm (.becomeCandidate cfg.id))
      (c.lastIndexOr0.2.termOr0 c.lastIndexOr0.1).2 := fun R hR =>
    hR.next (hsave R hR) (hR.next (hR.lastIndexOr0 c) (hR.termOr0 _ _))
  obtain ⟨hlast, htrace⟩ := NodeTurn.lastEntry_eq c
  have hnode := (Prod.mk.inj hlast).2
  have hr : (c.lastIndexOr0.2.termOr0 c.lastIndexOr0.1).2.NoPromise := by
    unfold NodeTurn.NoPromise
    rw [htrace]
    exact hc
  generalize c.lastIndexOr0.2.termOr0 c.lastIndexOr0.1 = r at *
  have hrsm : r.2.sm = x.node.sm.becomeCandidate cfg.id := by
    rw [NodeTurn.sm, hnode]
    exact hsm
  refine ⟨r.2, ⟨r.2.sm.currentTerm, cfg.id, c.lastIndexOr0.1, r.1, false⟩, hr, hreads, hrsm,
    ?_, ?_, rfl, rfl⟩
  · rw [hnode]
    exact persisted_lastEntry c.node.storage
  · show r.2.sm.currentTerm = _
    rw [hrsm]
    rfl

/-- A candidate's requests for votes are persisted exactly when the save before them
succeeds or was made earlier; a candidate without peers sends none. -/
theorem startElection_backed_iff (cfg : RaftConfig) {x : NodeTurn σ} (hx : x.NoPromise) :
    (x.startElection cfg).Backed ↔ (cfg.peers ≠ [] →
      cfg.id ≠ 0 ∧
        (Saves ⟨x.node.sm.currentTerm + 1, cfg.id, x.node.sm.commitIndex⟩ x.node.storage ∨
        (persisted x.node.storage).Holds (x.node.sm.currentTerm + 1) cfg.id)) := by
  obtain ⟨z, req, hz, -, hsm, hstorage, hterm, hid, heq⟩ := NodeTurn.startElection_eq cfg hx
  have hy : z.announce.NoPromise := (hz.effect ⟨rfl, rfl⟩).modifyMetrics _
  change z.announce.sm = _ at hsm
  change persisted z.announce.node.storage = _ at hstorage
  rw [← holds_save_iff, ← hstorage, heq]
  generalize z.announce = y at *
  by_cases hpeers : cfg.peers = []
  · refine iff_of_true ?_ fun hne => absurd hpeers hne
    have hfan : y.fanOut cfg.peers req = y := by
      rw [hpeers]
      rfl
    rw [hfan]
    split
    · exact fun e he => (hy.takeLeadership hpeers e he).backed _
    · exact fun e he => (hy e he).backed _
  · obtain ⟨hfnode, hftrace⟩ := y.fanOut_trace cfg.peers req
    have hfew : ¬ ((y.fanOut cfg.peers req).sm.votesReceived.card ≥ cfg.quorum ∧
        (y.fanOut cfg.peers req).sm.role = .candidate) := by
      rw [NodeTurn.sm, hfnode, ← NodeTurn.sm, hsm]
      have hone : 0 < cfg.peers.length := List.length_pos_iff.mpr hpeers
      have hcard : (x.node.sm.becomeCandidate cfg.id).votesReceived.card = 1 := rfl
      unfold RaftConfig.quorum
      omega
    rw [if_neg hfew]
    constructor
    · intro hbacked _
      obtain ⟨peer, hpeer⟩ := List.exists_mem_of_ne_nil _ hpeers
      have hsent := hbacked (.spawned (.requestVote peer req), y.node) (by
        rw [hftrace]
        exact List.mem_append_right _ (List.mem_map.mpr ⟨peer, hpeer, rfl⟩))
      rw [← hterm, ← hid]
      exact hsent.1 (req.term, req.candidateId) rfl
    · intro hholds c hc
      rw [hftrace] at hc
      rcases List.mem_append.mp hc with hc | hc
      · exact (hy c hc).backed _
      · obtain ⟨peer, -, rfl⟩ := List.mem_map.mp hc
        refine ⟨fun v hv => ?_, nofun⟩
        cases hv
        rw [hterm, hid]
        exact hholds hpeers

/-- The requests of a candidate are backed if its own vote is saved. -/
theorem timeout_backed_iff (cfg : RaftConfig) {x : NodeTurn σ} (hx : x.NoPromise) :
    (x.timerBranch cfg true false).Backed ↔ SavedInTime cfg x.node (.timer true false) := by
  have hheartbeat : ¬ (false = true ∧ x.sm.role = .leader) := fun h => Bool.false_ne_true h.1
  unfold NodeTurn.timerBranch
  by_cases hlead : x.sm.role = .leader
  · rw [if_neg fun h => h.2 hlead, if_neg hheartbeat]
    exact iff_of_true (fun c hc => (hx c hc).backed _) fun _ hne => absurd hlead hne
  · rw [if_pos ⟨rfl, hlead⟩, startElection_backed_iff cfg hx]
    exact ⟨fun h _ _ => h, fun h => h rfl hlead⟩

/-- The requests for votes, the requests to append and the election timeouts. -/
def Input.Electoral : Input → Prop
  | .requestVote _ | .appendEntries _ | .timer true false => True
  | _ => False

instance : ∀ input : Input, Decidable input.Electoral
  | .requestVote _ | .appendEntries _ | .timer true false => inferInstanceAs (Decidable True)
  | .timer true true | .timer false _ | .installSnapshot _ | .message _ =>
    inferInstanceAs (Decidable False)

/-- One activation: what it promises is persisted first exactly when it is saved in time. -/
theorem electoral_backed_iff (cfg : RaftConfig) {input : Input} (h : input.Electoral)
    (n : RaftNodeInner σ) :
    (NodeTurn.run cfg input (Turn.start n)).Backed ↔ SavedInTime cfg n input := by
  have hx := NodeTurn.NoPromise.start n
  cases input with
  | appendEntries req => exact appendEntries_backed_iff cfg req hx
  | requestVote req => exact requestVote_backed_iff cfg req hx
  | timer electionDue heartbeatDue =>
    cases electionDue with
    | false => exact h.elim
    | true =>
      cases heartbeatDue with
      | true => exact h.elim
      | false => exact timeout_backed_iff cfg hx
  | installSnapshot req => exact h.elim
  | message msg => exact h.elim

end

end IceRaft
