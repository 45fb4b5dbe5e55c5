import IceRaft.Analysis.PersistBeforeReply

/-!
# Votes and failed saves

Where every vote is persisted when it goes out, the persisted hard state knows every vote
of the history, however many other saves have failed.  A crash then restores a node that
votes for nobody else in those terms.
-/

set_option autoImplicit false

namespace IceRaft

open Abstraction AtomicHardState

variable {σ : Type} [Storage σ] [AtomicHardState σ]

/-- The vote a hard state is restored with. -/
def HardState.vote? (hs : HardState) : Option NodeId := if hs.vote = 0 then none else some hs.vote

/-- The persisted hard state knows the votes of the history, none of which is for `0`. -/
structure VotesOnDisk (h : List Effect) (s : σ) : Prop where
  once : OneVoteATerm h
  knows : Knows h (persisted s).term (persisted s).vote?
  nonzero : ∀ v ∈ votesCast h, v.2 ≠ 0

/-- Memory and disk both know the votes of the history; they need not agree. -/
structure VotesRecorded (h : List Effect) (n : RaftNodeInner σ) : Prop where
  disk : VotesOnDisk h n.storage
  memory : Knows h n.sm.currentTerm n.sm.votedFor

variable {h : List Effect} {e : Effect} {n n' : RaftNodeInner σ}

/-- Without votes all votes are recorded. -/
theorem VotesRecorded.fresh (n : RaftNodeInner σ) : VotesRecorded [] n := by
  refine ⟨⟨?_, ?_, ?_⟩, ?_⟩
  · exact fun v hv => absurd hv List.not_mem_nil
  · exact fun v hv => absurd hv List.not_mem_nil
  · exact fun v hv => absurd hv List.not_mem_nil
  · exact fun v hv => absurd hv List.not_mem_nil

/-- A vote that memory and disk hold may be sent. -/
theorem VotesRecorded.append (hn : VotesRecorded h n)
    (hmem : ∀ v, e.vote? = some v → v.1 = n.sm.currentTerm ∧ n.sm.votedFor = some v.2)
    (hdisk : ∀ v, e.vote? = some v → (persisted n.storage).Holds v.1 v.2) :
    VotesRecorded (h ++ [e]) n := by
  refine ⟨⟨hn.disk.once.append hn.memory hmem, hn.disk.knows.append ?_, ?_⟩,
    hn.memory.append hmem⟩
  · intro v hv
    obtain ⟨hterm, hvote, hne⟩ := hdisk v hv
    refine ⟨hterm.symm, ?_⟩
    unfold HardState.vote?
    rw [hvote, if_neg hne]
  · intro v hv
    rw [votesCast_append] at hv
    rcases List.mem_append.mp hv with hv | hv
    · exact hn.disk.nonzero v hv
    · exact (hdisk v (Option.mem_toList.mp hv)).2.2

/-- What memory knows, the hard state it writes knows. -/
theorem VotesRecorded.written (hn : VotesRecorded h n) :
    Knows h n.hardState.term n.hardState.vote? := by
  intro v hv
  rcases hn.memory v hv with hlt | ⟨heq, hvote⟩
  · exact .inl hlt
  · refine .inr ⟨heq, ?_⟩
    have hwritten : n.hardState.vote = v.2 := by
      show n.sm.votedFor.getD 0 = v.2
      rw [hvote]
      rfl
    unfold HardState.vote?
    rw [hwritten, if_neg (hn.disk.nonzero v hv)]

/-- From `n` to `n'` the vote in memory is kept, and the disk keeps its term and vote or
takes those in memory. -/
structure VoteWritten (n n' : RaftNodeInner σ) : Prop where
  same : SameVote n.sm n'.sm
  disk : ((persisted n'.storage).term = (persisted n.storage).term ∧
      (persisted n'.storage).vote = (persisted n.storage).vote) ∨
    ((persisted n'.storage).term = n.hardState.term ∧
      (persisted n'.storage).vote = n.hardState.vote)

/-- A disk whose hard state stays has lost no vote. -/
theorem VoteWritten.of_persisted {s : σ} (hs : persisted s = persisted n.storage) :
    VoteWritten n (n.setStorage s) :=
  ⟨.refl _, .inl ⟨congrArg _ hs, congrArg _ hs⟩⟩

/-- Code beside the vote writes none but the present one. -/
theorem indifferent_voteWritten : Indifferent (VoteWritten (σ := σ)) where
  refl _ := ⟨.refl _, .inl ⟨rfl, rfl⟩⟩
  trans h h' := by
    refine ⟨h.same.trans h'.same, ?_⟩
    rcases h'.disk with ⟨hterm, hvote⟩ | ⟨hterm, hvote⟩
    · rcases h.disk with ⟨hterm', hvote'⟩ | ⟨hterm', hvote'⟩
      · exact .inl ⟨hterm.trans hterm', hvote.trans hvote'⟩
      · exact .inr ⟨hterm.trans hterm', hvote.trans hvote'⟩
    · refine .inr ⟨hterm.trans h.same.currentTerm, hvote.trans ?_⟩
      exact congrArg (·.getD 0) h.same.votedFor
  sm _ _ h := ⟨h, .inl ⟨rfl, rfl⟩⟩
  rest _ _ _ _ := ⟨.refl _, .inl ⟨rfl, rfl⟩⟩
  firstIndex _ := .of_persisted (persisted_firstIndex _)
  lastIndex _ := .of_persisted (persisted_lastIndex _)
  term i _ := .of_persisted (persisted_term i _)
  entries lo hi max _ := .of_persisted (persisted_entries lo hi max _)
  snapshot _ := .of_persisted (persisted_snapshot _)
  appendEntries es _ := .of_persisted (persisted_append es _)
  applySnapshot snap _ := .of_persisted (persisted_applySnapshot snap _)
  saveHardState n := by
    refine ⟨.refl _, ?_⟩
    by_cases hok : Saves n.hardState n.storage
    · have hsaved := persisted_of_ok n.hardState n.storage hok
      exact .inr ⟨congrArg _ hsaved, congrArg _ hsaved⟩
    · have hkept := persisted_of_error n.hardState n.storage hok
      exact .inl ⟨congrArg _ hkept, congrArg _ hkept⟩

/-- Recorded votes stay so while the vote is written as it is. -/
theorem VotesRecorded.step (hn : VotesRecorded h n) (hw : VoteWritten n n') :
    VotesRecorded h n' := by
  refine ⟨⟨hn.disk.once, ?_, hn.disk.nonzero⟩, ?_⟩
  · unfold HardState.vote?
    rcases hw.disk with ⟨hterm, hvote⟩ | ⟨hterm, hvote⟩
    · rw [hterm, hvote]
      exact hn.disk.knows
    · rw [hterm, hvote]
      exact hn.written
  · rw [hw.same.currentTerm, hw.same.votedFor]
    exact hn.memory

/-- Restarting restores what was persisted. -/
theorem VotesOnDisk.boot {s : σ} (hs : VotesOnDisk h s) :
    VotesRecorded (h ++ (Process.boot s).history) (Process.boot s).node := by
  have hload : Storage.loadHardState (RaftNodeInner.new s).storage =
      (.ok (persisted s), (Storage.loadHardState s).2) := Prod.ext (load_ok s) rfl
  have hkept : persisted (Storage.loadHardState s).2 = persisted s := persisted_load s
  unfold Process.boot NodeTurn.restore NodeTurn.read
  rw [show (Turn.start (RaftNodeInner.new s) : NodeTurn σ).node.storage =
    (RaftNodeInner.new s).storage from rfl, hload]
  generalize (Storage.loadHardState s).2 = s' at *
  refine VotesRecorded.append (n := ⟨_, s', _, _, _⟩) ⟨⟨hs.once, ?_, hs.nonzero⟩, hs.knows⟩
    (fun _ => nofun) fun _ => nofun
  show Knows h (persisted s').term (persisted s').vote?
  rw [hkept]
  exact hs.knows

/-- The votes of one node that persists each of them before it goes out. -/
def voteRecording (σ : Type) [Storage σ] [AtomicHardState σ] : Abstraction σ Unit where
  step _ _ _ := False
  good _ := True
  node _ _ h n := VotesRecorded h n
  durable _ _ h n := VotesOnDisk h n.storage
  packet _ _ := True
  legal _ _ _ := True
  cond _ cfg n input _ := input.Electoral ∧ (NodeTurn.run cfg input (Turn.start n)).Backed
  good_step _ _ := trivial
  node_step := nofun
  packet_step _ _ _ := trivial
  packet_orphan _ := trivial

variable {i : NodeId} {asker : Option (NodeId × RpcTask)} {n₀ : RaftNodeInner σ}
  {x y : NodeTurn σ} {cfg : RaftConfig}

/-- The turn has been followed so far, and `Q` holds of the node. -/
abbrev RecordFollows (i : NodeId) (h : List Effect) (asker : Option (NodeId × RpcTask))
    (n₀ : RaftNodeInner σ) (Q : RaftNodeInner σ → Prop) (x : NodeTurn σ) : Prop :=
  (voteRecording σ).Follows () i h asker n₀ (fun _ H n => VotesRecorded H n ∧ Q n) x

namespace RecordFollows

variable {Q : RaftNodeInner σ → Prop}

/-- A vote that goes out is the one in memory, and on the disk. -/
theorem effect (hx : RecordFollows i h asker n₀ Q x) (e : Effect)
    (hmem : Q x.node → ∀ v, e.vote? = some v →
      v.1 = x.sm.currentTerm ∧ x.sm.votedFor = some v.2)
    (hdisk : Q x.node → ∀ v, e.vote? = some v → (persisted x.node.storage).Holds v.1 v.2) :
    RecordFollows i h asker n₀ Q (x.effect e) := by
  apply Follows.effect hx e
  intro _ H _ _ hk
  have hk' := hk.1.append (hmem hk.2) (hdisk hk.2)
  exact ⟨(), .refl, hk'.disk, fun _ _ => trivial, hk', hk.2⟩

/-- Code beside the vote keeps the record. -/
theorem quiet (hx : RecordFollows i h asker n₀ (fun _ => True) x)
    (hxy : Indifferent.Then VoteWritten x y) :
    RecordFollows i h asker n₀ (fun _ => True) y := by
  refine Follows.quiet hx hxy ?_ ?_ fun _ _ _ hk => hk.1.disk
  · exact fun _ H n n' hs hk => ⟨hk.1.step hs, trivial⟩
  · intro _ H n e he hk
    have hnone : ∀ v, e.vote? ≠ some v := by
      intro v hv
      rw [he.vote?_eq_none] at hv
      cases hv
    refine ⟨⟨hk.1.append ?_ ?_, trivial⟩, fun _ _ => trivial⟩
    · exact fun v hv => absurd hv (hnone v)
    · exact fun v hv => absurd hv (hnone v)

/-- A change of the Raft state whose vote the history knows. -/
theorem modifySm (hx : RecordFollows i h asker n₀ (fun _ => True) x)
    {f : RaftStateMachine → RaftStateMachine}
    (hf : ∀ H, Knows H x.sm.currentTerm x.sm.votedFor →
      Knows H (f x.sm).currentTerm (f x.sm).votedFor) :
    RecordFollows i h asker n₀ (fun _ => True) (x.modifySm f) :=
  Follows.modifySm hx fun _ H _ hk => ⟨⟨hk.1.disk, hf H hk.1.memory⟩, trivial⟩

/-- Stepping down keeps the record, whether the save works or not. -/
theorem descend (hx : RecordFollows i h asker n₀ (fun _ => True) x) (term : ℕ)
    (leaderId : Option NodeId) :
    RecordFollows i h asker n₀ (fun _ => True) (x.descend term leaderId) := by
  unfold NodeTurn.descend
  split
  · rename_i hlt
    unfold NodeTurn.stepDown
    exact (hx.modifySm fun _ hk => hk.of_lt hlt none).quiet (indifferent_voteWritten.save _)
  · exact hx

/-- A leadership keeps the record. -/
theorem takeLeadership (hx : RecordFollows i h asker n₀ (fun _ => True) x) :
    RecordFollows i h asker n₀ (fun _ => True) (x.takeLeadership cfg) := by
  have hR := indifferent_voteWritten (σ := σ)
  unfold NodeTurn.takeLeadership
  have hlead := (hx.quiet (hR.lastIndexOr0 x)).modifySm
    (f := .becomeLeader cfg.id x.lastIndexOr0.1 cfg.peers) fun _ hk => hk
  have htold := hlead.effect (.becameLeader x.sm.currentTerm) (fun _ => nofun) fun _ => nofun
  exact (htold.quiet (hR.modifyMetrics _)).quiet (hR.replicateAll _)

/-- A granted vote that is persisted. -/
theorem grant (hx : RecordFollows i h asker n₀ (fun _ => True) x) (req : RequestVoteRequest)
    (hfree : NodeTurn.alreadyVoted x.sm req.candidateId = false)
    (hbacked : (x.grant req).Backed) :
    RecordFollows i h asker n₀ (fun _ => True) (x.grant req) := by
  have hR := indifferent_voteWritten (σ := σ)
  have hvoted := hx.modifySm (f := fun sm => { sm with votedFor := some req.candidateId })
    fun H hk v hv => by
      rcases hk v hv with hlt | ⟨heq, hvote⟩
      · exact .inl hlt
      · refine .inr ⟨heq, ?_⟩
        rcases NodeTurn.alreadyVoted_eq_false hfree with hnone | hsome
        · exact absurd (hvote.symm.trans hnone) nofun
        · exact hsome.symm.trans hvote
  have hcounted := (hvoted.quiet (hR.save _)).quiet
    (hR.modifyMetrics fun m => { m with votesGranted := m.votesGranted + 1 })
  unfold NodeTurn.grant at hbacked ⊢
  refine hcounted.effect _ ?_ ?_
  · intro _ v hv
    cases hv
    exact ⟨rfl, rfl⟩
  · intro _ v hv
    exact (hbacked _ (List.mem_append_right _ (List.mem_singleton.mpr rfl))).1 v hv

/-- A candidacy that is persisted before the requests go out. -/
theorem startElection (hx : RecordFollows i h asker n₀ (fun _ => True) x) (hnew : x.NoPromise)
    (hbacked : (x.startElection cfg).Backed) :
    RecordFollows i h asker n₀ (fun _ => True) (x.startElection cfg) := by
  have hR := indifferent_voteWritten (σ := σ)
  obtain ⟨y, req, -, hquiet, hsm, hstorage, hterm, hid, heq⟩ :=
    NodeTurn.startElection_eq cfg hnew
  have hheld := (startElection_backed_iff cfg hnew).mp hbacked
  rw [← holds_save_iff, ← hstorage] at hheld
  have hcand := hx.modifySm (f := .becomeCandidate cfg.id) fun _ hk =>
    hk.of_lt (Nat.lt_succ_self _) _
  have hy := hcand.quiet (hquiet _ hR)
  have htold := hy.effect (.electionStarted y.sm.currentTerm) (fun _ => nofun) fun _ => nofun
  have hready : RecordFollows i h asker n₀ (fun _ => True) y.announce :=
    htold.quiet (hR.modifyMetrics _)
  have hfan : RecordFollows i h asker n₀ (fun _ => True) (y.announce.fanOut cfg.peers req) := by
    -- the requests leave the node alone, so memory and disk hold the vote at each of them
    have hown : RecordFollows i h asker n₀ (fun n => n.sm = x.node.sm.becomeCandidate cfg.id ∧
        (cfg.peers ≠ [] → (persisted n.storage).Holds (x.node.sm.currentTerm + 1) cfg.id))
        y.announce :=
      Follows.mono hready fun _ _ _ hk => ⟨hk.1, hsm, hheld⟩
    refine Follows.mono (Follows.foldl (fun z peer => z.effect (.spawned (.requestVote peer req)))
      cfg.peers (fun z peer hpeer hz => ?_) hown) fun _ _ _ hk => ⟨hk.1, trivial⟩
    refine RecordFollows.effect hz _ ?_ ?_
    · intro hq v hv
      cases hv
      rw [NodeTurn.sm, hq.1, hterm, hid]
      exact ⟨rfl, rfl⟩
    · intro hq v hv
      cases hv
      rw [hterm, hid]
      exact hq.2 (List.ne_nil_of_mem hpeer)
  rw [heq]
  split
  · exact hfan.takeLeadership
  · exact hfan

/-- An election timeout. -/
theorem timeout (hx : RecordFollows i h asker n₀ (fun _ => True) x) (hnew : x.NoPromise)
    (hbacked : (x.timerBranch cfg true false).Backed) :
    RecordFollows i h asker n₀ (fun _ => True) (x.timerBranch cfg true false) := by
  have hheartbeat : ¬ (false = true ∧ x.sm.role = .leader) := fun h => Bool.false_ne_true h.1
  unfold NodeTurn.timerBranch at hbacked ⊢
  by_cases hdue : true = true ∧ x.sm.role ≠ .leader
  · rw [if_pos hdue] at hbacked ⊢
    exact hx.startElection hnew hbacked
  · rw [if_neg hdue, if_neg hheartbeat]
    exact hx

end RecordFollows

/-- Every turn that persists its votes before they go out keeps them recorded, and so does
every restart. -/
theorem record_simulation : Simulation (voteRecording σ) cfg i where
  turn := by
    rintro _ h n asker input crashAt _ hn _ ⟨helectoral, hbacked⟩
    have hR := indifferent_voteWritten (σ := σ)
    have hx : RecordFollows i h asker n (fun _ => True) (Turn.start n) :=
      Follows.start trivial hn.disk ⟨hn, trivial⟩
    refine Follows.mono (Q := fun _ H n => VotesRecorded H n ∧ True) ?_ fun _ _ _ hk => hk.1
    cases input with
    | appendEntries req => exact (hx.descend _ _).quiet (hR.handleAppendEntries req _)
    | requestVote req =>
      change (NodeTurn.handleRequestVote req (Turn.start n)).Backed at hbacked
      obtain ⟨y, hxy, ⟨term, heq⟩ | ⟨hterm, hvoted, heq⟩⟩ :=
        hR.handleRequestVote req (Turn.start n)
      · show RecordFollows i h asker n _ (NodeTurn.handleRequestVote req (Turn.start n))
        rw [heq]
        exact ((hx.descend _ _).quiet hxy).effect _ (fun _ => nofun) fun _ => nofun
      · show RecordFollows i h asker n _ (NodeTurn.handleRequestVote req (Turn.start n))
        rw [heq] at hbacked ⊢
        exact ((hx.descend _ _).quiet hxy).grant req hvoted hbacked
    | timer electionDue heartbeatDue =>
      cases electionDue with
      | false => exact helectoral.elim
      | true =>
        cases heartbeatDue with
        | true => exact helectoral.elim
        | false =>
          exact hx.timeout (.start n) hbacked
    | installSnapshot req => exact helectoral.elim
    | message msg => exact helectoral.elim
  restart _ _ hd := hd.boot

/-- One activation, or a crash and a restart, keeps the votes recorded. -/
theorem VotesRecorded.act {p : Process σ} (hp : VotesRecorded p.history p.node) {input : Input}
    {crashAt : Option ℕ} (helectoral : input.Electoral) (hsaved : SavedInTime cfg p.node input) :
    VotesRecorded (p.act cfg input crashAt).history (p.act cfg input crashAt).node := by
  have hsim : Simulation (voteRecording σ) cfg 0 := record_simulation
  have hcause : Cause ((voteRecording σ).packet ()) 0 none input := Cause.of_true 0 input
  have hbacked := (electoral_backed_iff cfg helectoral p.node).mpr hsaved
  have hcond : (voteRecording σ).cond p.history cfg p.node input crashAt := ⟨helectoral, hbacked⟩
  obtain ⟨_, _, _, hn, _⟩ := hsim.act trivial hp hcause hcond fun _ _ => trivial
  exact hn

instance (cfg : RaftConfig) (p : Process σ) (e : Input × Option ℕ) :
    Decidable (PersistedFirst cfg p e) :=
  inferInstanceAs (Decidable (∀ c ∈ (p.turn cfg e.1).trace, c.1.Backed (persisted c.2.storage)))

/-- The storage of a node whose first saves fail. -/
def flaky (failures : ℕ) : FlakyStorage MemStorage :=
  ⟨.new, List.replicate failures (some (.storage "disk"))⟩

end IceRaft
