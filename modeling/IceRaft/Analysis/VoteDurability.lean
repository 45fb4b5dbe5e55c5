import IceRaft.Analysis.Simulation
import IceRaft.Analysis.VoteFrame
import IceRaft.Interface.Observations
import IceRaft.Interface.StorageContract

/-!
# One vote a term, across crashes

The votes of a node are in its history: the granted replies it has sent and the requests
for votes it has sent as a candidate.  Wherever the node may crash, the persisted term
and vote know every one of them, since a vote is saved before it is sent and a term is
only left for a higher one.
-/

set_option autoImplicit false

namespace IceRaft

open Abstraction

/-- The vote an effect gives, and its term. -/
def Effect.vote? : Effect → Option (ℕ × NodeId)
  | .replied (.requestVote req (.ok resp)) =>
    if resp.voteGranted then some (resp.term, req.candidateId) else none
  | .spawned (.requestVote _ req) => some (req.term, req.candidateId)
  | _ => none

/-- An effect beside the vote is no vote. -/
theorem Effect.aside.vote?_eq_none {e : Effect} (he : e.aside) : e.vote? = none := by
  cases e with
  | spawned task => cases task <;> first | exact he.elim | rfl
  | replied reply => cases reply <;> first | exact he.elim | rfl
  | _ => rfl

/-- The votes in a history. -/
def votesCast (history : List Effect) : List (ℕ × NodeId) := history.filterMap Effect.vote?

/-- Code beside the vote casts none. -/
theorem votesCast_quiet {σ : Type} {x y : NodeTurn σ}
    {R : RaftNodeInner σ → RaftNodeInner σ → Prop}
    (hxy : Turn.Quiet R Effect.aside x y) : votesCast y.effects = votesCast x.effects := by
  obtain ⟨t, ht, hok⟩ := hxy.trace
  have hnone : (t.map Prod.fst).filterMap Effect.vote? = [] := by
    rw [List.filterMap_eq_nil_iff]
    intro e he
    obtain ⟨p, hp, rfl⟩ := List.mem_map.mp he
    exact (hok p hp).1.vote?_eq_none
  unfold votesCast Turn.effects
  rw [ht, List.map_append, List.filterMap_append, hnone, List.append_nil]

/-- No term has votes for two candidates. -/
def OneVoteATerm (history : List Effect) : Prop :=
  ∀ v ∈ votesCast history, ∀ w ∈ votesCast history, v.1 = w.1 → v.2 = w.2

instance (history : List Effect) : Decidable (OneVoteATerm history) :=
  inferInstanceAs (Decidable (∀ v ∈ votesCast history, ∀ w ∈ votesCast history,
    v.1 = w.1 → v.2 = w.2))

/-- Every vote of a history is of an earlier term than `term`, or it is `vote` in
`term`. -/
def Knows (history : List Effect) (term : ℕ) (vote : Option NodeId) : Prop :=
  ∀ v ∈ votesCast history, v.1 < term ∨ (v.1 = term ∧ vote = some v.2)

variable {h : List Effect} {term term' : ℕ} {vote vote' : Option NodeId} {e : Effect}

/-- An effect adds the vote it casts. -/
theorem votesCast_append (h : List Effect) (e : Effect) :
    votesCast (h ++ [e]) = votesCast h ++ e.vote?.toList := by
  unfold votesCast
  rw [List.filterMap_append]
  cases he : e.vote? <;> simp [he]

/-- A node in a later term need not know its vote. -/
theorem Knows.of_lt (hk : Knows h term vote) (hlt : term < term') (vote' : Option NodeId) :
    Knows h term' vote' := by
  intro v hv
  left
  rcases hk v hv with hlt' | ⟨heq, -⟩
  · omega
  · omega

/-- A vote that agrees with what is known. -/
theorem Knows.append (hk : Knows h term vote)
    (he : ∀ v, e.vote? = some v → v.1 = term ∧ vote = some v.2) : Knows (h ++ [e]) term vote := by
  intro v hv
  rw [votesCast_append] at hv
  rcases List.mem_append.mp hv with hv | hv
  · exact hk v hv
  · exact .inr (he v (Option.mem_toList.mp hv))

/-- A vote that is the one of the node's term is the only one. -/
theorem OneVoteATerm.append (ho : OneVoteATerm h) (hk : Knows h term vote)
    (he : ∀ v, e.vote? = some v → v.1 = term ∧ vote = some v.2) : OneVoteATerm (h ++ [e]) := by
  -- a vote of the history that has the term of the new one is the known vote
  have hold : ∀ v ∈ votesCast h, ∀ w, e.vote? = some w → v.1 = w.1 → v.2 = w.2 := by
    intro v hv w hw heq
    obtain ⟨hterm, hvote⟩ := he w hw
    rcases hk v hv with hlt | ⟨-, hvote'⟩
    · omega
    · exact Option.some.inj (hvote'.symm.trans hvote)
  intro v hv w hw heq
  rw [votesCast_append] at hv hw
  rcases List.mem_append.mp hv with hv | hv
  · rcases List.mem_append.mp hw with hw | hw
    · exact ho v hv w hw heq
    · exact hold v hv w (Option.mem_toList.mp hw) heq
  · rcases List.mem_append.mp hw with hw | hw
    · exact (hold w hw v (Option.mem_toList.mp hv) heq.symm).symm
    · have := Option.mem_toList.mp hv ▸ Option.mem_toList.mp hw
      rw [Option.some.inj this]

/-! ## What is known in memory and on disk -/

/-- The Raft state knows the votes of the history. -/
structure VoteKnown (h : List Effect) (sm : RaftStateMachine) : Prop where
  once : OneVoteATerm h
  knows : Knows h sm.currentTerm sm.votedFor
  nonzero : sm.votedFor ≠ some 0

section

variable {σ : Type} [Storage σ] [DurableHardState σ]

open DurableHardState

/-- The persisted term and vote are those in memory. -/
def Synced (n : RaftNodeInner σ) : Prop :=
  (persisted n.storage).term = n.sm.currentTerm ∧
    (persisted n.storage).vote = n.sm.votedFor.getD 0

/-- The persisted hard state knows the votes of the history; a persisted `0` is no
vote. -/
structure VotePersisted (h : List Effect) (s : σ) : Prop where
  once : OneVoteATerm h
  knows : Knows h (persisted s).term
    (if (persisted s).vote = 0 then none else some (persisted s).vote)

/-- The invariant between two steps: memory knows, and the disk agrees with it. -/
structure VoteKept (h : List Effect) (n : RaftNodeInner σ) : Prop where
  known : VoteKnown h n.sm
  synced : Synced n

/-- A vote that is the one in memory may be sent. -/
theorem VoteKnown.append {sm : RaftStateMachine} (hk : VoteKnown h sm)
    (he : ∀ v, e.vote? = some v → v.1 = sm.currentTerm ∧ sm.votedFor = some v.2) :
    VoteKnown (h ++ [e]) sm :=
  ⟨hk.once.append hk.knows he, hk.knows.append he, hk.nonzero⟩

/-- A node keeps its vote as it casts it. -/
theorem VoteKept.append {n : RaftNodeInner σ} (hn : VoteKept h n)
    (he : ∀ v, e.vote? = some v → v.1 = n.sm.currentTerm ∧ n.sm.votedFor = some v.2) :
    VoteKept (h ++ [e]) n :=
  ⟨hn.known.append he, hn.synced⟩

/-- What a node knows of its votes is up to its term and vote. -/
theorem VoteKnown.sameVote {sm sm' : RaftStateMachine} (hk : VoteKnown h sm)
    (hs : SameVote sm sm') : VoteKnown h sm' where
  once := hk.once
  knows := by rw [hs.currentTerm, hs.votedFor]; exact hk.knows
  nonzero := by rw [hs.votedFor]; exact hk.nonzero

/-- The encoding of a vote in the hard state loses nothing but the vote `0`. -/
theorem decode_vote {v : Option NodeId} (hv : v ≠ some 0) :
    (if v.getD 0 = 0 then none else some (v.getD 0)) = v := by
  cases v with
  | none => rfl
  | some c =>
    have hc : c ≠ 0 := fun h => hv (by rw [h])
    simp [hc]

/-- A vote that is kept is on the disk. -/
theorem VoteKept.persisted {n : RaftNodeInner σ} (hn : VoteKept h n) :
    VotePersisted h n.storage where
  once := hn.known.once
  knows := by
    rw [hn.synced.1, hn.synced.2, decode_vote hn.known.nonzero]
    exact hn.known.knows

/-- What the restore block does. -/
theorem restore_spec (n : RaftNodeInner σ) :
    (NodeTurn.restore (Turn.start n)).sm.currentTerm = (persisted n.storage).term ∧
      (NodeTurn.restore (Turn.start n)).sm.votedFor =
        (if (persisted n.storage).vote = 0 then none else some (persisted n.storage).vote) ∧
      (NodeTurn.restore (Turn.start n)).node.storage = (Storage.loadHardState n.storage).2 ∧
      ∃ c, (NodeTurn.restore (Turn.start n)).effects = [.restored c] := by
  have hload : Storage.loadHardState n.storage =
      (.ok (persisted n.storage), (Storage.loadHardState n.storage).2) := Prod.ext (load_ok _) rfl
  unfold NodeTurn.restore NodeTurn.read
  rw [show (Turn.start n : NodeTurn σ).node.storage = n.storage from rfl, hload]
  exact ⟨rfl, rfl, rfl, _, rfl⟩

/-- Restarting restores what was persisted. -/
theorem VotePersisted.boot {s : σ} (hs : VotePersisted h s) :
    VoteKept (h ++ (Process.boot s).history) (Process.boot s).node := by
  obtain ⟨hterm, hvote, hstorage, c, hhist⟩ := restore_spec (RaftNodeInner.new s)
  change (Process.boot s).node.sm.currentTerm = _ at hterm
  change (Process.boot s).node.sm.votedFor = _ at hvote
  change (Process.boot s).node.storage = _ at hstorage
  change (Process.boot s).history = _ at hhist
  refine ⟨⟨?_, ?_, ?_⟩, ?_, ?_⟩
  · rw [hhist]
    exact hs.once.append hs.knows nofun
  · rw [hhist, hterm, hvote]
    exact hs.knows.append nofun
  · rw [hvote]
    split
    · exact nofun
    · rename_i hne
      intro heq
      exact hne (Option.some.inj heq)
  · rw [hstorage, persisted_load, hterm]
  · rw [hstorage, persisted_load, hvote]
    split
    · assumption
    · rfl

/-! ## The simulation -/

/-- The votes of one node, its requests and responses being arbitrary but for the ids,
which are not `0`. -/
def voteKeeping (σ : Type) [Storage σ] [DurableHardState σ] : Abstraction σ Unit where
  step _ _ _ := False
  good _ := True
  node _ _ h n := VoteKept h n
  durable _ _ h n := VotePersisted h n.storage
  packet _ _ := True
  legal _ _ _ := True
  cond _ _ _ input _ := ∀ req, input = .requestVote req → req.candidateId ≠ 0
  good_step _ _ := trivial
  node_step := nofun
  packet_step _ _ _ := trivial
  packet_orphan _ := trivial

/-- From `n` to `n'` the vote in memory is kept, and the disk either keeps its term and
vote or is brought in step. -/
structure VoteSaved (n n' : RaftNodeInner σ) : Prop where
  same : SameVote n.sm n'.sm
  saved : ((persisted n'.storage).term = (persisted n.storage).term ∧
    (persisted n'.storage).vote = (persisted n.storage).vote) ∨ Synced n'

/-- Memory and disk agree on the vote while neither changes. -/
theorem Synced.sameVote {n n' : RaftNodeInner σ} (hs : Synced n) (h : SameVote n.sm n'.sm)
    (hterm : (persisted n'.storage).term = (persisted n.storage).term)
    (hvote : (persisted n'.storage).vote = (persisted n.storage).vote) : Synced n' :=
  ⟨by rw [hterm, hs.1, h.currentTerm], by rw [hvote, hs.2, h.votedFor]⟩

/-- A disk in step stays in step. -/
theorem VoteSaved.synced {n n' : RaftNodeInner σ} (h : VoteSaved n n') (hs : Synced n) :
    Synced n' := by
  rcases h.saved with ⟨hterm, hvote⟩ | hs'
  · exact hs.sameVote h.same hterm hvote
  · exact hs'

/-- A call that leaves the persisted hard state alone. -/
theorem VoteSaved.of_persisted {n : RaftNodeInner σ} {s : σ}
    (h : persisted s = persisted n.storage) : VoteSaved n (n.setStorage s) :=
  ⟨.refl _, .inl ⟨congrArg _ h, congrArg _ h⟩⟩

/-- Code beside the vote leaves memory and disk in agreement. -/
theorem indifferent_voteSaved : Indifferent (VoteSaved (σ := σ)) where
  refl _ := ⟨.refl _, .inl ⟨rfl, rfl⟩⟩
  trans h h' := by
    refine ⟨h.same.trans h'.same, ?_⟩
    rcases h'.saved with ⟨hterm, hvote⟩ | hs
    · rcases h.saved with ⟨hterm', hvote'⟩ | hs
      · exact .inl ⟨hterm.trans hterm', hvote.trans hvote'⟩
      · exact .inr (hs.sameVote h'.same hterm hvote)
    · exact .inr hs
  sm _ _ h := ⟨h, .inl ⟨rfl, rfl⟩⟩
  rest _ _ _ _ := ⟨.refl _, .inl ⟨rfl, rfl⟩⟩
  firstIndex _ := .of_persisted (persisted_firstIndex _)
  lastIndex _ := .of_persisted (persisted_lastIndex _)
  term i _ := .of_persisted (persisted_term i _)
  entries lo hi max _ := .of_persisted (persisted_entries lo hi max _)
  snapshot _ := .of_persisted (persisted_snapshot _)
  appendEntries es _ := .of_persisted (persisted_append es _)
  applySnapshot snap _ := .of_persisted (persisted_applySnapshot snap _)
  saveHardState n := ⟨.refl _, .inr ⟨congrArg _ (persisted_save n.hardState _),
    congrArg _ (persisted_save n.hardState _)⟩⟩

variable {i : NodeId} {asker : Option (NodeId × RpcTask)} {n₀ : RaftNodeInner σ}
  {x y : NodeTurn σ} {cfg : RaftConfig}

/-- The turn has been followed so far, and `Q` holds of the history and the node. -/
abbrev KeepFollows (i : NodeId) (h : List Effect) (asker : Option (NodeId × RpcTask))
    (n₀ : RaftNodeInner σ) (Q : List Effect → RaftNodeInner σ → Prop) (x : NodeTurn σ) : Prop :=
  (voteKeeping σ).Follows () i h asker n₀ (fun _ H n => Q H n) x

/-- An effect that sends no vote but the one in memory. -/
theorem KeepFollows.effect {Q : RaftNodeInner σ → Prop}
    (hx : KeepFollows i h asker n₀ (fun H n => VoteKept H n ∧ Q n) x) (e : Effect)
    (he : Q x.node → ∀ v, e.vote? = some v →
      v.1 = x.sm.currentTerm ∧ x.sm.votedFor = some v.2) :
    KeepFollows i h asker n₀ (fun H n => VoteKept H n ∧ Q n) (x.effect e) := by
  apply Follows.effect hx e
  intro _ H _ _ hk
  have hk' := hk.1.append (he hk.2)
  exact ⟨(), .refl, hk'.persisted, fun _ _ => trivial, hk', hk.2⟩

/-- Code beside the vote keeps it. -/
theorem KeepFollows.quiet (hx : KeepFollows i h asker n₀ VoteKept x)
    (hxy : Indifferent.Then VoteSaved x y) :
    KeepFollows i h asker n₀ VoteKept y := by
  refine Follows.quiet hx hxy ?_ ?_ fun _ _ _ hk => hk.persisted
  · intro _ H n n' hs hk
    exact ⟨hk.known.sameVote hs.same, hs.synced hk.synced⟩
  · intro _ H n e he hk
    refine ⟨hk.append fun v hv => ?_, fun _ _ => trivial⟩
    rw [he.vote?_eq_none] at hv
    cases hv

/-- `save_hard_state` brings the disk in step. -/
theorem KeepFollows.save (hx : KeepFollows i h asker n₀ (fun H n => VoteKnown H n.sm) x) :
    KeepFollows i h asker n₀ VoteKept x.saveHardState := by
  have hstored : KeepFollows i h asker n₀ (fun H n => VoteKept H n ∧ True) (x.update fun n =>
      { n with storage := (Storage.saveHardState x.node.hardState x.node.storage).2 }) := by
    refine Follows.update hx _ fun _ H _ hk => ⟨⟨hk, ?_, ?_⟩, trivial⟩
    · exact congrArg _ (persisted_save x.node.hardState _)
    · exact congrArg _ (persisted_save x.node.hardState _)
  have hwritten := hstored.effect .wrote fun _ _ hv => by cases hv
  unfold NodeTurn.saveHardState
  exact KeepFollows.quiet (Follows.mono hwritten fun _ _ _ hk => hk.1)
    (indifferent_voteSaved.modifyMetrics _)

/-- A later term is saved without a vote. -/
theorem KeepFollows.descend (hx : KeepFollows i h asker n₀ VoteKept x) (term : ℕ)
    (leaderId : Option NodeId) : KeepFollows i h asker n₀ VoteKept (x.descend term leaderId) := by
  unfold NodeTurn.descend
  split
  · rename_i hlt
    unfold NodeTurn.stepDown
    refine KeepFollows.save (Follows.modifySm hx fun _ H _ hk => ?_)
    exact ⟨hk.known.once, hk.known.knows.of_lt hlt none, nofun⟩
  · exact hx

/-- A leadership keeps the vote. -/
theorem KeepFollows.takeLeadership (hx : KeepFollows i h asker n₀ VoteKept x) :
    KeepFollows i h asker n₀ VoteKept (x.takeLeadership cfg) := by
  have hR := indifferent_voteSaved (σ := σ)
  unfold NodeTurn.takeLeadership
  refine KeepFollows.quiet ?_ (hR.replicateAll _)
  refine KeepFollows.quiet ?_ (hR.modifyMetrics _)
  have hread := hx.quiet (hR.lastIndexOr0 x)
  have hlead : KeepFollows i h asker n₀ (fun H n => VoteKept H n ∧ True)
      (x.lastIndexOr0.2.modifySm (.becomeLeader cfg.id x.lastIndexOr0.1 cfg.peers)) :=
    Follows.modifySm hread fun _ H _ hk =>
      ⟨⟨⟨hk.known.once, hk.known.knows, hk.known.nonzero⟩, hk.synced⟩, trivial⟩
  exact Follows.mono (hlead.effect _ fun _ _ hv => by cases hv) fun _ _ _ hk => hk.1

/-- A candidate saves its vote before it asks for others. -/
theorem KeepFollows.startElection (hid : cfg.id ≠ 0) (hx : KeepFollows i h asker n₀ VoteKept x) :
    KeepFollows i h asker n₀ VoteKept (x.startElection cfg) := by
  have hR := indifferent_voteSaved (σ := σ)
  unfold NodeTurn.startElection
  dsimp only
  have hsaved : KeepFollows i h asker n₀ VoteKept
      (x.modifySm (.becomeCandidate cfg.id)).saveHardState := by
    refine KeepFollows.save (Follows.modifySm hx fun _ H _ hk => ⟨hk.known.once, ?_, ?_⟩)
    · exact hk.known.knows.of_lt (Nat.lt_succ_self _) _
    · intro heq
      exact hid (Option.some.inj heq)
  have hreads := hsaved.quiet (hR.next (hR.lastIndexOr0 _) (hR.termOr0 (x.modifySm
    (.becomeCandidate cfg.id)).saveHardState.lastIndexOr0.1 _))
  have hsm : (NodeTurn.termOr0 (x.modifySm (.becomeCandidate cfg.id)).saveHardState.lastIndexOr0.1
      (x.modifySm (.becomeCandidate cfg.id)).saveHardState.lastIndexOr0.2).2.sm =
        x.sm.becomeCandidate cfg.id := by
    rw [NodeTurn.termOr0_sm, NodeTurn.lastIndexOr0_sm, NodeTurn.saveHardState_sm]
    rfl
  generalize (x.modifySm (.becomeCandidate cfg.id)).saveHardState.lastIndexOr0 = r at *
  generalize NodeTurn.termOr0 r.1 r.2 = r' at *
  -- from here on the vote in memory is the candidate's own
  have hown : KeepFollows i h asker n₀ (fun H n => VoteKept H n ∧
      (n.sm.currentTerm = r'.2.sm.currentTerm ∧ n.sm.votedFor = some cfg.id)) r'.2 :=
    Follows.mono hreads fun _ _ _ hk => ⟨hk, rfl, congrArg RaftStateMachine.votedFor hsm⟩
  have hstarted := hown.effect (.electionStarted r'.2.sm.currentTerm) fun _ _ hv => by cases hv
  have hmetrics : KeepFollows i h asker n₀ (fun H n => VoteKept H n ∧
      (n.sm.currentTerm = r'.2.sm.currentTerm ∧ n.sm.votedFor = some cfg.id))
      ((r'.2.effect (.electionStarted r'.2.sm.currentTerm)).modifyMetrics
        fun m => { m with electionsStarted := m.electionsStarted + 1 }) :=
    Follows.modifyMetrics hstarted fun _ _ _ hk => ⟨⟨hk.1.known, hk.1.synced⟩, hk.2⟩
  have hfan := Follows.foldl (fun y peer => y.effect (.spawned (.requestVote peer
      ⟨r'.2.sm.currentTerm, cfg.id, r.1, r'.1, false⟩))) cfg.peers (fun y peer _ hy =>
    KeepFollows.effect hy _ fun hq v hv => by
      cases hv
      exact ⟨hq.1.symm, hq.2⟩) hmetrics
  have hdone := Follows.mono hfan fun _ _ _ hk => hk.1
  split
  · exact KeepFollows.takeLeadership hdone
  · exact hdone

/-- A vote that arrives leaves one's own alone. -/
theorem KeepFollows.handleVoteResponse (hx : KeepFollows i h asker n₀ VoteKept x) (peer : NodeId)
    (resp : RequestVoteResponse) :
    KeepFollows i h asker n₀ VoteKept (x.handleVoteResponse cfg peer resp) := by
  unfold NodeTurn.handleVoteResponse
  split
  · rename_i hlt
    rw [← NodeTurn.descend_of_lt hlt]
    exact hx.descend resp.term none
  · split
    · have hcounted : KeepFollows i h asker n₀ VoteKept (x.modifySm fun sm =>
          { sm with votesReceived := insert peer sm.votesReceived }) :=
        Follows.modifySm hx fun _ H _ hk =>
          ⟨⟨hk.known.once, hk.known.knows, hk.known.nonzero⟩, hk.synced⟩
      dsimp only
      split
      · exact hcounted.takeLeadership
      · exact hcounted
    · exact hx

/-- A vote is saved before it goes out, and only where it is free. -/
theorem KeepFollows.handleRequestVote (hx : KeepFollows i h asker n₀ VoteKept x)
    {req : RequestVoteRequest} (hreq : req.candidateId ≠ 0) :
    KeepFollows i h asker n₀ VoteKept (x.handleRequestVote req) := by
  have hR := indifferent_voteSaved (σ := σ)
  obtain ⟨y, hxy, ⟨term, heq⟩ | ⟨hterm, hvoted, heq⟩⟩ := hR.handleRequestVote req x
  · rw [heq]
    have hy : KeepFollows i h asker n₀ (fun H n => VoteKept H n ∧ True) y :=
      Follows.mono ((hx.descend _ _).quiet hxy) fun _ _ _ hk => ⟨hk, trivial⟩
    exact Follows.mono (hy.effect _ fun _ _ hv => by cases hv) fun _ _ _ hk => hk.1
  · rw [heq]
    unfold NodeTurn.grant
    have hy := (hx.descend _ _).quiet hxy
    have hgranted : KeepFollows i h asker n₀ VoteKept
        (y.modifySm fun sm => { sm with votedFor := some req.candidateId }).saveHardState := by
      refine KeepFollows.save (Follows.modifySm hy fun _ H _ hk => ⟨hk.known.once, ?_, ?_⟩)
      · -- a vote already given in this term is this one
        intro v hv
        rcases hk.known.knows v hv with hlt | ⟨heq, hvote⟩
        · exact .inl hlt
        · refine .inr ⟨heq, ?_⟩
          rcases NodeTurn.alreadyVoted_eq_false hvoted with hnone | hsome
          · exact absurd (hvote.symm.trans hnone) nofun
          · exact hsome.symm.trans hvote
      · intro heq
        exact hreq (Option.some.inj heq)
    have hmetrics : KeepFollows i h asker n₀
        (fun H n => VoteKept H n ∧ n.sm.votedFor = some req.candidateId)
        ((y.modifySm fun sm => { sm with votedFor := some req.candidateId }).saveHardState
          |>.modifyMetrics fun m => { m with votesGranted := m.votesGranted + 1 }) :=
      Follows.mono (hgranted.quiet (hR.modifyMetrics _)) fun _ _ _ hk => ⟨hk, rfl⟩
    refine Follows.mono (hmetrics.effect _ fun hq v hv => ?_) fun _ _ _ hk => hk.1
    cases hv
    exact ⟨rfl, hq⟩

/-- Every turn and every restart keeps the vote. -/
theorem keep_simulation (hid : cfg.id ≠ 0) : Simulation (voteKeeping σ) cfg i where
  turn := by
    intro _ h n asker input crashAt _ hn _ hcond
    have hR := indifferent_voteSaved (σ := σ)
    have hx : KeepFollows i h asker n VoteKept (Turn.start n) :=
      Follows.start trivial hn.persisted hn
    cases input with
    | appendEntries req => exact (hx.descend _ _).quiet (hR.handleAppendEntries req _)
    | requestVote req => exact hx.handleRequestVote (hcond req rfl)
    | installSnapshot req => exact (hx.descend _ _).quiet (hR.handleInstallSnapshot req _)
    | timer electionDue heartbeatDue =>
      simp only [NodeTurn.run, NodeTurn.timerBranch]
      split
      · exact hx.startElection hid
      · split
        · exact hx.quiet (hR.next (hR.next (hR.replicateAll _) (hR.maybeAdvanceCommit _))
            (hR.applyCommitted _))
        · exact hx
    | message msg =>
      cases msg with
      | propose proposal => exact hx.quiet (hR.onProposal proposal _)
      | readIndex tx => exact hx.quiet (hR.emit trivial)
      | transferLeader target => exact hx
      | getLeader tx => exact hx.quiet (hR.emit trivial)
      | getTerm tx => exact hx.quiet (hR.emit trivial)
      | triggerSnapshot index => exact hx
      | shutdown => exact hx
      | appendResponse peer last resp =>
        exact (hx.descend _ _).quiet (hR.handleResponse peer _ _ _)
      | snapshotResponse peer last resp =>
        exact (hx.descend _ _).quiet (hR.handleResponse peer _ _ _)
      | voteResponse peer resp => exact hx.handleVoteResponse peer resp
  restart _ _ hd := hd.boot

/-- **One vote a term.**  Over any storage that persists the hard state, with ids that are
not `0`, a process votes for one candidate a term, whatever it receives and wherever it
crashes.
SRCLINE: iceraft-node/src/node.rs:370-416, 195-207, 822-832 -/
theorem one_vote_a_term (cfg : RaftConfig) (s : σ) (es : List (Input × Option ℕ))
    (hid : cfg.id ≠ 0) (hes : ∀ e ∈ es, ∀ req, e.1 = .requestVote req → req.candidateId ≠ 0) :
    OneVoteATerm ((Process.boot s).exec cfg es).history := by
  have hsim : Simulation (voteKeeping σ) cfg 0 := keep_simulation hid
  have hrun : ∀ p : Process σ, VoteKept p.history p.node →
      VoteKept (p.exec cfg es).history (p.exec cfg es).node := by
    induction es with
    | nil => exact fun p hp => hp
    | cons e es ih =>
      intro p hp
      refine ih (fun e' he' => hes e' (List.mem_cons_of_mem _ he')) _ ?_
      have hcause : Cause ((voteKeeping σ).packet ()) 0 none e.1 := Cause.of_true 0 e.1
      obtain ⟨_, _, _, hn, _⟩ := hsim.act trivial hp hcause (hes e List.mem_cons_self)
        fun _ _ => trivial
      exact hn
  have hboot : VoteKept ([] ++ (Process.boot s).history) (Process.boot s).node :=
    VotePersisted.boot ⟨nofun, nofun⟩
  exact (hrun _ hboot).known.once

end

/-- Node 1 grants a vote in term 1, crashes in its own candidacy of term 2 right after
the hard state was saved, and then hears from a rival of each term. -/
def rivalsRun : List (Input × Option ℕ) :=
  [(.requestVote ⟨1, 2, 0, 0, false⟩, none), (.timer true false, some 1),
    (.requestVote ⟨1, 3, 0, 0, false⟩, none), (.requestVote ⟨2, 3, 0, 0, false⟩, none),
    (.requestVote ⟨3, 3, 0, 0, false⟩, none), (.timer true false, none)]

/-- Of two candidates of one term the first gets the vote, across a crash. -/
theorem one_vote_a_term_rivals :
    votesCast ((Process.boot MemStorage.new).exec { id := 1, peers := [2, 3] } rivalsRun).history =
        [(1, 2), (3, 3), (4, 1), (4, 1)] ∧
      OneVoteATerm
        ((Process.boot MemStorage.new).exec { id := 1, peers := [2, 3] } rivalsRun).history := by
  refine ⟨by decide +kernel, one_vote_a_term _ _ _ (by decide) ?_⟩
  intro e he req heq
  simp only [rivalsRun, List.mem_cons, List.not_mem_nil, or_false] at he
  rcases he with rfl | rfl | rfl | rfl | rfl | rfl <;> cases heq <;> decide

end IceRaft
