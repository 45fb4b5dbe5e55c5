import IceRaft.Analysis.Simulation
import IceRaft.Analysis.VoteFrame
import IceRaft.Interface.Conditions
import IceRaft.Interface.Observations

/-!
# Election safety

The abstract state records who voted for whom in which term.  A node's vote in its
present term is on record, it has not voted in a later term, the votes a candidate has
received are on record, and behind every leadership there is a quorum of recorded votes.
Two quorums share a voter, so a term has one leader.

Any storage will do, as long as nothing crashes.  The one step that breaks the invariant
is a candidate that counts a vote of an earlier candidacy.
-/

set_option autoImplicit false

namespace IceRaft

open Cluster Abstraction

/-- Who voted for whom in which term. -/
abbrev Cast := NodeId → ℕ → Option NodeId

/-- A quorum voted for `i` in `term`. -/
def Elected (cc : ClusterConfig) (a : Cast) (i : NodeId) (term : ℕ) : Prop :=
  ∃ Q ⊆ cc.members, (cc.config i).quorum ≤ Q.card ∧ ∀ v ∈ Q, a v term = some i

/-- What holds of the Raft state of node `i`, whose history is `h`. -/
structure Voting (cc : ClusterConfig) (a : Cast) (i : NodeId) (h : List Effect)
    (sm : RaftStateMachine) : Prop where
  vote : a i sm.currentTerm = sm.votedFor
  future : ∀ term, sm.currentTerm < term → a i term = none
  received : sm.role = .candidate →
    sm.votesReceived ⊆ cc.members ∧ ∀ v ∈ sm.votesReceived, a v sm.currentTerm = some i
  led : ∀ term, Effect.becameLeader term ∈ h → Elected cc a i term
  leads : sm.role = .leader → Effect.becameLeader sm.currentTerm ∈ h

/-- What holds of a packet. -/
structure VotePacket (cc : ClusterConfig) (a : Cast) (p : Packet) : Prop where
  request : ∀ src waiting peer req, p = .request src waiting (.requestVote peer req) →
    req.candidateId = src
  response : ∀ dst peer resp, p = .response dst (.voteResponse peer resp) →
    resp.voteGranted = true → peer ∈ cc.members ∧ a peer resp.term = some dst

/-- Node `i` only records votes of its own. -/
def Casts (i : NodeId) (a b : Cast) : Prop :=
  (∀ term c, a i term = some c → b i term = some c) ∧ ∀ v, v ≠ i → b v = a v

variable {cc : ClusterConfig} {a b : Cast} {i j : NodeId} {h : List Effect}
  {sm sm' : RaftStateMachine}

/-- A recorded vote stays on record. -/
theorem Casts.keeps (hs : Casts i a b) {v : NodeId} {term : ℕ} {c : NodeId}
    (hv : a v term = some c) : b v term = some c := by
  by_cases hvi : v = i
  · subst hvi; exact hs.1 term c hv
  · rw [hs.2 v hvi]; exact hv

/-- Votes are only added, so who is elected stays elected. -/
theorem Casts.elected (hs : Casts i a b) {j : NodeId} {term : ℕ} (he : Elected cc a j term) :
    Elected cc b j term := by
  obtain ⟨Q, hQ, hcard, hv⟩ := he
  exact ⟨Q, hQ, hcard, fun v hvQ => hs.keeps (hv v hvQ)⟩

/-- **One leader a term**: two elections of one term have the same winner. -/
theorem Elected.unique {term : ℕ} (hi : i ∈ cc.members) (hj : j ∈ cc.members)
    (he : Elected cc a i term) (he' : Elected cc a j term) : i = j := by
  obtain ⟨Q, hQ, hcard, hv⟩ := he
  obtain ⟨Q', hQ', hcard', hv'⟩ := he'
  obtain ⟨v, hvQ, hvQ'⟩ := cc.quorum_inter hi hj hQ hQ' hcard hcard'
  exact Option.some.inj ((hv v hvQ).symm.trans (hv' v hvQ'))

/-- The cast of an election stands when a new vote of `i` is recorded. -/
def recordVote (a : Cast) (i : NodeId) (term : ℕ) (c : NodeId) : Cast :=
  Function.update a i (Function.update (a i) term (some c))

/-- A vote may be recorded where none is, or where it is the same. -/
theorem casts_recordVote {term : ℕ} {c : NodeId} (hv : a i term = none ∨ a i term = some c) :
    Casts i a (recordVote a i term c) := by
  refine ⟨fun t d hd => ?_, fun v hv => by simp [recordVote, hv]⟩
  by_cases ht : t = term
  · subst ht
    rcases hv with hv | hv
    · rw [hv] at hd; cases hd
    · rw [hv] at hd; simpa [recordVote] using hd
  · simpa [recordVote, ht] using hd

/-- A recorded vote is on record. -/
@[simp] theorem recordVote_self {term : ℕ} {c : NodeId} :
    recordVote a i term c i term = some c := by simp [recordVote]

/-- The votes of other terms are as they were. -/
theorem recordVote_of_ne {term t : ℕ} {c : NodeId} (h : t ≠ term) :
    recordVote a i term c i t = a i t := by simp [recordVote, h]

namespace Voting

/-- What a node has voted is up to its vote and the votes it counts. -/
theorem sameVote (hv : Voting cc a i h sm) (hs : SameVote sm sm') : Voting cc a i h sm' where
  vote := by rw [hs.currentTerm, hs.votedFor]; exact hv.vote
  future := by rw [hs.currentTerm]; exact hv.future
  received := by rw [hs.role, hs.votesReceived, hs.currentTerm]; exact hv.received
  led := hv.led
  leads := by rw [hs.role, hs.currentTerm]; exact hv.leads

/-- An effect that announces no leadership. -/
theorem append (hv : Voting cc a i h sm) {e : Effect} (he : ∀ term, e ≠ .becameLeader term) :
    Voting cc a i (h ++ [e]) sm where
  vote := hv.vote
  future := hv.future
  received := hv.received
  led term hm := by
    rcases List.mem_append.mp hm with hm | hm
    · exact hv.led term hm
    · exact absurd (List.mem_singleton.mp hm).symm (he term)
  leads hr := List.mem_append_left _ (hv.leads hr)

/-- A later term begins without a vote. -/
theorem becomeFollower (hv : Voting cc a i h sm) {term : ℕ} (hlt : sm.currentTerm < term)
    (leaderId : Option NodeId) : Voting cc a i h (sm.becomeFollower term leaderId) where
  vote := hv.future term hlt
  future t ht := hv.future t (Nat.lt_trans hlt ht)
  received hr := by simp [RaftStateMachine.becomeFollower] at hr
  led := hv.led
  leads hr := by simp [RaftStateMachine.becomeFollower] at hr

/-- A candidate votes for itself in a term in which it has not voted. -/
theorem becomeCandidate (hv : Voting cc a i h sm) (hi : i ∈ cc.members) :
    Casts i a (recordVote a i (sm.currentTerm + 1) i) ∧
      Voting cc (recordVote a i (sm.currentTerm + 1) i) i h (sm.becomeCandidate i) := by
  have hnone : a i (sm.currentTerm + 1) = none := hv.future _ (Nat.lt_succ_self _)
  have hs := casts_recordVote (c := i) (.inl hnone)
  refine ⟨hs, ?_, fun t ht => ?_, fun _ => ⟨?_, fun v hvr => ?_⟩, fun t hm => ?_, fun hr => ?_⟩
  · simp [RaftStateMachine.becomeCandidate]
  · have ht : sm.currentTerm + 1 < t := ht
    rw [recordVote_of_ne (by omega)]
    exact hv.future t (by omega)
  · simpa [RaftStateMachine.becomeCandidate] using hi
  · obtain rfl : v = i := by simpa [RaftStateMachine.becomeCandidate] using hvr
    simp [RaftStateMachine.becomeCandidate]
  · exact hs.elected (hv.led t hm)
  · simp [RaftStateMachine.becomeCandidate] at hr

/-- A granted vote is one that was free. -/
theorem grant (hv : Voting cc a i h sm) {c : NodeId}
    (hc : NodeTurn.alreadyVoted sm c = false) :
    Casts i a (recordVote a i sm.currentTerm c) ∧
      Voting cc (recordVote a i sm.currentTerm c) i h { sm with votedFor := some c } := by
  have hrec : a i sm.currentTerm = none ∨ a i sm.currentTerm = some c := by
    rw [hv.vote]
    exact NodeTurn.alreadyVoted_eq_false hc
  have hs := casts_recordVote hrec
  refine ⟨hs, by simp, fun t ht => ?_, fun hr => ⟨(hv.received hr).1, fun v hvr => ?_⟩,
    fun t hm => hs.elected (hv.led t hm), hv.leads⟩
  · have ht : sm.currentTerm < t := ht
    rw [recordVote_of_ne (by omega)]
    exact hv.future t ht
  · exact hs.keeps ((hv.received hr).2 v hvr)

/-- A candidate counts votes on record. -/
theorem receive (hv : Voting cc a i h sm) {v : NodeId} (hm : v ∈ cc.members)
    (hc : a v sm.currentTerm = some i) :
    Voting cc a i h { sm with votesReceived := insert v sm.votesReceived } where
  vote := hv.vote
  future := hv.future
  received hr := by
    obtain ⟨hsub, hcast⟩ := hv.received hr
    refine ⟨Finset.insert_subset hm hsub, ?_⟩
    intro w hw
    rcases Finset.mem_insert.mp hw with rfl | hw
    · exact hc
    · exact hcast w hw
  led := hv.led
  leads := hv.leads

end Voting

/-! ## The simulation -/

variable {σ : Type}

/-- The cast of all votes as an abstraction of the cluster. -/
def voteAbstraction (σ : Type) (cc : ClusterConfig) : Abstraction σ Cast where
  step := Casts
  good _ := True
  node a i h n := Voting cc a i h n.sm
  durable _ _ _ _ := True
  packet := VotePacket cc
  legal _ _ _ := True
  cond _ := NoCrash.and VotesCurrent
  good_step _ _ := trivial
  node_step := by
    intro i j a b h n hs _ hj hv
    have heq : b j = a j := hs.2 j hj
    refine ⟨by rw [heq]; exact hv.vote, by rw [heq]; exact hv.future, fun hr => ?_,
      fun t hm => hs.elected (hv.led t hm), hv.leads⟩
    exact ⟨(hv.received hr).1, fun v hvr => hs.keeps ((hv.received hr).2 v hvr)⟩
  packet_step hs _ hp :=
    ⟨hp.request, fun dst peer resp he hg =>
      ⟨(hp.response dst peer resp he hg).1, hs.keeps (hp.response dst peer resp he hg).2⟩⟩
  packet_orphan hp :=
    ⟨fun _ _ peer req he => by cases he; exact hp.request _ true peer req rfl, nofun⟩

variable [Storage σ]

/-- Same term, vote, role and votes, whatever the rest of the node. -/
theorem indifferent_sameVote :
    Indifferent fun n n' : RaftNodeInner σ => SameVote n.sm n'.sm where
  refl _ := .refl _
  trans h h' := h.trans h'
  sm _ _ h := h
  rest _ _ _ _ := .refl _
  firstIndex _ := .refl _
  lastIndex _ := .refl _
  term _ _ := .refl _
  entries _ _ _ _ := .refl _
  snapshot _ := .refl _
  appendEntries _ _ := .refl _
  applySnapshot _ _ := .refl _
  saveHardState _ := .refl _

/-- An effect that speaks of no vote asks for none and answers no request for one. -/
theorem Effect.aside.packet_ne {asker : Option (NodeId × RpcTask)} {e : Effect} (he : e.aside)
    {p : Packet} (hp : e.packet i asker = some p) :
    (∀ src waiting peer req, p ≠ .request src waiting (.requestVote peer req)) ∧
      ∀ dst peer resp, p ≠ .response dst (.voteResponse peer resp) := by
  obtain ⟨task, rfl, rfl⟩ | ⟨src, peer, req, resp, rfl, rfl⟩ |
    ⟨src, peer, last, req, resp, rfl, rfl⟩ | ⟨src, peer, last, req, resp, rfl, rfl⟩ :=
    Effect.packet_cases hp
  · cases task with
    | requestVote peer req => exact he.elim
    | _ => simp
  · exact he.elim
  · simp
  · simp

/-- A packet about neither votes nor requests for votes is as it should be. -/
theorem VotePacket.of_aside {asker : Option (NodeId × RpcTask)} {e : Effect} (he : e.aside)
    {p : Packet} (hp : e.packet i asker = some p) : VotePacket cc a p where
  request _ _ _ _ heq := absurd heq ((he.packet_ne hp).1 _ _ _ _)
  response _ _ _ heq := absurd heq ((he.packet_ne hp).2 _ _ _)

section Turn

variable {a₀ : Cast} {asker : Option (NodeId × RpcTask)} {n₀ : RaftNodeInner σ}
  {x y : NodeTurn σ}

/-- The turn has been followed so far, and the votes are on record. -/
abbrev VoteFollows (cc : ClusterConfig) (a₀ : Cast) (i : NodeId) (h : List Effect)
    (asker : Option (NodeId × RpcTask)) (n₀ : RaftNodeInner σ) (x : NodeTurn σ) : Prop :=
  (voteAbstraction σ cc).Follows a₀ i h asker n₀ (fun a H n => Voting cc a i H n.sm) x

omit [Storage σ] in
/-- Code that leaves the vote alone leaves the record of votes as it is. -/
theorem VoteFollows.quiet (hx : VoteFollows cc a₀ i h asker n₀ x)
    (hxy : Indifferent.Then (fun n n' => SameVote n.sm n'.sm) x y) :
    VoteFollows cc a₀ i h asker n₀ y := by
  refine Follows.quiet hx hxy (fun a H n n' hs hv => hv.sameVote hs) ?_ fun _ _ _ _ => trivial
  intro a H n e he hv
  refine ⟨hv.append ?_, fun p hp => .of_aside he hp⟩
  rintro term rfl
  exact he

/-- Stepping down casts no vote. -/
theorem VoteFollows.descend (hx : VoteFollows cc a₀ i h asker n₀ x) (term : ℕ)
    (leaderId : Option NodeId) : VoteFollows cc a₀ i h asker n₀ (x.descend term leaderId) := by
  unfold NodeTurn.descend
  split
  · rename_i hlt
    unfold NodeTurn.stepDown
    refine VoteFollows.quiet ?_ (indifferent_sameVote.save _)
    exact Follows.modifySm hx fun a H _ hv => hv.becomeFollower hlt leaderId
  · exact hx

/-- A leader is elected by the votes it has counted. -/
theorem VoteFollows.takeLeadership
    (hx : VoteFollows cc a₀ i h asker n₀ x) (hr : x.sm.role = .candidate)
    (hcard : (cc.config i).quorum ≤ x.sm.votesReceived.card) :
    VoteFollows cc a₀ i h asker n₀ (x.takeLeadership (cc.config i)) := by
  have hR := indifferent_sameVote (σ := σ)
  unfold NodeTurn.takeLeadership
  refine VoteFollows.quiet ?_ (hR.replicateAll _)
  refine VoteFollows.quiet ?_ (hR.modifyMetrics _)
  have hread : VoteFollows cc a₀ i h asker n₀ x.lastIndexOr0.2 := hx.quiet (hR.lastIndexOr0 x)
  -- between the change of role and its announcement the votes stand behind it
  have hlead : (voteAbstraction σ cc).Follows a₀ i h asker n₀
      (fun a H _ => Voting cc a i H x.sm) (x.lastIndexOr0.2.modifySm
        (.becomeLeader (cc.config i).id x.lastIndexOr0.1 (cc.config i).peers)) :=
    Follows.modifySm hread fun a H _ hv => hv
  refine Follows.effect hlead _ fun a H _ _ hv => ⟨a, .refl, trivial, nofun, ?_⟩
  have helected : Elected cc a i x.sm.currentTerm :=
    ⟨x.sm.votesReceived, (hv.received hr).1, hcard, (hv.received hr).2⟩
  refine ⟨hv.vote, hv.future, nofun, fun t ht => ?_, fun _ => List.mem_append_right _ ?_⟩
  · rcases List.mem_append.mp ht with ht | ht
    · exact hv.led t ht
    · cases List.mem_singleton.mp ht
      exact helected
  · exact List.mem_singleton_self _

omit [Storage σ] in
/-- The requests of a candidate name the candidate. -/
theorem VoteFollows.fanOut (hx : VoteFollows cc a₀ i h asker n₀ x) (req : RequestVoteRequest)
    (hreq : req.candidateId = i) (peers : List NodeId) :
    VoteFollows cc a₀ i h asker n₀
      (peers.foldl (fun x peer => x.effect (.spawned (.requestVote peer req))) x) := by
  refine Follows.foldl _ _ (fun y peer _ hy => ?_) hx
  refine Follows.effect hy _ fun a H _ _ hv => ⟨a, .refl, trivial, ?_, hv.append nofun⟩
  intro p hp
  cases hp
  exact ⟨fun _ _ _ _ he => by cases he; exact hreq, nofun⟩

/-- A candidacy casts a vote, and asks for the others. -/
theorem VoteFollows.startElection (hi : i ∈ cc.members)
    (hx : VoteFollows cc a₀ i h asker n₀ x) :
    VoteFollows cc a₀ i h asker n₀ (x.startElection (cc.config i)) := by
  have hR := indifferent_sameVote (σ := σ)
  have hid : (cc.config i).id = i := cc.config_id i hi
  unfold NodeTurn.startElection
  dsimp only
  have hcand : VoteFollows cc a₀ i h asker n₀ (x.modifySm (.becomeCandidate (cc.config i).id)) := by
    apply Follows.moveSm hx
    intro a H _ hv
    rw [hid]
    obtain ⟨hs, hv'⟩ := hv.becomeCandidate hi
    exact ⟨_, .single hs, hv'⟩
  have hsaved := (hcand.quiet (hR.save _)).quiet
    (hR.next (hR.lastIndexOr0 _) (hR.termOr0 (x.modifySm
      (.becomeCandidate (cc.config i).id)).saveHardState.lastIndexOr0.1 _))
  generalize (x.modifySm (.becomeCandidate (cc.config i).id)).saveHardState.lastIndexOr0 = r at *
  generalize NodeTurn.termOr0 r.1 r.2 = r' at *
  have hstarted : VoteFollows cc a₀ i h asker n₀
      (r'.2.effect (.electionStarted r'.2.sm.currentTerm)) :=
    Follows.effect hsaved _ fun a H _ _ hv => ⟨a, .refl, trivial, nofun, hv.append nofun⟩
  have hmetrics := hstarted.quiet (hR.modifyMetrics fun m =>
    { m with electionsStarted := m.electionsStarted + 1 })
  have hfan := hmetrics.fanOut ⟨r'.2.sm.currentTerm, (cc.config i).id, r.1, r'.1, false⟩ hid
    (cc.config i).peers
  split
  · rename_i hwon
    exact VoteFollows.takeLeadership hfan hwon.2 hwon.1
  · exact hfan

/-- A vote that is counted in its own term is on record. -/
theorem VoteFollows.handleVoteResponse {peer : NodeId} {resp : RequestVoteResponse}
    (hp : VotePacket cc a₀ (.response i (.voteResponse peer resp)))
    (hcur : resp.voteGranted = true → n₀.sm.role = .candidate →
      n₀.sm.currentTerm ≤ resp.term)
    (hv : Voting cc a₀ i h n₀.sm) :
    VoteFollows cc a₀ i h asker n₀
      (NodeTurn.handleVoteResponse (cc.config i) peer resp (Turn.start n₀)) := by
  have hstart : VoteFollows cc a₀ i h asker n₀ (Turn.start n₀) := Follows.start trivial trivial hv
  unfold NodeTurn.handleVoteResponse
  split
  · rename_i hlt
    rw [← NodeTurn.descend_of_lt hlt]
    exact hstart.descend resp.term none
  · rename_i hle
    split
    · rename_i hcount
      have hterm : resp.term = n₀.sm.currentTerm :=
        Nat.le_antisymm (Nat.le_of_not_lt hle) (hcur hcount.1 hcount.2)
      obtain ⟨hpeer, hcast⟩ := hp.response i peer resp rfl hcount.1
      rw [hterm] at hcast
      have hcounted : (voteAbstraction σ cc).Follows a₀ i h asker n₀
          (fun a H n => Voting cc a i H n.sm ∧ a peer n₀.sm.currentTerm = some i)
          (Turn.start n₀) := Follows.start trivial trivial ⟨hv, hcast⟩
      have hinsert : VoteFollows cc a₀ i h asker n₀ (NodeTurn.modifySm
          (fun sm => { sm with votesReceived := insert peer sm.votesReceived })
          (Turn.start n₀)) :=
        Follows.modifySm hcounted fun a H _ hv => hv.1.receive hpeer hv.2
      dsimp only
      split
      · rename_i hwon
        exact hinsert.takeLeadership hcount.2 hwon
      · exact hinsert
    · exact hstart

/-- A vote is granted once, and goes to the network with its record. -/
theorem VoteFollows.handleRequestVote (hi : i ∈ cc.members) {req : RequestVoteRequest}
    (hcause : Cause (VotePacket cc a₀) i asker (.requestVote req))
    (hx : VoteFollows cc a₀ i h asker n₀ x) :
    VoteFollows cc a₀ i h asker n₀ (x.handleRequestVote req) := by
  have hR := indifferent_sameVote (σ := σ)
  -- the packet of a reply says what the reply says
  have hpacket {a : Cast} {resp : RequestVoteResponse}
      (hg : resp.voteGranted = true → a i resp.term = some req.candidateId) :
      (voteAbstraction σ cc).effect a i asker (.replied (.requestVote req (.ok resp))) := by
    intro p hp
    obtain ⟨src, waiting, hreq, hasker⟩ := hcause.requestVote
    cases asker with
    | none => cases hp
    | some q =>
      obtain rfl := hasker q rfl
      cases hp
      refine ⟨nofun, ?_⟩
      intro dst peer resp' he hgr
      cases he
      exact ⟨hi, hreq.request src waiting i req rfl ▸ hg hgr⟩
  obtain ⟨y, hxy, ⟨term, heq⟩ | ⟨hterm, hvoted, heq⟩⟩ := hR.handleRequestVote req x
  · rw [heq]
    refine Follows.effect ((hx.descend _ _).quiet hxy) _ fun a H _ _ hv =>
      ⟨a, .refl, trivial, hpacket nofun, hv.append nofun⟩
  · rw [heq]
    unfold NodeTurn.grant
    have hy := (hx.descend _ _).quiet hxy
    have hgranted : VoteFollows cc a₀ i h asker n₀
        (y.modifySm fun sm => { sm with votedFor := some req.candidateId }) := by
      apply Follows.moveSm hy
      intro a H _ hv
      obtain ⟨hs, hv'⟩ := hv.grant hvoted
      exact ⟨_, .single hs, hv'⟩
    have hsaved := (hgranted.quiet (hR.save _)).quiet (hR.modifyMetrics fun m =>
      { m with votesGranted := m.votesGranted + 1 })
    exact Follows.effect hsaved _ fun a H _ _ hv =>
      ⟨a, .refl, trivial, hpacket fun _ => hv.vote, hv.append nofun⟩

/-- Every turn keeps the votes on record. -/
theorem vote_turn (hi : i ∈ cc.members) {input : Input} {crashAt : Option ℕ}
    (hv : Voting cc a₀ i h n₀.sm) (hcause : Cause (VotePacket cc a₀) i asker input)
    (hcond : NoCrash.and VotesCurrent (cc.config i) n₀ input crashAt) :
    VoteFollows cc a₀ i h asker n₀ (NodeTurn.run (cc.config i) input (Turn.start n₀)) := by
  have hR := indifferent_sameVote (σ := σ)
  have hx : VoteFollows cc a₀ i h asker n₀ (Turn.start n₀) := Follows.start trivial trivial hv
  cases input with
  | appendEntries req => exact (hx.descend _ _).quiet (hR.handleAppendEntries req _)
  | requestVote req => exact hx.handleRequestVote hi hcause
  | installSnapshot req => exact (hx.descend _ _).quiet (hR.handleInstallSnapshot req _)
  | timer electionDue heartbeatDue =>
    simp only [NodeTurn.run, NodeTurn.timerBranch]
    split
    · exact hx.startElection hi
    · split
      · exact hx.quiet (hR.next (hR.next (hR.replicateAll _) (hR.maybeAdvanceCommit _))
          (hR.applyCommitted _))
      · exact hx
  | message msg =>
    cases msg with
    | propose proposal => exact hx.quiet (hR.onProposal proposal _)
    | readIndex tx => exact hx.quiet (hR.emit trivial)
    | transferLeader target => exact hx
    | getLeader tx => exact hx.quiet (hR.emit trivial)
    | getTerm tx => exact hx.quiet (hR.emit trivial)
    | triggerSnapshot index => exact hx
    | shutdown => exact hx
    | appendResponse peer last resp =>
      exact (hx.descend _ _).quiet (hR.handleResponse peer _ _ _)
    | snapshotResponse peer last resp =>
      exact (hx.descend _ _).quiet (hR.handleResponse peer _ _ _)
    | voteResponse peer resp =>
      exact VoteFollows.handleVoteResponse hcause.voteResponse hcond.2 hv

end Turn

/-- Every turn of a member follows the record of votes. -/
theorem vote_simulation (hi : i ∈ cc.members) :
    Simulation (voteAbstraction σ cc) (cc.config i) i where
  turn _ hv hcause hcond := vote_turn hi hv hcause hcond
  restart _ hcond := by cases hcond.1

/-! ## Election safety -/

/-- The votes on record when every process has just booted: the restored ones. -/
def restoredVotes (stores : NodeId → σ) : Cast := fun i term =>
  let sm := (Process.boot (stores i)).node.sm
  if term = sm.currentTerm then sm.votedFor else none

/-- A process boots as a follower. -/
theorem boot_role (s : σ) : (Process.boot s).node.sm.role = .follower := by
  unfold Process.boot NodeTurn.restore
  split <;> rename_i heq <;> simp only [NodeTurn.read, Prod.mk.injEq] at heq <;>
    rw [← heq.2] <;> rfl

/-- Booting leads to no leadership. -/
theorem boot_history (s : σ) : ∃ commit, (Process.boot s).history = [.restored commit] := by
  unfold Process.boot NodeTurn.restore
  split <;> rename_i heq <;> simp only [NodeTurn.read, Prod.mk.injEq] at heq <;>
    exact ⟨_, by rw [← heq.2]; rfl⟩

/-- At the start the record of votes is what the disks hold. -/
theorem vote_holds_init (stores : NodeId → σ) :
    Simulation.Holds cc (voteAbstraction σ cc) (init stores) (restoredVotes stores) where
  good := trivial
  node i _ := by
    obtain ⟨commit, hh⟩ := boot_history (stores i)
    have hr := boot_role (stores i)
    refine ⟨by simp [restoredVotes, init], fun term ht => ?_, fun hc => ?_, fun term hm => ?_,
      fun hl => ?_⟩
    · have hne : term ≠ (Process.boot (stores i)).node.sm.currentTerm := Nat.ne_of_gt ht
      simp [restoredVotes, hne]
    · simp [init, hr] at hc
    · simp [init, hh] at hm
    · simp [init, hr] at hl
  packet p hp := by cases hp

/-- What a run leaves on record. -/
theorem vote_holds_run {c : Cluster σ} {a : Cast}
    (hc : Simulation.Holds cc (voteAbstraction σ cc) c a) {es : List Event}
    (h : Within cc (NoCrash.and VotesCurrent) c es) :
    ∃ b, Simulation.Holds cc (voteAbstraction σ cc) (exec cc c es) b ∧
      ∀ j term, Elected cc a j term → Elected cc b j term := by
  obtain ⟨b, hab, hb⟩ := Simulation.holds_run (fun i hi => vote_simulation hi)
    (fun _ _ h _ _ hin => h.of_input hin) (fun _ _ _ _ _ _ _ _ _ _ => trivial) hc h
  refine ⟨b, hb, ?_⟩
  intro j term he
  clear hb
  induction hab with
  | refl => exact he
  | tail _ hs ih =>
    obtain ⟨i, hs⟩ := hs
    exact hs.elected ih

/-- Three nodes. -/
abbrev trio : ClusterConfig := .ofIds [1, 2, 3] (by decide)

/-- Node 2 votes for node 1. -/
def wonRun : List Event :=
  [⟨.timer 1 true false, none⟩, ⟨.deliver 0, none⟩, ⟨.deliver 1, none⟩]

/-- Node 1 times out twice; node 2 grants its first request, the response stays out
until node 1 stands in term 2.  Meanwhile node 3 is elected in term 2 by node 2. -/
def staleVoteRun : List Event :=
  [⟨.timer 1 true false, none⟩, ⟨.deliver 0, none⟩, ⟨.timer 1 true false, none⟩,
    ⟨.timer 3 true false, none⟩, ⟨.timer 3 true false, none⟩, ⟨.deliver 1, none⟩,
    ⟨.deliver 6, none⟩, ⟨.deliver 8, none⟩]

/-- No crash and no stale vote: a term has one leader in the whole history. -/
theorem uniqueLeaders_of_votesCurrent (cc : ClusterConfig) (stores : NodeId → σ)
    (es : List Event) (h : Within cc (NoCrash.and VotesCurrent) (init stores) es) :
    (exec cc (init stores) es).UniqueLeaders cc := by
  obtain ⟨a, ha, -⟩ := vote_holds_run (vote_holds_init stores) h
  intro i hi j hj term hled hled'
  exact Elected.unique hi hj ((ha.node i hi).led term (mem_leaderships.mp hled))
    ((ha.node j hj).led term (mem_leaderships.mp hled'))

end IceRaft
