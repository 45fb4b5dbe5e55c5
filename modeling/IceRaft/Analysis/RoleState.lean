import IceRaft.Analysis.Transitions

/-!
# What the role says about the rest of the Raft state

A leader has voted for itself, was elected by a quorum and follows the progress of exactly
its peers; a candidate has voted for itself and follows nobody; a follower has neither
votes nor progress.
-/

set_option autoImplicit false

namespace IceRaft

/-- A response to this node comes from one of its peers. -/
def FromPeer (cfg : RaftConfig) : Input → Prop
  | .message (.voteResponse peer _) => peer ∈ cfg.peers
  | .message (.appendResponse peer _ _) => peer ∈ cfg.peers
  | .message (.snapshotResponse peer _ _) => peer ∈ cfg.peers
  | _ => True

instance (cfg : RaftConfig) (input : Input) : Decidable (FromPeer cfg input) :=
  match input with
  | .message (.voteResponse peer _) => inferInstanceAs (Decidable (peer ∈ cfg.peers))
  | .message (.appendResponse peer _ _) => inferInstanceAs (Decidable (peer ∈ cfg.peers))
  | .message (.snapshotResponse peer _ _) => inferInstanceAs (Decidable (peer ∈ cfg.peers))
  | .message (.propose _) | .message (.readIndex _) | .message (.transferLeader _)
  | .message (.getLeader _) | .message (.getTerm _) | .message (.triggerSnapshot _)
  | .message .shutdown | .appendEntries _ | .requestVote _ | .installSnapshot _
  | .timer _ _ => inferInstanceAs (Decidable True)

/-- The leader's part. -/
structure LeaderState (cfg : RaftConfig) (sm : RaftStateMachine) : Prop where
  keys : ∀ j, j ∈ sm.progress ↔ j ∈ cfg.peers
  next : ∀ j pr, sm.progress.lookup j = some pr → 1 ≤ pr.nextIndex
  vote : sm.votedFor = some cfg.id
  members : sm.votesReceived ⊆ cfg.members
  self : cfg.id ∈ sm.votesReceived
  quorum : cfg.quorum ≤ sm.votesReceived.card

/-- The candidate's part. -/
structure CandidateState (cfg : RaftConfig) (sm : RaftStateMachine) : Prop where
  progress : sm.progress = ∅
  vote : sm.votedFor = some cfg.id
  members : sm.votesReceived ⊆ cfg.members
  self : cfg.id ∈ sm.votesReceived

/-- What the role says about vote, votes and progress. -/
structure RoleState (cfg : RaftConfig) (sm : RaftStateMachine) : Prop where
  leader : sm.role = .leader → LeaderState cfg sm
  candidate : sm.role = .candidate → CandidateState cfg sm
  follower : sm.role = .follower → sm.progress = ∅ ∧ sm.votesReceived = ∅

variable {cfg : RaftConfig} {sm : RaftStateMachine}

/-- The parts do not speak of the leader hint and of the indices. -/
theorem RoleState.note (h : RoleState cfg sm) (leader : Option NodeId) (commit applied : ℕ) :
    RoleState cfg
      { sm with leaderId := leader, commitIndex := commit, lastApplied := applied } where
  leader hrole :=
    have hl := h.leader hrole
    ⟨hl.keys, hl.next, hl.vote, hl.members, hl.self, hl.quorum⟩
  candidate hrole :=
    have hc := h.candidate hrole
    ⟨hc.progress, hc.vote, hc.members, hc.self⟩
  follower hrole := h.follower hrole

/-- A follower has neither votes nor progress to keep. -/
theorem roleState_becomeFollower (term : ℕ) (leader : Option NodeId) :
    RoleState cfg (sm.becomeFollower term leader) :=
  ⟨nofun, nofun, fun _ => ⟨rfl, rfl⟩⟩

/-- A leader or a candidate can only grant its vote to itself. -/
theorem RoleState.grant (h : RoleState cfg sm) {candidateId : NodeId}
    (hfree : NodeTurn.alreadyVoted sm candidateId = false) :
    RoleState cfg { sm with votedFor := some candidateId } := by
  have hself : sm.votedFor = some cfg.id → some candidateId = some cfg.id := by
    intro hvote
    rcases NodeTurn.alreadyVoted_eq_false hfree with hnone | hsome
    · rw [hvote] at hnone
      cases hnone
    · rw [← hsome, hvote]
  refine ⟨fun hrole => ?_, fun hrole => ?_, fun hrole => h.follower hrole⟩
  · have hl := h.leader hrole
    exact ⟨hl.keys, hl.next, hself hl.vote, hl.members, hl.self, hl.quorum⟩
  · have hc := h.candidate hrole
    exact ⟨hc.progress, hself hc.vote, hc.members, hc.self⟩

/-- Nobody but a leader has progress. -/
theorem RoleState.progress_empty (h : RoleState cfg sm) (hrole : sm.role ≠ .leader) :
    sm.progress = ∅ := by
  cases hr : sm.role with
  | follower => exact (h.follower hr).1
  | candidate => exact (h.candidate hr).progress
  | leader => exact absurd hr hrole

/-- A candidate starts with its own vote. -/
theorem RoleState.stand (h : RoleState cfg sm) (hrole : sm.role ≠ .leader) :
    RoleState cfg (sm.becomeCandidate cfg.id) := by
  refine ⟨nofun, fun _ => ⟨h.progress_empty hrole, rfl, ?_, Finset.mem_singleton_self _⟩, nofun⟩
  exact Finset.singleton_subset_iff.mpr (Finset.mem_insert_self _ _)

/-- The votes of a candidate are those of members. -/
theorem RoleState.count (h : RoleState cfg sm) (hrole : sm.role = .candidate) {peer : NodeId}
    (hpeer : peer ∈ cfg.peers) :
    RoleState cfg { sm with votesReceived := insert peer sm.votesReceived } := by
  have hc := h.candidate hrole
  refine ⟨fun hl => ?_, fun _ => ⟨hc.progress, hc.vote, ?_, ?_⟩, fun hf => ?_⟩
  · rw [show sm.role = .leader from hl] at hrole
    cases hrole
  · refine Finset.insert_subset ?_ hc.members
    exact Finset.mem_insert_of_mem (List.mem_toFinset.mpr hpeer)
  · exact Finset.mem_insert_of_mem hc.self
  · rw [show sm.role = .follower from hf] at hrole
    cases hrole

/-- The fresh progress map has the peers as its keys. -/
theorem mem_freshProgress (last : ℕ) (peers : List NodeId) (j : NodeId) :
    j ∈ RaftStateMachine.freshProgress last peers ↔ j ∈ peers := by
  have hfold : ∀ (l : List NodeId) (m : ProgressMap),
      j ∈ l.foldl (fun m peer => m.insert peer (Progress.new (last + 1))) m ↔ j ∈ l ∨ j ∈ m := by
    intro l
    induction l with
    | nil => exact fun m => (or_iff_right List.not_mem_nil).symm
    | cons peer l ih =>
      intro m
      rw [List.foldl_cons, ih, AList.mem_insert, List.mem_cons]
      tauto
  have hmem := hfold peers ∅
  rwa [or_iff_left (AList.notMem_empty j)] at hmem

/-- A leader has a quorum of votes and a progress for each peer. -/
theorem RoleState.lead (h : RoleState cfg sm) (last : ℕ) (hrole : sm.role = .candidate)
    (hquorum : cfg.quorum ≤ sm.votesReceived.card) :
    RoleState cfg (sm.becomeLeader cfg.id last cfg.peers) := by
  have hc := h.candidate hrole
  refine ⟨fun _ => ⟨mem_freshProgress last cfg.peers, ?_, hc.vote, hc.members, hc.self, hquorum⟩,
    nofun, nofun⟩
  intro j pr hpr
  rw [(RaftStateMachine.freshProgress_lookup hpr).2]
  exact Nat.succ_pos last

/-- An update keeps the keys. -/
theorem mem_updateProgress (peer : NodeId) (f : Progress → Progress) (sm : RaftStateMachine)
    (j : NodeId) : j ∈ (NodeTurn.updateProgress peer f sm).progress ↔ j ∈ sm.progress := by
  unfold NodeTurn.updateProgress
  cases hp : sm.progress.lookup peer with
  | none => exact Iff.rfl
  | some old =>
    have hmem : peer ∈ sm.progress := AList.lookup_isSome.mp (by rw [hp]; rfl)
    dsimp only
    rw [AList.mem_insert, or_iff_right_of_imp]
    rintro rfl
    exact hmem

/-- A report leaves the peers of a leader as they are. -/
theorem RoleState.progress (h : RoleState cfg sm) (peer : NodeId) {f : Progress → Progress}
    (hrole : sm.role = .leader) (hf : ∀ p, 1 ≤ (f p).nextIndex) :
    RoleState cfg (NodeTurn.updateProgress peer f sm) := by
  have hl := h.leader hrole
  have hkeys := mem_updateProgress peer f sm
  have hlook := @NodeTurn.updateProgress_lookup sm peer
  obtain ⟨m, hm⟩ := NodeTurn.updateProgress_eq peer f sm
  have hnext : ∀ j pr, m.lookup j = some pr → 1 ≤ pr.nextIndex := by
    intro j pr hpr
    rcases hlook (f := f) (j := j) (by rw [hm]; exact hpr) with hold | ⟨-, old, -, rfl⟩
    · exact hl.next j pr hold
    · exact hf old
  rw [hm] at hkeys ⊢
  refine ⟨fun _ => ⟨fun j => (hkeys j).trans (hl.keys j), hnext, hl.vote, hl.members, hl.self,
    hl.quorum⟩, fun hc => ?_, fun hfollow => ?_⟩
  · rw [show sm.role = .candidate from hc] at hrole
    cases hrole
  · rw [show sm.role = .follower from hfollow] at hrole
    cases hrole

/-- Every move keeps the parts. -/
theorem RoleState.move {input : Input} {m m' : Volatile} (hpeer : FromPeer cfg input)
    (hmove : Move cfg input m m') (h : RoleState cfg m.sm) : RoleState cfg m'.sm := by
  cases hmove with
  | note leader commit applied => exact h.note leader commit applied
  | stepDown leader hinput hterm => exact roleState_becomeFollower _ leader
  | grant hinput hterm hfree => exact h.grant hfree
  | stand hinput hrole => exact h.stand hrole
  | count hinput hrole =>
    subst hinput
    exact h.count hrole hpeer
  | lead last hrole hquorum => exact h.lead last hrole hquorum
  | progress peer f hrole hf => exact h.progress peer hrole hf
  | accept index hinput hrole => exact h
  | answer hrole => exact h

/-- **The role and the rest of the Raft state agree in every reachable state**, whatever the
storage does and wherever the process crashes. -/
theorem role_state {σ : Type} [Storage σ] (cfg : RaftConfig) (s : σ)
    (es : List (Input × Option ℕ)) (hpeers : ∀ e ∈ es, FromPeer cfg e.1) :
    RoleState cfg ((Process.boot s).exec cfg es).node.sm := by
  have hboot (s' : σ) : RoleState cfg (Process.boot s').node.volatile.sm := by
    obtain ⟨term, vote, commit, hmem⟩ := Process.boot_volatile s'
    rw [hmem]
    exact ⟨nofun, nofun, fun _ => ⟨rfl, rfl⟩⟩
  exact Process.invariant_of_moves hboot
    (fun _ _ _ hok hmove h => RoleState.move hok hmove h) s es hpeers

/-- An election won after a restart, and a refusal. -/
def restartedElection : List (Input × Option ℕ) :=
  [(.timer true false, some 1), (.timer true false, none),
    (.message (.voteResponse 2 ⟨2, true⟩), none),
    (.message (.appendResponse 3 0 ⟨2, false, 0, 0⟩), none)]

/-- Elected after a restart, node 1 has the state of a leader. -/
theorem role_state_restartedElection :
    ((Process.boot MemStorage.new).exec ⟨1, [2, 3], 100, 300, 600, 128⟩
        restartedElection).node.sm.role = .leader ∧
      RoleState ⟨1, [2, 3], 100, 300, 600, 128⟩
        ((Process.boot MemStorage.new).exec ⟨1, [2, 3], 100, 300, 600, 128⟩
          restartedElection).node.sm :=
  ⟨by decide +kernel, role_state _ MemStorage.new restartedElection (by decide)⟩

end IceRaft
