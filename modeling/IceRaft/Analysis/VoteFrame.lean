import IceRaft.Analysis.TurnFrame

/-!
# The code that leaves the vote alone

Term, vote, role and the votes received change in four places: a step down to a higher
term, a granted vote, the start of an election and the count of a vote.  Everything else
a turn does, over any storage, is quiet: it continues the turn along every relation that
is indifferent to the rest of the node, and has none of the effects that speak of votes
or leadership.
-/

set_option autoImplicit false

namespace IceRaft

/-- Same term, same vote, same role, same votes received. -/
structure SameVote (sm sm' : RaftStateMachine) : Prop where
  currentTerm : sm'.currentTerm = sm.currentTerm
  votedFor : sm'.votedFor = sm.votedFor
  role : sm'.role = sm.role
  votesReceived : sm'.votesReceived = sm.votesReceived

/-- The vote of a state is its own. -/
theorem SameVote.refl (sm : RaftStateMachine) : SameVote sm sm := ⟨rfl, rfl, rfl, rfl⟩

/-- To have the same vote is transitive. -/
theorem SameVote.trans {a b c : RaftStateMachine} (h : SameVote a b) (h' : SameVote b c) :
    SameVote a c :=
  ⟨h'.1.trans h.1, h'.2.trans h.2, h'.3.trans h.3, h'.4.trans h.4⟩

/-- The effects that speak of neither votes nor leadership. -/
def Effect.aside : Effect → Prop
  | .wrote | .accepted _ _ | .answered _ _ | .answeredLeader _ _ | .answeredTerm _ _
  | .applied _ => True
  | .spawned (.requestVote _ _) => False
  | .spawned (.appendEntries _ _ _) | .spawned (.installSnapshot _ _ _) => True
  | .replied (.requestVote _ _) => False
  | .replied (.appendEntries _ _) | .replied (.installSnapshot _ _) => True
  | .electionStarted _ | .becameLeader _ | .restored _ => False

variable {σ : Type} [Storage σ]

/-- A preorder on nodes that only term, vote, role and votes can leave. -/
structure Indifferent (R : RaftNodeInner σ → RaftNodeInner σ → Prop) : Prop where
  refl : ∀ n, R n n
  trans : ∀ {a b c}, R a b → R b c → R a c
  sm : ∀ n sm, SameVote n.sm sm → R n (n.setSm sm)
  rest : ∀ n metrics pending snapshotBuf,
    R n { n with metrics := metrics, pending := pending, snapshotBuf := snapshotBuf }
  firstIndex : ∀ n, R n (n.setStorage (Storage.firstIndex n.storage).2)
  lastIndex : ∀ n, R n (n.setStorage (Storage.lastIndex n.storage).2)
  term : ∀ i n, R n (n.setStorage (Storage.term i n.storage).2)
  entries : ∀ lo hi max n, R n (n.setStorage (Storage.entries lo hi max n.storage).2)
  snapshot : ∀ n, R n (n.setStorage (Storage.snapshot n.storage).2)
  appendEntries : ∀ es n, R n (n.setStorage (Storage.appendEntries es n.storage).2)
  applySnapshot : ∀ snap n, R n (n.setStorage (Storage.applySnapshot snap n.storage).2)
  saveHardState : ∀ n, R n (n.setStorage (Storage.saveHardState n.hardState n.storage).2)

/-- Ordinary work says nothing of votes and leadership. -/
theorem Effect.routine.aside {e : Effect} (he : e.routine) : e.aside := by
  cases e with
  | spawned task => cases task <;> exact he
  | replied reply => cases reply <;> exact he
  | electionStarted _ => exact he
  | becameLeader _ => exact he
  | restored _ => exact he
  | applied _ => exact he.elim
  | _ => trivial

namespace Indifferent

variable {R : RaftNodeInner σ → RaftNodeInner σ → Prop} (hR : Indifferent R)
  {x y z : NodeTurn σ} {cfg : RaftConfig}

/-- Quiet continuations of a turn. -/
abbrev Then (R : RaftNodeInner σ → RaftNodeInner σ → Prop) (x y : NodeTurn σ) : Prop :=
  Turn.Quiet R Effect.aside x y

include hR

/-- Ordinary work can only leave what nobody here asks for. -/
theorem frame : Frame R Effect.aside where
  refl := hR.refl
  trans := hR.trans
  routine _ he := he.aside
  rest := hR.rest
  progress n _ := hR.sm n _ ⟨rfl, rfl, rfl, rfl⟩
  indices n commit applied buf :=
    have hmoved : R n { n with
        sm := { n.sm with commitIndex := commit, lastApplied := applied }, snapshotBuf := buf } :=
      hR.trans (hR.sm n { n.sm with commitIndex := commit, lastApplied := applied }
        ⟨rfl, rfl, rfl, rfl⟩) (hR.rest _ n.metrics n.pending buf)
    hR.trans hmoved (hR.saveHardState _)
  firstIndex := hR.firstIndex
  lastIndex := hR.lastIndex
  term := hR.term
  entries := hR.entries
  snapshot := hR.snapshot
  appendEntries := hR.appendEntries
  applySnapshot := hR.applySnapshot

/-- Code in a row keeps to the side of the vote. -/
theorem next (h : Then R x y) (h' : Then R y z) : Then R x z := h.trans hR.trans h'

/-- An effect beside the vote may go out. -/
theorem emit {e : Effect} (he : e.aside) : Then R x (x.effect e) := .emit hR.refl he

/-- A change that leaves the vote alone keeps to its side. -/
theorem modifySm {f : RaftStateMachine → RaftStateMachine} (hf : SameVote x.sm (f x.sm)) :
    Then R x (x.modifySm f) := .modify (hR.sm _ _ hf)

/-- The counters have nothing to do with the vote. -/
theorem modifyMetrics (f : RaftMetrics → RaftMetrics) : Then R x (x.modifyMetrics f) :=
  hR.frame.modifyMetrics f

/-- Reading the last index leaves the vote alone. -/
theorem lastIndexOr0 (x : NodeTurn σ) : Then R x x.lastIndexOr0.2 := hR.frame.lastIndexOr0 x

/-- Reading a term leaves the vote alone. -/
theorem termOr0 (i : ℕ) (x : NodeTurn σ) : Then R x (x.termOr0 i).2 := hR.frame.termOr0 i x

/-- Saving writes the vote there is. -/
theorem save (x : NodeTurn σ) : Then R x x.saveHardState :=
  hR.frame.changeAndSave id (hR.saveHardState x.node)

/-- Replication to a peer leaves the vote alone. -/
theorem replicateTo (peer : NodeId) (x : NodeTurn σ) : Then R x (x.replicateTo cfg peer) :=
  hR.frame.replicateTo peer x

/-- Replication to all peers leaves the vote alone. -/
theorem replicateAll (x : NodeTurn σ) : Then R x (x.replicateAll cfg) := hR.frame.replicateAll x

/-- The commit step leaves the vote alone. -/
theorem maybeAdvanceCommit (x : NodeTurn σ) : Then R x (x.maybeAdvanceCommit cfg) :=
  hR.frame.maybeAdvanceCommit x

/-- Applying leaves the vote alone. -/
theorem applyCommitted (x : NodeTurn σ) : Then R x x.applyCommitted :=
  hR.frame.applyCommitted (fun n _ => hR.sm n _ ⟨rfl, rfl, rfl, rfl⟩) (fun _ => trivial) x

/-- A proposal leaves the vote alone. -/
theorem onProposal (proposal : Proposal) (x : NodeTurn σ) :
    Then R x (x.onProposal cfg proposal) := hR.frame.onProposal proposal x

end Indifferent

/-- The relation that says nothing. -/
theorem indifferent_true : Indifferent fun _ _ : RaftNodeInner σ => True where
  refl _ := trivial
  trans _ _ := trivial
  sm _ _ _ := trivial
  rest _ _ _ _ := trivial
  firstIndex _ := trivial
  lastIndex _ := trivial
  term _ _ := trivial
  entries _ _ _ _ := trivial
  snapshot _ := trivial
  appendEntries _ _ := trivial
  applySnapshot _ _ := trivial
  saveHardState _ := trivial

/-! ## The four places -/

namespace NodeTurn

omit [Storage σ] in
/-- A change of the Raft state shows nothing. -/
@[simp] theorem modifySm_effects (f : RaftStateMachine → RaftStateMachine) (x : NodeTurn σ) :
    (x.modifySm f).effects = x.effects := rfl

omit [Storage σ] in
/-- A count shows nothing. -/
@[simp] theorem modifyMetrics_effects (f : RaftMetrics → RaftMetrics) (x : NodeTurn σ) :
    (x.modifyMetrics f).effects = x.effects := rfl

/-- Saving is one write. -/
@[simp] theorem saveHardState_effects (x : NodeTurn σ) :
    x.saveHardState.effects = x.effects ++ [.wrote] := by
  unfold saveHardState
  rw [modifyMetrics_effects]
  exact Turn.emit_effects _ _

/-- A granted vote is written before the reply goes out. -/
theorem grant_effects (req : RequestVoteRequest) (x : NodeTurn σ) : (x.grant req).effects =
    x.effects ++ [.wrote] ++ [.replied (.requestVote req (.ok ⟨x.sm.currentTerm, true⟩))] := by
  unfold grant
  rw [Turn.emit_effects, modifyMetrics_effects, saveHardState_effects, modifySm_effects]

/-- What is written is the vote of the request. -/
theorem grant_storage (req : RequestVoteRequest) (x : NodeTurn σ) : (x.grant req).node.storage =
    (Storage.saveHardState ⟨x.sm.currentTerm, req.candidateId, x.sm.commitIndex⟩
      x.node.storage).2 := rfl

/-- The vote of the term is free, or it is the candidate's. -/
theorem alreadyVoted_eq_false {sm : RaftStateMachine} {candidateId : NodeId}
    (h : alreadyVoted sm candidateId = false) :
    sm.votedFor = none ∨ sm.votedFor = some candidateId := by
  unfold alreadyVoted at h
  cases hv : sm.votedFor with
  | none => exact .inl rfl
  | some v => right; simpa [hv] using h

end NodeTurn

namespace Indifferent

variable {R : RaftNodeInner σ → RaftNodeInner σ → Prop} (hR : Indifferent R)
  {cfg : RaftConfig}

include hR

/-- Behind the check on its term, a batch leaves the vote alone. -/
theorem handleAppendEntries (req : AppendEntriesRequest) (x : NodeTurn σ) :
    Then R (x.descend req.term (some req.leaderId)) (x.handleAppendEntries req) := by
  have hheed : Then R (x.descend req.term (some req.leaderId)) (x.heed req) := by
    unfold NodeTurn.heed
    split
    · rename_i hstale
      rw [NodeTurn.descend, if_neg (Nat.not_lt_of_lt hstale)]
      exact .refl hR.refl x
    · exact hR.modifySm ⟨rfl, rfl, rfl, rfl⟩
  exact hR.next hheed (hR.frame.handleAppendEntries req x)

/-- Behind the check on its term, a snapshot leaves the vote alone. -/
theorem handleInstallSnapshot (req : InstallSnapshotRequest) (x : NodeTurn σ) :
    Then R (x.descend req.term (some req.leaderId)) (x.handleInstallSnapshot req) :=
  hR.frame.handleInstallSnapshot req x

/-- Behind the check on its term, a response leaves the vote alone. -/
theorem handleResponse (peer : NodeId) (f : Progress → Progress) (term : ℕ) (x : NodeTurn σ) :
    Then R (x.descend term none) (x.handleResponse cfg peer f term) :=
  hR.frame.handleResponse peer f term x

/-- A vote is asked for in its term, and then refused, or granted where it is free. -/
theorem handleRequestVote (req : RequestVoteRequest) (x : NodeTurn σ) :
    ∃ y, Then R (x.descend req.term none) y ∧
      ((∃ term, x.handleRequestVote req =
          y.effect (.replied (.requestVote req (.ok ⟨term, false⟩)))) ∨
        (y.sm.currentTerm = req.term ∧ NodeTurn.alreadyVoted y.sm req.candidateId = false ∧
          x.handleRequestVote req = y.grant req)) :=
  hR.frame.handleRequestVote req x

end Indifferent

end IceRaft
