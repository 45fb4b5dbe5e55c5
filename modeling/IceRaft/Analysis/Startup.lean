import IceRaft.Analysis.VoteDurability

/-!
# Start-up

`RaftNode::start` returns before its event loop has restored the hard state, and the
three RPC handlers are callable at once.  Until the restore block has run, a handler
works on a zero state.  Each of these pieces of code runs under the mutex, so a start-up
is a list of handlers, the restore block, and a list of handlers again.

SRCLINE: iceraft-node/src/node.rs:76-114, 160-207
-/

set_option autoImplicit false

namespace IceRaft

/-- A call of one of the three RPC handlers. -/
inductive Rpc
  | appendEntries (req : AppendEntriesRequest)
  | requestVote (req : RequestVoteRequest)
  | installSnapshot (req : InstallSnapshotRequest)
  deriving DecidableEq, Repr

/-- The term a request carries. -/
def Rpc.term : Rpc → ℕ
  | .appendEntries req => req.term
  | .requestVote req => req.term
  | .installSnapshot req => req.term

/-- What takes the mutex next. -/
inductive StartupStep
  | restore
  | rpc (call : Rpc)
  deriving DecidableEq, Repr

variable {σ : Type} [Storage σ]

/-- The turn of an RPC handler. -/
def Rpc.turn (call : Rpc) (x : NodeTurn σ) : NodeTurn σ :=
  match call with
  | .appendEntries req => x.handleAppendEntries req
  | .requestVote req => x.handleRequestVote req
  | .installSnapshot req => x.handleInstallSnapshot req

/-- The turn of a step of the start-up. -/
def StartupStep.turn (step : StartupStep) (n : RaftNodeInner σ) : NodeTurn σ :=
  match step with
  | .restore => NodeTurn.restore (Turn.start n)
  | .rpc call => call.turn (Turn.start n)

/-- A node that starts up, with the hard states its storage has held since `start` was
called. -/
structure Startup (σ : Type) where
  node : RaftNodeInner σ
  saved : List HardState

namespace Startup

variable [DurableHardState σ]

open DurableHardState

/-- `start` has returned and nothing has taken the mutex. -/
def init (s : σ) : Startup σ := ⟨.new s, [persisted s]⟩

/-- One step. -/
def step (S : Startup σ) (a : StartupStep) : Startup σ :=
  ⟨(a.turn S.node).node, S.saved ++ [persisted (a.turn S.node).node.storage]⟩

/-- The step lowers no persisted term, and grants no vote in a term below a persisted one
or in a term in which another vote was persisted. -/
def SafeStep (S : Startup σ) (a : StartupStep) : Prop :=
  (persisted S.node.storage).term ≤ (persisted (a.turn S.node).node.storage).term ∧
    ∀ vote ∈ votesCast (a.turn S.node).effects, ∀ hs ∈ S.saved,
      hs.term ≤ vote.1 ∧ (hs.term = vote.1 → hs.vote = 0 ∨ hs.vote = vote.2)

/-- A handler runs on a memory that agrees with the persisted term and vote, or its
request has a higher term than the persisted one, or a lower term than the one in memory
and is refused. -/
def InStep (S : Startup σ) : StartupStep → Prop
  | .restore => True
  | .rpc call => Synced S.node ∨ (persisted S.node.storage).term < call.term ∨
      call.term < S.node.sm.currentTerm

instance (S : Startup σ) (a : StartupStep) : Decidable (S.SafeStep a) :=
  inferInstanceAs (Decidable (_ ∧ ∀ vote ∈ votesCast (a.turn S.node).effects, ∀ hs ∈ S.saved,
      hs.term ≤ vote.1 ∧ (hs.term = vote.1 → hs.vote = 0 ∨ hs.vote = vote.2)))

instance (n : RaftNodeInner σ) : Decidable (Synced n) := inferInstanceAs (Decidable (_ ∧ _))

instance (S : Startup σ) (a : StartupStep) : Decidable (S.InStep a) :=
  match a with
  | .restore => inferInstanceAs (Decidable True)
  | .rpc _ => inferInstanceAs (Decidable (_ ∨ _ ∨ _))

/-! ## What a handler leaves on disk -/

/-- Term and vote `t'`, `v'` come after the persisted `t`, `v`: a higher term, or the same
term with no other vote lost. -/
def Later (t : ℕ) (v : NodeId) (t' : ℕ) (v' : NodeId) : Prop :=
  t < t' ∨ (t = t' ∧ (v = 0 ∨ v = v'))

/-- What a handler does, when it is in step: every vote it grants, and what it leaves on
disk, come after what was persisted before; and it stays in step. -/
structure Advances (n : RaftNodeInner σ) (x : NodeTurn σ) : Prop where
  disk : Later (persisted n.storage).term (persisted n.storage).vote
    (persisted x.node.storage).term (persisted x.node.storage).vote
  votes : ∀ vote ∈ votesCast x.effects,
    Later (persisted n.storage).term (persisted n.storage).vote vote.1 vote.2
  synced : Synced n → Synced x.node

variable {n : RaftNodeInner σ} {x y : NodeTurn σ}

/-- What is known once a handler has looked at the term of its request and gone on: it
has stepped down to a higher term and saved it, or nothing has happened yet. -/
def Entered (n : RaftNodeInner σ) (term : ℕ) (y : NodeTurn σ) : Prop :=
  votesCast y.effects = [] ∧ y.sm.currentTerm = term ∧
    ((Synced y.node ∧ n.sm.currentTerm < term) ∨
      (n.sm.currentTerm = term ∧ VoteSaved n y.node))

/-- Code beside the vote leaves the term entered. -/
theorem Entered.quiet {term : ℕ} (h : Entered n term x) (hxy : Indifferent.Then VoteSaved x y) :
    Entered n term y := by
  obtain ⟨hvotes, hterm, hcases⟩ := h
  refine ⟨(votesCast_quiet hxy).trans hvotes, hxy.node.same.currentTerm.trans hterm, ?_⟩
  rcases hcases with ⟨hs, hlt⟩ | ⟨heq, hsaved⟩
  · exact .inl ⟨hxy.node.synced hs, hlt⟩
  · exact .inr ⟨heq, indifferent_voteSaved.trans hsaved hxy.node⟩

/-- To step down to a term enters it. -/
theorem entered_descend {term : ℕ} (hle : n.sm.currentTerm ≤ term) (leaderId : Option NodeId) :
    Entered n term (NodeTurn.descend term leaderId (Turn.start n)) := by
  unfold NodeTurn.descend
  split
  · rename_i hlt
    refine ⟨rfl, rfl, .inl ⟨⟨?_, ?_⟩, hlt⟩⟩
    · exact congrArg HardState.term (persisted_save _ _)
    · exact congrArg HardState.vote (persisted_save _ _)
  · rename_i hnlt
    have heq : n.sm.currentTerm = term := Nat.le_antisymm hle (Nat.le_of_not_lt hnlt)
    exact ⟨rfl, heq, .inr ⟨heq, indifferent_voteSaved.refl n⟩⟩

/-- A handler that has entered and grants nothing. -/
theorem Entered.advances {term : ℕ} (h : Entered n term x)
    (hin : Synced n ∨ (persisted n.storage).term < term) : Advances n x := by
  obtain ⟨hvotes, hterm, hcases⟩ := h
  have hnone : ∀ vote ∈ votesCast x.effects,
      Later (persisted n.storage).term (persisted n.storage).vote vote.1 vote.2 := by
    rw [hvotes]
    exact nofun
  rcases hcases with ⟨hs, hlt⟩ | ⟨heq, hsaved⟩
  · refine ⟨.inl ?_, hnone, fun _ => hs⟩
    rw [hs.1, hterm]
    rcases hin with hn | hn
    · rw [hn.1]; exact hlt
    · exact hn
  · refine ⟨?_, hnone, hsaved.synced⟩
    rcases hsaved.saved with ⟨ht, hv⟩ | hs
    · exact .inr ⟨ht.symm, .inr hv.symm⟩
    · rcases hin with hn | hn
      · have hs' := hn.sameVote hsaved.same
        refine .inr ⟨?_, .inr ?_⟩
        · rw [hs.1, hn.1, hsaved.same.currentTerm]
        · rw [hs.2, hn.2, hsaved.same.votedFor]
      · refine .inl ?_
        rw [hs.1, hterm]
        exact hn

/-- A handler that has entered and grants its vote. -/
theorem Entered.grant {req : RequestVoteRequest} (h : Entered n req.term y)
    (hin : Synced n ∨ (persisted n.storage).term < req.term)
    (hvoted : NodeTurn.alreadyVoted y.sm req.candidateId = false) :
    Advances n (y.grant req) := by
  obtain ⟨hvotes, hterm, hcases⟩ := h
  have hdisk : Synced (y.grant req).node := by
    refine ⟨?_, ?_⟩
    · rw [NodeTurn.grant_storage, persisted_save]
      rfl
    · rw [NodeTurn.grant_storage, persisted_save]
      rfl
  have hcast : votesCast (y.grant req).effects = [(y.sm.currentTerm, req.candidateId)] := by
    rw [NodeTurn.grant_effects, votesCast_append, votesCast_append, hvotes]
    rfl
  have hlater : Later (persisted n.storage).term (persisted n.storage).vote
      y.sm.currentTerm req.candidateId := by
    rw [hterm]
    rcases hin with hn | hn
    · rcases hcases with ⟨-, hlt⟩ | ⟨heq, hsaved⟩
      · exact .inl (by rw [hn.1]; exact hlt)
      · refine .inr ⟨by rw [hn.1]; exact heq, ?_⟩
        have hvote : y.sm.votedFor = n.sm.votedFor := hsaved.same.votedFor
        rw [hn.2, ← hvote]
        rcases NodeTurn.alreadyVoted_eq_false hvoted with hnone | hsome
        · exact .inl (by rw [hnone]; rfl)
        · exact .inr (by rw [hsome]; rfl)
    · exact .inl hn
  refine ⟨?_, ?_, fun _ => hdisk⟩
  · rw [NodeTurn.grant_storage, persisted_save]
    exact hlater
  · rw [hcast]
    intro vote hv
    rw [List.mem_singleton.mp hv]
    exact hlater

/-- A refused request leaves everything as it is. -/
theorem advances_refused {e : Effect} (he : e.vote? = none) :
    Advances n (NodeTurn.effect e (Turn.start n)) := by
  refine ⟨.inr ⟨rfl, .inr rfl⟩, ?_, id⟩
  have hcast : votesCast (NodeTurn.effect e (Turn.start n)).effects = [] := by
    change votesCast ([] ++ [e]) = []
    rw [votesCast_append, he]
    rfl
  rw [hcast]
  exact nofun

/-- Every handler that is in step advances. -/
theorem advances_rpc (call : Rpc) (hin : Synced n ∨ (persisted n.storage).term < call.term ∨
    call.term < n.sm.currentTerm) : Advances n (call.turn (Turn.start n)) := by
  have hR := indifferent_voteSaved (σ := σ)
  by_cases hstale : call.term < n.sm.currentTerm
  · cases call with
    | appendEntries req =>
      rw [Rpc.turn, NodeTurn.handleAppendEntries_stale hstale]
      exact advances_refused rfl
    | requestVote req =>
      rw [Rpc.turn, NodeTurn.handleRequestVote_stale hstale]
      exact advances_refused rfl
    | installSnapshot req =>
      rw [Rpc.turn, NodeTurn.handleInstallSnapshot_stale hstale]
      exact advances_refused rfl
  · have hle : n.sm.currentTerm ≤ call.term := Nat.le_of_not_lt hstale
    have hin' : Synced n ∨ (persisted n.storage).term < call.term := by
      rcases hin with h | h | h
      · exact .inl h
      · exact .inr h
      · exact absurd h hstale
    cases call with
    | appendEntries req =>
      exact ((entered_descend hle _).quiet (hR.handleAppendEntries req _)).advances hin'
    | installSnapshot req =>
      exact ((entered_descend hle _).quiet (hR.handleInstallSnapshot req _)).advances hin'
    | requestVote req =>
      obtain ⟨y, hxy, ⟨term, heq⟩ | ⟨-, hvoted, heq⟩⟩ := hR.handleRequestVote req (Turn.start n)
      · have hent := (entered_descend hle none).quiet hxy
        rw [Rpc.turn, heq]
        have hcast : votesCast (y.effect (.replied (.requestVote req (.ok ⟨term, false⟩)))).effects
            = votesCast y.effects := by
          rw [Turn.emit_effects, votesCast_append]
          exact List.append_nil _
        exact Entered.advances ⟨hcast.trans hent.1, hent.2⟩ hin'
      · rw [Rpc.turn, heq]
        exact ((entered_descend hle none).quiet hxy).grant hin' hvoted

/-! ## The whole start-up -/

/-- To come later is transitive. -/
theorem Later.trans {t t' t'' : ℕ} {v v' v'' : NodeId} (h : Later t v t' v')
    (h' : Later t' v' t'' v'') : Later t v t'' v'' := by
  unfold Later at *
  rcases h' with hlt' | ⟨rfl, hv'⟩
  · left
    rcases h with hlt | ⟨rfl, -⟩
    · omega
    · exact hlt'
  · rcases h with hlt | ⟨rfl, hv⟩
    · exact .inl hlt
    · right
      refine ⟨rfl, ?_⟩
      rcases hv with hv | rfl
      · exact .inl hv
      · exact hv'

/-- What comes later is of no lower term. -/
theorem Later.le {t t' : ℕ} {v v' : NodeId} (h : Later t v t' v') : t ≤ t' := by
  rcases h with hlt | ⟨rfl, -⟩
  · omega
  · exact Nat.le_refl t

/-- Whatever the storage has held, what it holds now comes after it. -/
def Ordered (S : Startup σ) : Prop :=
  ∀ hs ∈ S.saved, Later hs.term hs.vote (persisted S.node.storage).term
    (persisted S.node.storage).vote

variable {S : Startup σ} {a : StartupStep}

/-- At the start the disk has held one state. -/
theorem ordered_init (s : σ) : Ordered (init s) := by
  intro hs hmem
  rw [List.mem_singleton.mp hmem]
  exact .inr ⟨rfl, .inr rfl⟩

/-- A handler in step keeps the order of what the disk holds. -/
theorem Ordered.step (h : Ordered S) (ha : Advances S.node (a.turn S.node)) :
    Ordered (S.step a) := by
  intro hs hmem
  rcases List.mem_append.mp hmem with hmem | hmem
  · exact (h hs hmem).trans ha.disk
  · rw [List.mem_singleton.mp hmem]
    exact .inr ⟨rfl, .inr rfl⟩

/-- In this order no vote is given twice and no term goes back. -/
theorem Ordered.safe (h : Ordered S) (ha : Advances S.node (a.turn S.node)) : S.SafeStep a := by
  refine ⟨ha.disk.le, ?_⟩
  intro vote hv hs hmem
  have hlater := (h hs hmem).trans (ha.votes vote hv)
  refine ⟨hlater.le, ?_⟩
  intro heq
  rcases hlater with hlt | ⟨-, hvote⟩
  · omega
  · exact hvote

/-- The restore block writes nothing, grants nothing and leaves memory in step. -/
theorem advances_restore (n : RaftNodeInner σ) :
    Advances n (StartupStep.restore.turn n) ∧ Synced (StartupStep.restore.turn n).node := by
  obtain ⟨hterm, hvote, hstorage, c, heffs⟩ := restore_spec n
  have hsynced : Synced (StartupStep.restore.turn n).node := by
    refine ⟨?_, ?_⟩
    · change (persisted (NodeTurn.restore (Turn.start n)).node.storage).term = _
      rw [hstorage, persisted_load]
      exact hterm.symm
    · change (persisted (NodeTurn.restore (Turn.start n)).node.storage).vote = _
      rw [hstorage, persisted_load]
      change _ = (NodeTurn.restore (Turn.start n)).sm.votedFor.getD 0
      rw [hvote]
      split
      · assumption
      · rfl
  refine ⟨⟨.inr ?_, ?_, fun _ => hsynced⟩, hsynced⟩
  · change _ = (persisted (NodeTurn.restore (Turn.start n)).node.storage).term ∧
      (_ ∨ _ = (persisted (NodeTurn.restore (Turn.start n)).node.storage).vote)
    rw [hstorage, persisted_load]
    exact ⟨rfl, .inr rfl⟩
  · change ∀ vote ∈ votesCast (NodeTurn.restore (Turn.start n)).effects, _
    rw [heffs]
    exact nofun

/-- Once the restore block has run, every handler is in step. -/
theorem within_after_restore (after : List Rpc) (ho : Ordered S) (hs : Synced S.node) :
    Runs.Within step SafeStep S (after.map .rpc) := by
  induction after generalizing S with
  | nil => trivial
  | cons call after ih =>
    have ha : Advances S.node (call.turn (Turn.start S.node)) := advances_rpc call (.inl hs)
    exact ⟨ho.safe ha, ih (ho.step (a := .rpc call) ha) (ha.synced hs)⟩

/-- **Start-up.**  Over any storage that persists the hard state, whatever it holds, and
for any handlers before and after the restore block: as long as those before it are in
step, no step lowers the persisted term or grants a vote against a persisted one. -/
theorem startup_safe (s : σ) (before after : List Rpc)
    (h : Runs.Within step InStep (init s) (before.map .rpc)) :
    Runs.Within step SafeStep (init s) (before.map .rpc ++ .restore :: after.map .rpc) := by
  revert h
  suffices hbefore : ∀ S : Startup σ, Ordered S → Runs.Within step InStep S (before.map .rpc) →
      Runs.Within step SafeStep S (before.map .rpc ++ .restore :: after.map .rpc) from
    hbefore (init s) (ordered_init s)
  induction before with
  | nil =>
    intro S ho _
    obtain ⟨ha, hs⟩ := advances_restore S.node
    exact ⟨ho.safe ha, within_after_restore after (ho.step ha) hs⟩
  | cons call before ih =>
    intro S ho hin
    have ha : Advances S.node (call.turn (Turn.start S.node)) := advances_rpc call hin.1
    exact ⟨ho.safe (a := .rpc call) ha, ih _ (ho.step (a := .rpc call) ha) hin.2⟩

/-- A vote of term 6 before the restore block of a node that had voted in term 5. -/
theorem startup_safe_higher_term :
    Runs.Within step SafeStep (init { hardState := ⟨5, 2, 0⟩ : MemStorage })
      ([.requestVote ⟨6, 3, 0, 0, false⟩].map .rpc ++ .restore ::
        [.requestVote ⟨6, 2, 0, 0, false⟩].map .rpc) :=
  startup_safe _ _ _ (by decide +kernel)

/-- A node that had voted for 2 in term 5 is asked for a vote of term 1 before its restore
block: it grants it, and term 1 replaces term 5 on disk. -/
theorem startup_unsafe :
    ¬ Runs.Within step SafeStep (init { hardState := ⟨5, 2, 0⟩ : MemStorage })
        ([.requestVote ⟨1, 3, 0, 0, false⟩].map .rpc ++ .restore :: []) ∧
      persisted ((Runs.exec step (init { hardState := ⟨5, 2, 0⟩ : MemStorage })
        [.rpc (.requestVote ⟨1, 3, 0, 0, false⟩)]).node.storage) = ⟨1, 3, 0⟩ := by
  decide +kernel

end Startup

end IceRaft
