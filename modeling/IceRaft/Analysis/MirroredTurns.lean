import IceRaft.Analysis.PureReads
import IceRaft.Analysis.TurnFrame
import IceRaft.Interface.StorageContract
import IceRaft.Model.EventLoop

/-!
# Turns over two storages side by side

A storage may be seen through a map into another one.  As long as the other one answers every
call as the first does, and moves to the state the map shows, a turn of a node over the first
has a turn over the second beside it: the same effects, and the node seen through the map.
Reads of ranges are not part of this; the one call of `replicate_to` is compared where it is
made.
-/

set_option autoImplicit false

namespace IceRaft

variable {σ τ : Type} {α β : Type}

/-- The node with its storage seen through `f`. -/
def RaftNodeInner.mapStorage (f : σ → τ) (n : RaftNodeInner σ) : RaftNodeInner τ :=
  ⟨n.sm, f n.storage, n.metrics, n.pending, n.snapshotBuf⟩

/-- The outcome `r'` of a call is that of `r`, and its state is the one `f` shows. -/
structure AnswersAlike (f : σ → τ) (ok : σ → Prop) (r : Except RaftError α × σ)
    (r' : Except RaftError α × τ) : Prop where
  result : r'.1 = r.1
  state : r'.2 = f r.2
  ok : ok r.2

/-- A save is answered alike. -/
def SavesAlike [Storage σ] [Storage τ] (f : σ → τ) (ok : σ → Prop) : Prop :=
  ∀ hs s, ok s → AnswersAlike f ok (Storage.saveHardState hs s) (Storage.saveHardState hs (f s))

/-- As long as `ok` holds, every call but a read of a range and the installation of a snapshot
is answered alike, and `ok` goes on holding. -/
structure CallsAlike [Storage σ] [Storage τ] (f : σ → τ) (ok : σ → Prop) : Prop where
  save : SavesAlike f ok
  firstIndex : ∀ s, ok s → AnswersAlike f ok (Storage.firstIndex s) (Storage.firstIndex (f s))
  lastIndex : ∀ s, ok s → AnswersAlike f ok (Storage.lastIndex s) (Storage.lastIndex (f s))
  term : ∀ i s, ok s → AnswersAlike f ok (Storage.term i s) (Storage.term i (f s))
  append : ∀ es s, ok s →
    AnswersAlike f ok (Storage.appendEntries es s) (Storage.appendEntries es (f s))
  snapshot : ∀ s, ok s → AnswersAlike f ok (Storage.snapshot s) (Storage.snapshot (f s))

/-- The turn `y` shows what `x` does, through `f`. -/
structure Beside (f : σ → τ) (ok : σ → Prop) (x : NodeTurn σ) (y : NodeTurn τ) : Prop where
  node : y.node = x.node.mapStorage f
  effects : y.effects = x.effects
  ok : ok x.node.storage

/-- Two results with the turns that led to them. -/
structure BesideWith (f : σ → τ) (ok : σ → Prop) (r : β × NodeTurn σ) (r' : β × NodeTurn τ) :
    Prop where
  value : r'.1 = r.1
  turn : Beside f ok r.2 r'.2

/-- The two results, with their one value. -/
theorem BesideWith.pairs {f : σ → τ} {ok : σ → Prop} {r : β × NodeTurn σ} {r' : β × NodeTurn τ}
    (h : BesideWith f ok r r') :
    ∃ v x y, r = (v, x) ∧ r' = (v, y) ∧ Beside f ok x y :=
  ⟨r.1, r.2, r'.2, rfl, Prod.ext h.value rfl, h.turn⟩

namespace Beside

open NodeTurn

variable {f : σ → τ} {ok : σ → Prop} {x : NodeTurn σ} {y : NodeTurn τ}

/-- Two turns begin side by side. -/
theorem start {n : RaftNodeInner σ} (h : ok n.storage) :
    Beside f ok (Turn.start n) (Turn.start (n.mapStorage f)) := ⟨rfl, rfl, h⟩

/-- The two have the same Raft state. -/
theorem sm (h : Beside f ok x y) : y.sm = x.sm := by
  unfold NodeTurn.sm
  rw [h.node]
  rfl

/-- Less may be asked of the storage. -/
theorem weaken {ok' : σ → Prop} (h : Beside f ok x y) (himp : ∀ s, ok s → ok' s) :
    Beside f ok' x y := ⟨h.node, h.effects, himp _ h.ok⟩

/-- A change that leaves the storage alone. -/
theorem update (h : Beside f ok x y) {g : RaftNodeInner σ → RaftNodeInner σ}
    {g' : RaftNodeInner τ → RaftNodeInner τ}
    (hg : g' (x.node.mapStorage f) = (g x.node).mapStorage f)
    (hkeep : (g x.node).storage = x.node.storage) : Beside f ok (x.update g) (y.update g') := by
  refine ⟨?_, h.effects, ?_⟩
  · show g' y.node = (g x.node).mapStorage f
    rw [h.node, hg]
  · show ok (g x.node).storage
    rw [hkeep]
    exact h.ok

/-- A change of the Raft state is the same on both. -/
theorem modifySm (h : Beside f ok x y) (g : RaftStateMachine → RaftStateMachine) :
    Beside f ok (x.modifySm g) (y.modifySm g) := by
  unfold NodeTurn.modifySm
  exact h.update rfl rfl

/-- A count is the same on both. -/
theorem modifyMetrics (h : Beside f ok x y) (g : RaftMetrics → RaftMetrics) :
    Beside f ok (x.modifyMetrics g) (y.modifyMetrics g) := by
  unfold NodeTurn.modifyMetrics
  exact h.update rfl rfl

/-- An effect. -/
theorem effect (h : Beside f ok x y) (e : Effect) : Beside f ok (x.effect e) (y.effect e) := by
  refine ⟨h.node, ?_, h.ok⟩
  rw [Turn.emit_effects, Turn.emit_effects, h.effects]

/-- A storage call that reads. -/
theorem read {ok' : σ → Prop} {op : σ → Except RaftError α × σ} {op' : τ → Except RaftError α × τ}
    (h : Beside f ok x y)
    (ha : AnswersAlike f ok' (op x.node.storage) (op' (f x.node.storage))) :
    BesideWith f ok' (x.read op) (y.read op') := by
  have hstorage : y.node.storage = f x.node.storage := by
    rw [h.node]
    rfl
  refine ⟨?_, ?_, h.effects, ha.ok⟩
  · show (op' y.node.storage).1 = _
    rw [hstorage]
    exact ha.result
  · show { y.node with storage := (op' y.node.storage).2 } = _
    rw [hstorage, ha.state, h.node]
    rfl

/-- A storage call that writes. -/
theorem write {ok' : σ → Prop} {op : σ → Except RaftError α × σ}
    {op' : τ → Except RaftError α × τ} (h : Beside f ok x y)
    (ha : AnswersAlike f ok' (op x.node.storage) (op' (f x.node.storage))) :
    BesideWith f ok' (x.write op) (y.write op') :=
  ⟨(h.read ha).value, (h.read ha).turn.effect .wrote⟩

variable [Storage σ] [Storage τ]

/-! ## Helpers -/

/-- What both save is the same, where the disks save alike. -/
theorem saveHardState (h : Beside f ok x y) (hsave : SavesAlike f ok) :
    Beside f ok x.saveHardState y.saveHardState := by
  unfold NodeTurn.saveHardState
  rw [h.sm]
  exact (h.write (hsave _ _ h.ok)).turn.modifyMetrics _

/-- Both step down alike. -/
theorem stepDown (h : Beside f ok x y) (hsave : SavesAlike f ok) (term : ℕ)
    (leaderId : Option NodeId) :
    Beside f ok (x.stepDown term leaderId) (y.stepDown term leaderId) :=
  (h.modifySm _).saveHardState hsave

/-- Both step down for the same terms. -/
theorem descend (h : Beside f ok x y) (hsave : SavesAlike f ok) (term : ℕ)
    (leaderId : Option NodeId) :
    Beside f ok (x.descend term leaderId) (y.descend term leaderId) := by
  unfold NodeTurn.descend
  rw [h.sm]
  split
  · exact h.stepDown hsave term leaderId
  · exact h

variable (hm : CallsAlike f ok)
include hm

/-- Both read the same last index. -/
theorem lastIndexOr0 (h : Beside f ok x y) : BesideWith f ok x.lastIndexOr0 y.lastIndexOr0 := by
  obtain ⟨hvalue, hturn⟩ := h.read (hm.lastIndex _ h.ok)
  exact ⟨congrArg (unwrapOr · 0) hvalue, hturn⟩

/-- Both read the same term. -/
theorem termOr0 (h : Beside f ok x y) (i : ℕ) : BesideWith f ok (x.termOr0 i) (y.termOr0 i) := by
  unfold NodeTurn.termOr0
  split
  · obtain ⟨hvalue, hturn⟩ := h.read (hm.term i _ h.ok)
    exact ⟨congrArg (unwrapOr · 0) hvalue, hturn⟩
  · exact ⟨rfl, h⟩

/-- The loop of the search, pass by pass. -/
theorem searchTerm (term fuel : ℕ) {lo hi : ℕ} {x : NodeTurn σ} {y : NodeTurn τ}
    (h : Beside f ok x y) :
    BesideWith f ok (x.searchTerm term fuel lo hi) (y.searchTerm term fuel lo hi) := by
  induction fuel generalizing lo hi x y with
  | zero => exact ⟨rfl, h⟩
  | succ fuel ih =>
    unfold NodeTurn.searchTerm
    split
    · obtain ⟨v, z, z', hr, hr', hturn⟩ := (h.read (hm.term (lo + (hi - lo) / 2) _ h.ok)).pairs
      dsimp only
      rw [hr, hr']
      cases v with
      | error e => exact ih hturn
      | ok t =>
        dsimp only
        split
        · exact ih hturn
        · exact ih hturn
    · exact ⟨rfl, h⟩

/-- Both find the same first index of a term. -/
theorem firstIndexOfTerm (h : Beside f ok x y) (term upper : ℕ) :
    BesideWith f ok (x.firstIndexOfTerm term upper) (y.firstIndexOfTerm term upper) := by
  obtain ⟨hvalue, hturn⟩ := h.read (hm.firstIndex _ h.ok)
  unfold NodeTurn.firstIndexOfTerm
  dsimp only
  rw [hvalue]
  exact searchTerm hm term _ hturn

/-! ## RPC handlers -/

/-- Both give the same verdict on the previous entry. -/
theorem checkPrevLog (h : Beside f ok x y) (req : AppendEntriesRequest) :
    BesideWith f ok (x.checkPrevLog req) (y.checkPrevLog req) := by
  unfold NodeTurn.checkPrevLog
  split
  · obtain ⟨v, z, z', hr, hr', hturn⟩ := (h.read (hm.term req.prevLogIndex _ h.ok)).pairs
    rw [hr, hr']
    cases v with
    | ok t =>
      dsimp only
      split
      · obtain ⟨hindex, hsearched⟩ := hturn.firstIndexOfTerm hm t req.prevLogIndex
        refine ⟨?_, hsearched⟩
        dsimp only
        rw [hindex, hsearched.sm]
      · exact ⟨rfl, hturn⟩
    | error e =>
      have hsm := hturn.sm
      cases e with
      | logCompacted r f => exact ⟨rfl, hturn⟩
      | _ => exact ⟨by dsimp only at hsm ⊢; rw [hsm], hturn⟩
  · exact ⟨rfl, h⟩

/-- Both append the same batch with the same outcome. -/
theorem appendBatch (h : Beside f ok x y) (req : AppendEntriesRequest) :
    BesideWith f ok (x.appendBatch req) (y.appendBatch req) := by
  unfold NodeTurn.appendBatch
  split
  · exact ⟨rfl, h⟩
  · exact h.write (hm.append _ _ h.ok)

/-- Both follow the same commit index. -/
theorem advanceCommit (h : Beside f ok x y) (req : AppendEntriesRequest) :
    Beside f ok (x.advanceCommit req) (y.advanceCommit req) := by
  unfold NodeTurn.advanceCommit
  rw [h.sm]
  split
  · obtain ⟨hvalue, hturn⟩ := h.lastIndexOr0 hm
    dsimp only
    rw [hvalue]
    exact (hturn.modifySm _).saveHardState hm.save
  · exact h

/-- An AppendEntries request is handled alike. -/
theorem onAppendEntries (h : Beside f ok x y) (req : AppendEntriesRequest) :
    BesideWith f ok (x.onAppendEntries req) (y.onAppendEntries req) := by
  have hdescend := h.descend hm.save req.term (some req.leaderId)
  unfold NodeTurn.onAppendEntries
  dsimp only
  rw [← NodeTurn.descend, ← NodeTurn.descend, hdescend.sm]
  split
  · exact ⟨rfl, hdescend⟩
  · have hheeded := hdescend.modifySm fun sm => { sm with leaderId := some req.leaderId }
    obtain ⟨v, z, z', hr, hr', hturn⟩ := (hheeded.checkPrevLog hm req).pairs
    rw [hr, hr']
    cases v with
    | some resp => exact ⟨rfl, hturn⟩
    | none =>
      obtain ⟨v, w, w', hr, hr', hturn⟩ := (hturn.appendBatch hm req).pairs
      dsimp only
      rw [hr, hr']
      cases v with
      | error e => exact ⟨rfl, hturn⟩
      | ok u =>
        have hdone := (hturn.advanceCommit hm req).modifyMetrics fun m =>
          { m with appendEntriesReceived := m.appendEntriesReceived + 1 }
        exact ⟨by dsimp only; rw [hdone.sm], hdone⟩

omit hm in
/-- An InstallSnapshot request is handled alike where the installation itself is. -/
theorem onInstallSnapshot {ok' : σ → Prop} (h : Beside f ok x y) (hsave : SavesAlike f ok)
    (hsave' : SavesAlike f ok') (hweaken : ∀ s, ok s → ok' s) (req : InstallSnapshotRequest)
    (happly : ∀ (snap : Snapshot) s, ok s → snap.metadata.lastIncludedIndex =
      (x.node.snapshotBuf.getD (⟨req.lastIncludedIndex, req.lastIncludedTerm, []⟩, [])).1.index →
      AnswersAlike f ok' (Storage.applySnapshot snap s) (Storage.applySnapshot snap (f s))) :
    BesideWith f ok' (x.onInstallSnapshot req) (y.onInstallSnapshot req) := by
  have hdescend := h.descend hsave req.term (some req.leaderId)
  have hkept : (x.descend req.term (some req.leaderId)).node.snapshotBuf = x.node.snapshotBuf :=
    descend_snapshotBuf _ _ x
  unfold NodeTurn.onInstallSnapshot
  dsimp only
  rw [← NodeTurn.descend, ← NodeTurn.descend, hdescend.sm]
  generalize x.descend req.term (some req.leaderId) = z at hdescend hkept
  generalize y.descend req.term (some req.leaderId) = z' at hdescend
  have hbuf : z'.node.snapshotBuf = z.node.snapshotBuf := by
    rw [hdescend.node]
    rfl
  split
  · exact ⟨rfl, hdescend.weaken hweaken⟩
  · rw [hbuf, hkept]
    generalize x.node.snapshotBuf.getD _ = buf at happly ⊢
    have hextended : Beside f ok
        (z.update fun n => { n with snapshotBuf := some (buf.1, buf.2 ++ req.data) })
        (z'.update fun n => { n with snapshotBuf := some (buf.1, buf.2 ++ req.data) }) :=
      hdescend.update rfl rfl
    split
    · obtain ⟨v, w, w', hr, hr', hturn⟩ := (hextended.write
        (happly ⟨buf.2 ++ req.data, ⟨buf.1.index, buf.1.term, buf.1.confNodes⟩⟩ _ hextended.ok
          rfl)).pairs
      rw [hr, hr']
      cases v with
      | error e => exact ⟨rfl, hturn⟩
      | ok u =>
        have hcleared : Beside f ok'
            ((w.modifySm fun sm =>
              { sm with
                commitIndex := max sm.commitIndex req.lastIncludedIndex,
                lastApplied := max sm.lastApplied req.lastIncludedIndex }).update
              fun n => { n with snapshotBuf := none })
            ((w'.modifySm fun sm =>
              { sm with
                commitIndex := max sm.commitIndex req.lastIncludedIndex,
                lastApplied := max sm.lastApplied req.lastIncludedIndex }).update
              fun n => { n with snapshotBuf := none }) :=
          (hturn.modifySm _).update rfl rfl
        have hdone := (hcleared.saveHardState hsave').modifyMetrics fun m =>
          { m with snapshotsInstalled := m.snapshotsInstalled + 1 }
        exact ⟨by dsimp only; rw [hdone.sm], hdone⟩
    · exact ⟨by dsimp only; rw [hextended.sm], hextended.weaken hweaken⟩

/-! ## Replication -/

/-- Both send the same snapshot. -/
theorem sendSnapshotTo (h : Beside f ok x y) (cfg : RaftConfig) (peer : NodeId) :
    Beside f ok (x.sendSnapshotTo cfg peer) (y.sendSnapshotTo cfg peer) := by
  obtain ⟨v, z, z', hr, hr', hturn⟩ := (h.read (hm.snapshot _ h.ok)).pairs
  unfold NodeTurn.sendSnapshotTo
  rw [hr, hr']
  cases v with
  | error e => exact hturn
  | ok snap =>
    cases snap with
    | none => exact hturn
    | some snap =>
      dsimp only
      rw [hturn.sm]
      exact hturn.effect _

omit [Storage σ] [Storage τ] hm in
/-- Both send the same batch. -/
theorem sendAppend (h : Beside f ok x y) (cfg : RaftConfig) (peer : NodeId) (prev term : ℕ)
    (es : List ProtoEntry) :
    Beside f ok (x.sendAppend cfg peer prev term es) (y.sendAppend cfg peer prev term es) := by
  unfold NodeTurn.sendAppend
  rw [h.sm]
  exact h.effect _

/-- `replicate_to` sends alike where the range it reads is read alike. -/
theorem replicateTo [PureReads σ] (h : Beside f ok x y) (cfg : RaftConfig) (peer : NodeId)
    (hread : ∀ pr, x.sm.progress.lookup peer = some pr → pr.nextIndex ≤ x.lastIndexOr0.1 →
      AnswersAlike f ok
        (Storage.entries pr.nextIndex (x.lastIndexOr0.1 + 1) (some (cfg.maxAppendEntries * 4096))
          x.node.storage)
        (Storage.entries pr.nextIndex (x.lastIndexOr0.1 + 1) (some (cfg.maxAppendEntries * 4096))
          (f x.node.storage))) :
    Beside f ok (x.replicateTo cfg peer) (y.replicateTo cfg peer) := by
  unfold NodeTurn.replicateTo
  rw [h.sm]
  cases hpr : x.sm.progress.lookup peer with
  | none => exact h
  | some pr =>
    obtain ⟨t, z, z', ht, ht', htermed⟩ := (h.termOr0 hm (u64Sub pr.nextIndex 1)).pairs
    obtain rfl : z = x := by rw [← termOr0_pure (u64Sub pr.nextIndex 1) x, ht]
    obtain ⟨last, w, w', hl, hl', hasked⟩ := (htermed.lastIndexOr0 hm).pairs
    obtain rfl : w = z := by rw [← lastIndexOr0_pure z, hl]
    rw [hl] at hread
    dsimp only at hread ⊢
    rw [ht, ht']
    dsimp only
    rw [hl, hl']
    dsimp only
    split
    · rename_i hle
      obtain ⟨v, u, u', hv, hv', hturn⟩ := (hasked.read (hread pr hpr hle)).pairs
      rw [hv, hv']
      cases v with
      | ok es => exact hturn.sendAppend cfg peer _ t _
      | error e =>
        cases e with
        | logCompacted r f => exact hturn.sendSnapshotTo hm cfg peer
        | _ => exact hturn
    · exact hasked.sendAppend cfg peer _ t []

/-! ## Responses -/

/-- The commit loop, pass by pass. -/
theorem commitScan (cfg : RaftConfig) (n : ℕ) {x : NodeTurn σ} {y : NodeTurn τ}
    (h : Beside f ok x y) : BesideWith f ok (x.commitScan cfg n) (y.commitScan cfg n) := by
  induction n generalizing x y with
  | zero => exact ⟨congrArg RaftStateMachine.commitIndex h.sm, h⟩
  | succ n ih =>
    obtain ⟨v, z, z', hr, hr', hturn⟩ := (h.read (hm.term (n + 1) _ h.ok)).pairs
    unfold NodeTurn.commitScan
    rw [h.sm]
    split
    · dsimp only
      rw [hr, hr']
      dsimp only
      rw [hturn.sm]
      split
      · exact ⟨rfl, hturn⟩
      · exact ih hturn
    · exact ⟨rfl, h⟩

omit [Storage σ] [Storage τ] hm in
/-- Both answer the same callers. -/
theorem notifyPending (h : Beside f ok x y) : Beside f ok x.notifyPending y.notifyPending := by
  have hpending : y.node.pending = x.node.pending := by
    rw [h.node]
    rfl
  unfold NodeTurn.notifyPending
  dsimp only
  rw [h.sm, hpending]
  generalize x.node.pending = waiting
  have hcleared : Beside f ok (x.update fun n => { n with pending := [] })
      (y.update fun n => { n with pending := [] }) := h.update rfl rfl
  generalize x.update _ = z at hcleared ⊢
  generalize y.update _ = z' at hcleared ⊢
  induction waiting generalizing z z' with
  | nil => exact hcleared
  | cons w waiting ih =>
    refine ih _ _ ?_
    unfold notifyOne
    split
    · exact hcleared.effect _
    · refine hcleared.update ?_ rfl
      rfl

/-- Both commit the same index. -/
theorem maybeAdvanceCommit (h : Beside f ok x y) (cfg : RaftConfig) :
    Beside f ok (x.maybeAdvanceCommit cfg) (y.maybeAdvanceCommit cfg) := by
  unfold NodeTurn.maybeAdvanceCommit
  rw [h.sm]
  split
  · exact h
  · obtain ⟨last, z, z', hr, hr', hturn⟩ := (h.lastIndexOr0 hm).pairs
    dsimp only
    rw [hr, hr']
    obtain ⟨commit, w, w', hr, hr', hturn⟩ := (commitScan hm cfg last hturn).pairs
    dsimp only
    rw [hr, hr']
    dsimp only
    rw [hturn.sm]
    split
    · have hsaved := (hturn.modifySm fun sm => { sm with commitIndex := commit }).saveHardState
        hm.save
      rw [hsaved.sm]
      exact (hsaved.modifyMetrics _).notifyPending
    · exact hturn.notifyPending

/-- Both take a response to a batch alike. -/
theorem handleAppendResponse (h : Beside f ok x y) (cfg : RaftConfig) (peer : NodeId) (last : ℕ)
    (resp : AppendEntriesResponse) : Beside f ok (x.handleAppendResponse cfg peer last resp)
      (y.handleAppendResponse cfg peer last resp) := by
  unfold NodeTurn.handleAppendResponse
  rw [h.sm]
  split
  · exact h.stepDown hm.save resp.term none
  · split
    · exact h
    · exact (h.modifySm _).maybeAdvanceCommit hm cfg

/-- Both take a response to a snapshot alike. -/
theorem handleSnapshotResponse (h : Beside f ok x y) (cfg : RaftConfig) (peer : NodeId)
    (last : ℕ) (resp : InstallSnapshotResponse) :
    Beside f ok (x.handleSnapshotResponse cfg peer last resp)
      (y.handleSnapshotResponse cfg peer last resp) := by
  unfold NodeTurn.handleSnapshotResponse
  rw [h.sm]
  split
  · exact h.stepDown hm.save resp.term none
  · split
    · exact h
    · exact (h.modifySm _).maybeAdvanceCommit hm cfg

end Beside

end IceRaft
