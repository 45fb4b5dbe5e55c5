import IceRaft.Analysis.FollowerTurns
import IceRaft.Analysis.PersistBeforeReply
import IceRaft.Interface.ProbedStorage
import IceRaft.Lib.Runs

/-!
# Snapshots on their way to a follower

The handler appends every accepted chunk to the buffer, whatever its offset, and takes the
index and the term of the snapshot from the first of them.  A failed `apply_snapshot` leaves
the buffer behind.  The wire carries no cluster membership.
-/

set_option autoImplicit false

namespace IceRaft

open NodeTurn RaftNodeInner

variable {σ : Type} [Storage σ]

/-! ## One chunk -/

/-- The node after a chunk. -/
abbrev afterChunk (req : InstallSnapshotRequest) (n : RaftNodeInner σ) : RaftNodeInner σ :=
  (onInstallSnapshot req (Turn.start n)).2.node

/-- The reply to a chunk. -/
abbrev chunkReply (req : InstallSnapshotRequest) (n : RaftNodeInner σ) :
    Except RaftError InstallSnapshotResponse := (onInstallSnapshot req (Turn.start n)).1

/-- The storage takes the snapshot that a chunk completes. -/
def Installs (req : InstallSnapshotRequest) (n : RaftNodeInner σ) : Prop :=
  (Storage.applySnapshot (n.assembled req) (entered n req.term)).1 = .ok ()

instance (req : InstallSnapshotRequest) (n : RaftNodeInner σ) : Decidable (Installs req n) :=
  inferInstanceAs (Decidable (_ = Except.ok ()))

/-- The outcome of the storage is that of the snapshot put together. -/
theorem applyOutcome_start (req : InstallSnapshotRequest) (n : RaftNodeInner σ) :
    applyOutcome req (Turn.start n) =
      Storage.applySnapshot (n.assembled req) (entered n req.term) := by
  unfold applyOutcome recogniseSnapshot
  rw [(descend_entered req.term (some req.leaderId) (Turn.start n)).1]
  rfl

/-- The four things a chunk can do. -/
theorem afterChunk_cases (req : InstallSnapshotRequest) (n : RaftNodeInner σ) :
    (req.term < n.sm.currentTerm ∧ chunkReply req n = .ok ⟨n.sm.currentTerm⟩ ∧
      afterChunk req n = n) ∨
    (n.sm.currentTerm ≤ req.term ∧ req.done = false ∧ chunkReply req n = .ok ⟨req.term⟩ ∧
      (afterChunk req n).snapshotBuf = some (n.extendedBuffer req) ∧
      (afterChunk req n).storage = entered n req.term) ∨
    (n.sm.currentTerm ≤ req.term ∧ req.done = true ∧ ¬ Installs req n ∧
      (∃ e, chunkReply req n = .error e) ∧
      (afterChunk req n).snapshotBuf = some (n.extendedBuffer req) ∧
      (afterChunk req n).storage =
        (Storage.applySnapshot (n.assembled req) (entered n req.term)).2) ∨
    (n.sm.currentTerm ≤ req.term ∧ req.done = true ∧ Installs req n ∧
      chunkReply req n = .ok ⟨req.term⟩ ∧ (afterChunk req n).snapshotBuf = none ∧
      (afterChunk req n).sm.commitIndex = max n.sm.commitIndex req.lastIncludedIndex ∧
      (afterChunk req n).sm.lastApplied = max n.sm.lastApplied req.lastIncludedIndex ∧
      (afterChunk req n).storage = (Storage.saveHardState (afterChunk req n).hardState
        (Storage.applySnapshot (n.assembled req) (entered n req.term)).2).2) := by
  by_cases hterm : n.sm.currentTerm ≤ req.term
  · right
    have houtcome := applyOutcome_start req n
    cases hdone : req.done with
    | false =>
      obtain ⟨hreply, hnode⟩ := onInstallSnapshot_buffered (x := Turn.start n) hterm hdone
      refine .inl ⟨hterm, rfl, hreply, ?_, ?_⟩
      · unfold afterChunk
        rw [hnode]
        rfl
      · unfold afterChunk
        rw [hnode]
        exact (descend_entered req.term (some req.leaderId) (Turn.start n)).1
    | true =>
      right
      cases hcall : (Storage.applySnapshot (n.assembled req) (entered n req.term)).1 with
      | error e =>
        obtain ⟨hreply, hnode⟩ := onInstallSnapshot_failed (x := Turn.start n) hterm hdone
          (by rw [houtcome]; exact hcall)
        refine .inl ⟨hterm, rfl, ?_, ⟨e, hreply⟩, ?_, ?_⟩
        · intro hinstalls
          rw [Installs, hcall] at hinstalls
          cases hinstalls
        · unfold afterChunk
          rw [hnode]
          rfl
        · unfold afterChunk
          rw [hnode, ← houtcome]
      | ok u =>
        obtain ⟨hreply, hsm, hbuf, hstorage⟩ :=
          onInstallSnapshot_installed (x := Turn.start n) hterm hdone
            (by rw [houtcome]; exact hcall)
        rw [houtcome] at hstorage
        refine .inr ⟨hterm, rfl, hcall, hreply, hbuf, ?_, ?_, hstorage⟩
        · exact congrArg RaftStateMachine.commitIndex hsm
        · exact congrArg RaftStateMachine.lastApplied hsm
  · left
    have hlt := Nat.lt_of_not_le hterm
    have hstale := onInstallSnapshot_stale (x := Turn.start n) hlt
    exact ⟨hlt, congrArg Prod.fst hstale, congrArg (fun r => r.2.node) hstale⟩

/-- Where the storage takes the snapshot the indices are raised to the index of the chunk. -/
theorem installed_indices {req : InstallSnapshotRequest} {n : RaftNodeInner σ}
    (hterm : n.sm.currentTerm ≤ req.term) (hdone : req.done = true) (hinstalls : Installs req n) :
    (afterChunk req n).sm.commitIndex = max n.sm.commitIndex req.lastIncludedIndex ∧
      (afterChunk req n).sm.lastApplied = max n.sm.lastApplied req.lastIncludedIndex := by
  obtain ⟨hlt, -⟩ | ⟨-, hnot, -⟩ | ⟨-, -, hfails, -⟩ | ⟨-, -, -, -, -, hcommit, happlied, -⟩ :=
    afterChunk_cases req n
  · exact absurd hterm (Nat.not_le.mpr hlt)
  · rw [hdone] at hnot
    cases hnot
  · exact absurd hinstalls hfails
  · exact ⟨hcommit, happlied⟩

/-- To enter a term is no call of `apply_snapshot`. -/
theorem entered_calls (n : RaftNodeInner (ProbedStorage σ)) (term : ℕ) :
    (entered n term).calls = n.storage.calls := by
  unfold entered
  split
  · apply ProbedStorage.calls_save
  · rfl

/-- The calls of `apply_snapshot` that a chunk leads to, each with whether it succeeded. -/
def newCalls (req : InstallSnapshotRequest) (n : RaftNodeInner (ProbedStorage σ)) :
    List (Snapshot × Bool) := (afterChunk req n).storage.calls.drop n.storage.calls.length

/-- Only an accepted last chunk leads to a call, and to one. -/
theorem newCalls_eq (req : InstallSnapshotRequest) (n : RaftNodeInner (ProbedStorage σ)) :
    newCalls req n = if n.sm.currentTerm ≤ req.term ∧ req.done = true then
      [(n.assembled req, decide (Installs req n))] else [] := by
  have hcalls := ProbedStorage.calls_apply (n.assembled req) (entered n req.term)
  rw [entered_calls] at hcalls
  unfold newCalls
  obtain ⟨hlt, -, hnode⟩ | ⟨-, hdone, -, -, hstorage⟩ | ⟨hterm, hdone, hfails, -, -, hstorage⟩ |
    ⟨hterm, hdone, hinstalls, -, -, -, -, hstorage⟩ := afterChunk_cases req n
  · rw [hnode, if_neg fun h => Nat.not_le.mpr hlt h.1, List.drop_length]
  · rw [hstorage, entered_calls, hdone, if_neg (by simp), List.drop_length]
  · rw [hstorage, hcalls, List.drop_left, if_pos ⟨hterm, hdone⟩, decide_eq_false hfails]
    cases hresult : (Storage.applySnapshot (n.assembled req) (entered n req.term)).1 with
    | error e => rfl
    | ok u => exact absurd hresult hfails
  · rw [hstorage, ProbedStorage.calls_save, hcalls, List.drop_left, if_pos ⟨hterm, hdone⟩,
      decide_eq_true hinstalls, show _ = Except.ok () from hinstalls]
    rfl

/-! ## Chunks of several snapshots -/

/-- The chunk carries the bytes of `sent` from its offset on, with the index and the term of
`sent`; a last chunk carries them to the end. -/
structure ChunkOf (sent : Snapshot) (req : InstallSnapshotRequest) : Prop where
  index : req.lastIncludedIndex = sent.metadata.lastIncludedIndex
  term : req.lastIncludedTerm = sent.metadata.lastIncludedTerm
  data : req.data <+: sent.data.drop req.offset
  last : req.done = true → req.data = sent.data.drop req.offset

/-- A chunk and the snapshot it belongs to. -/
structure Delivery where
  sent : Snapshot
  req : InstallSnapshotRequest
  chunk : ChunkOf sent req

/-- A node that receives chunks, and the chunks it has accepted since it last installed a
snapshot. -/
structure Receiver (σ : Type) where
  node : RaftNodeInner (ProbedStorage σ)
  accepted : List InstallSnapshotRequest

namespace Receiver

/-- The chunks accepted after another one. -/
def acceptedAfter (r : Receiver σ) (req : InstallSnapshotRequest) : List InstallSnapshotRequest :=
  if req.term < r.node.sm.currentTerm then r.accepted
  else if req.done = true ∧ Installs req r.node then [] else r.accepted ++ [req]

/-- The receiver behind the chunk. -/
def receive (r : Receiver σ) (d : Delivery) : Receiver σ :=
  ⟨afterChunk d.req r.node, r.acceptedAfter d.req⟩

/-- Each snapshot that the chunk hands to the storage is the one the chunk belongs to, and
where the storage takes it the indices are raised to its index. -/
def Coherent (r : Receiver σ) (d : Delivery) : Prop :=
  ∀ call ∈ newCalls d.req r.node,
    call.1.data = d.sent.data ∧
    call.1.metadata.lastIncludedIndex = d.sent.metadata.lastIncludedIndex ∧
    call.1.metadata.lastIncludedTerm = d.sent.metadata.lastIncludedTerm ∧
    (call.2 = true →
      (r.receive d).node.sm.commitIndex =
        max r.node.sm.commitIndex d.sent.metadata.lastIncludedIndex ∧
      (r.receive d).node.sm.lastApplied =
        max r.node.sm.lastApplied d.sent.metadata.lastIncludedIndex)

/-- An accepted last chunk comes behind chunks that make up, one after the other, the bytes
of its snapshot up to its offset, the first of them with the index and the term of its own. -/
def Complete (r : Receiver σ) (d : Delivery) : Prop :=
  r.node.sm.currentTerm ≤ d.req.term → d.req.done = true →
    (r.accepted.map InstallSnapshotRequest.data).flatten = d.sent.data.take d.req.offset ∧
    ∀ first ∈ r.accepted.head?, first.lastIncludedIndex = d.req.lastIncludedIndex ∧
      first.lastIncludedTerm = d.req.lastIncludedTerm

/-- The buffer holds the accepted chunks one after the other, under the index and the term of
the first. -/
def Buffered (r : Receiver σ) : Prop :=
  r.node.snapshotBuf = r.accepted.head?.map fun first =>
    (⟨first.lastIncludedIndex, first.lastIncludedTerm, []⟩,
      (r.accepted.map InstallSnapshotRequest.data).flatten)

variable {r : Receiver σ}

omit [Storage σ] in
/-- What the next chunk makes of the buffer. -/
theorem Buffered.extended (h : r.Buffered) (req : InstallSnapshotRequest) :
    r.node.extendedBuffer req =
      (⟨(r.accepted.head?.getD req).lastIncludedIndex,
        (r.accepted.head?.getD req).lastIncludedTerm, []⟩,
        (r.accepted.map InstallSnapshotRequest.data).flatten ++ req.data) := by
  unfold extendedBuffer bufferFor
  rw [h]
  cases r.accepted with
  | nil => rfl
  | cons first rest => rfl

omit [Storage σ] in
/-- The buffer holds the first metadata and all the data so far. -/
theorem Buffered.append (h : r.Buffered) (req : InstallSnapshotRequest) :
    some (r.node.extendedBuffer req) = (r.accepted ++ [req]).head?.map fun first =>
      (⟨first.lastIncludedIndex, first.lastIncludedTerm, []⟩,
        ((r.accepted ++ [req]).map InstallSnapshotRequest.data).flatten) := by
  rw [h.extended]
  cases r.accepted <;> simp

/-- Every chunk keeps the buffer so. -/
theorem Buffered.receive (h : r.Buffered) (d : Delivery) : (r.receive d).Buffered := by
  unfold Buffered Receiver.receive acceptedAfter
  dsimp only
  obtain ⟨hlt, -, hnode⟩ | ⟨hterm, hdone, -, hbuf, -⟩ | ⟨hterm, hdone, hfails, -, hbuf, -⟩ |
    ⟨hterm, hdone, hinstalls, -, hbuf, -⟩ := afterChunk_cases d.req r.node
  · rw [hnode, if_pos hlt]
    exact h
  · rw [hbuf, if_neg (Nat.not_lt.mpr hterm), hdone, if_neg (by simp)]
    exact h.append d.req
  · rw [hbuf, if_neg (Nat.not_lt.mpr hterm), if_neg fun hd => hfails hd.2]
    exact h.append d.req
  · rw [hbuf, if_neg (Nat.not_lt.mpr hterm), if_pos ⟨hdone, hinstalls⟩]
    rfl

omit [Storage σ] in
/-- What the last chunk hands over has all the bytes exactly when those before it are there. -/
theorem Buffered.data_iff (h : r.Buffered) (d : Delivery) (hdone : d.req.done = true) :
    (r.node.assembled d.req).data = d.sent.data ↔
      (r.accepted.map InstallSnapshotRequest.data).flatten = d.sent.data.take d.req.offset := by
  show (r.node.extendedBuffer d.req).2 = d.sent.data ↔ _
  rw [h.extended, d.chunk.last hdone]
  nth_rewrite 2 [← List.take_append_drop d.req.offset d.sent.data]
  exact List.append_left_inj _

omit [Storage σ] in
/-- It has the index and the term of the first chunk. -/
theorem Buffered.meta_iff (h : r.Buffered) (d : Delivery) :
    ((r.node.assembled d.req).metadata.lastIncludedIndex = d.sent.metadata.lastIncludedIndex ∧
      (r.node.assembled d.req).metadata.lastIncludedTerm = d.sent.metadata.lastIncludedTerm) ↔
    ∀ first ∈ r.accepted.head?, first.lastIncludedIndex = d.req.lastIncludedIndex ∧
      first.lastIncludedTerm = d.req.lastIncludedTerm := by
  show ((r.node.extendedBuffer d.req).1.index = _ ∧ (r.node.extendedBuffer d.req).1.term = _) ↔ _
  rw [h.extended, ← d.chunk.index, ← d.chunk.term]
  cases r.accepted <;> simp

/-- One chunk is coherent exactly when the chunks before it were the right ones. -/
theorem Buffered.coherent_iff (h : r.Buffered) (d : Delivery) : r.Coherent d ↔ r.Complete d := by
  unfold Coherent Complete
  rw [newCalls_eq]
  by_cases hlast : r.node.sm.currentTerm ≤ d.req.term ∧ d.req.done = true
  · rw [if_pos hlast, ← h.data_iff d hlast.2, ← h.meta_iff d]
    simp only [List.mem_singleton, forall_eq]
    constructor
    · rintro ⟨hdata, hidx, hterm, -⟩ - -
      exact ⟨hdata, hidx, hterm⟩
    · intro hall
      obtain ⟨hdata, hidx, hterm⟩ := hall hlast.1 hlast.2
      refine ⟨hdata, hidx, hterm, ?_⟩
      intro hcall
      obtain ⟨hcommit, happlied⟩ := installed_indices hlast.1 hlast.2 (of_decide_eq_true hcall)
      rw [← d.chunk.index]
      exact ⟨hcommit, happlied⟩
  · rw [if_neg hlast]
    constructor
    · intro _ hterm hdone
      exact absurd ⟨hterm, hdone⟩ hlast
    · intro _ call hcall
      cases hcall

end Receiver

/-- **Chunks are joined in the order they arrive.**  For every storage and every sequence of
chunks from an empty buffer, each snapshot the node hands to its storage is the one the last
chunk belongs to, exactly when each accepted last chunk follows the chunks before it in its
own snapshot, and nothing else since the last installed snapshot.
SRCLINE: iceraft-node/src/node.rs:418-467 -/
theorem chunks_coherent_iff (n : RaftNodeInner (ProbedStorage σ)) (hbuf : n.snapshotBuf = none)
    (ds : List Delivery) :
    Runs.Within Receiver.receive Receiver.Coherent ⟨n, []⟩ ds ↔
      Runs.Within Receiver.receive Receiver.Complete ⟨n, []⟩ ds := by
  have hstart : (⟨n, []⟩ : Receiver σ).Buffered := hbuf
  exact Runs.within_congr_of_invariant Receiver.Buffered (fun r d hr _ => hr.receive d)
    (fun r d hr => hr.coherent_iff d) hstart ds

/-- A new node over a watched storage, with the outcomes of the coming calls. -/
def probedFollower (outcomes : List (Option RaftError)) :
    RaftNodeInner (ProbedStorage MemStorage) := RaftNodeInner.new { store := .new, outcomes }

/-- The first of two chunks of a snapshot that ends at index 5. -/
def abandonedChunk : Delivery where
  sent := ⟨[1, 2], ⟨5, 1, []⟩⟩
  req := ⟨1, 1, 5, 1, 0, [1], false⟩
  chunk := ⟨rfl, rfl, by decide, by decide⟩

/-- A snapshot of another leader, in one chunk. -/
def wholeSnapshot : Delivery where
  sent := ⟨[9], ⟨7, 2, []⟩⟩
  req := ⟨2, 3, 7, 2, 0, [9], true⟩
  chunk := ⟨rfl, rfl, by decide, by decide⟩

instance (r : Receiver σ) (d : Delivery) : Decidable (r.Coherent d) :=
  inferInstanceAs (Decidable (∀ call ∈ newCalls d.req r.node, _))

instance (r : Receiver σ) (d : Delivery) : Decidable (r.Complete d) :=
  inferInstanceAs (Decidable (_ → _ → _ ∧ ∀ first ∈ r.accepted.head?, _))

/-- The second of the two chunks. -/
def lastChunk : Delivery where
  sent := ⟨[1, 2], ⟨5, 1, []⟩⟩
  req := ⟨1, 1, 5, 1, 1, [2], true⟩
  chunk := ⟨rfl, rfl, by decide, by decide⟩

/-- A transfer in two chunks. -/
theorem chunks_coherent_iff_twoChunks :
    Runs.Within Receiver.receive Receiver.Coherent ⟨probedFollower [], []⟩
        [abandonedChunk, lastChunk] ∧
      (Runs.exec Receiver.receive ⟨probedFollower [], []⟩
        [abandonedChunk, lastChunk]).node.storage.calls = [(⟨[1, 2], ⟨5, 1, []⟩⟩, true)] := by
  have hcoherent := chunks_coherent_iff (probedFollower []) rfl [abandonedChunk, lastChunk]
  exact ⟨hcoherent.mpr (by decide +kernel), by decide +kernel⟩

/-- The chunk of the abandoned transfer gets into the next snapshot, with its index and its
term, while the indices are raised to those of the next one. -/
theorem abandoned_transfer_mixes :
    ¬ Runs.Within Receiver.receive Receiver.Coherent ⟨probedFollower [], []⟩
        [abandonedChunk, wholeSnapshot] ∧
      let after := Runs.exec Receiver.receive ⟨probedFollower [], []⟩
        [abandonedChunk, wholeSnapshot]
      after.node.storage.calls = [(⟨[1, 9], ⟨5, 1, []⟩⟩, true)] ∧
        after.node.sm.commitIndex = 7 ∧ after.node.sm.lastApplied = 7 := by
  decide +kernel

/-! ## Attempts of one request -/

/-- The node after `k` attempts. -/
def attempt (req : InstallSnapshotRequest) (k : ℕ) (n : RaftNodeInner σ) : RaftNodeInner σ :=
  (afterChunk req)^[k] n

/-- Each of the first `k` attempts is answered with an error. -/
def AllFail (req : InstallSnapshotRequest) (k : ℕ) (n : RaftNodeInner σ) : Prop :=
  ∀ i < k, ∃ e, chunkReply req (attempt req i n) = .error e

/-- A failed attempt is an accepted chunk that stays in the buffer. -/
theorem buffer_of_error {req : InstallSnapshotRequest} {n : RaftNodeInner σ} {e : RaftError}
    (h : chunkReply req n = .error e) : ¬ Installs req n ∧
      (afterChunk req n).snapshotBuf = some (n.extendedBuffer req) := by
  obtain ⟨-, hreply, -⟩ | ⟨-, -, hreply, -⟩ | ⟨-, -, hfails, -, hbuf, -⟩ | ⟨-, -, -, hreply, -⟩ :=
    afterChunk_cases req n
  · rw [hreply] at h
    cases h
  · rw [hreply] at h
    cases h
  · exact ⟨hfails, hbuf⟩
  · rw [hreply] at h
    cases h

/-- After `k` failed attempts the buffer holds the data of the request `k` times. -/
theorem buffer_of_allFail {req : InstallSnapshotRequest} {n : RaftNodeInner σ}
    (hbuf : n.snapshotBuf = none) {k : ℕ} (hfail : AllFail req k n) :
    (attempt req k n).bufferFor req = (⟨req.lastIncludedIndex, req.lastIncludedTerm, []⟩,
      (List.replicate k req.data).flatten) := by
  induction k with
  | zero =>
    show n.bufferFor req = _
    unfold bufferFor
    rw [hbuf]
    rfl
  | succ k ih =>
    obtain ⟨e, he⟩ := hfail k (Nat.lt_succ_self k)
    have hprev := ih fun i hi => hfail i (Nat.lt_succ_of_lt hi)
    rw [show attempt req (k + 1) n = afterChunk req (attempt req k n) from
      Function.iterate_succ_apply' _ _ _]
    unfold bufferFor at hprev ⊢
    rw [(buffer_of_error he).2, List.replicate_succ', List.flatten_append, List.flatten_singleton]
    unfold extendedBuffer bufferFor
    rw [hprev]
    rfl

/-- The attempt after `k` failed ones hands over the data of the request `k + 1` times. -/
theorem newCalls_of_allFail {req : InstallSnapshotRequest} {n : RaftNodeInner (ProbedStorage σ)}
    (hbuf : n.snapshotBuf = none) (hdone : req.done = true) {k : ℕ} (hfail : AllFail req k n)
    (hterm : (attempt req k n).sm.currentTerm ≤ req.term) :
    newCalls req (attempt req k n) =
      [({ req.snapshot with data := (List.replicate (k + 1) req.data).flatten },
        decide (Installs req (attempt req k n)))] := by
  have hassembled : (attempt req k n).assembled req =
      { req.snapshot with data := (List.replicate (k + 1) req.data).flatten } := by
    unfold assembled extendedBuffer
    rw [buffer_of_allFail hbuf hfail, List.replicate_succ', List.flatten_append,
      List.flatten_singleton]
    rfl
  rw [newCalls_eq, if_pos ⟨hterm, hdone⟩, hassembled]

/-- An attempt that fails leaves the indices and the buffer as they were, and the first one
that succeeds, after any number of failed ones, hands the storage the snapshot of the
request. -/
structure Retryable (req : InstallSnapshotRequest) (n : RaftNodeInner (ProbedStorage σ)) :
    Prop where
  unchanged : ∀ e, chunkReply req n = .error e →
    (afterChunk req n).sm.commitIndex = n.sm.commitIndex ∧
      (afterChunk req n).sm.lastApplied = n.sm.lastApplied ∧
      (afterChunk req n).snapshotBuf = n.snapshotBuf
  retried : ∀ k, AllFail req k n → chunkReply req (attempt req k n) = .ok ⟨req.term⟩ →
    newCalls req (attempt req k n) = [(req.snapshot, true)]

/-- A first attempt that is not answered with an error is the only one that counts. -/
theorem Retryable.of_ok {req : InstallSnapshotRequest} {n : RaftNodeInner (ProbedStorage σ)}
    {resp : InstallSnapshotResponse} (hreply : chunkReply req n = .ok resp)
    (hcalls : chunkReply req n = .ok ⟨req.term⟩ → newCalls req n = [(req.snapshot, true)]) :
    Retryable req n where
  unchanged e he := by
    rw [hreply] at he
    cases he
  retried k hfail hok := by
    cases k with
    | zero => exact hcalls hok
    | succ k =>
      obtain ⟨e, he⟩ := hfail 0 k.succ_pos
      rw [show attempt req 0 n = n from rfl, hreply] at he
      cases he

/-- **A failed installation is not retryable.**  For every storage, and every node with an
empty buffer, a complete snapshot can be retried exactly when there is nothing to retry: it
is refused for its term, or the storage takes it at once.
SRCLINE: iceraft-node/src/node.rs:433-462 -/
theorem retryable_iff (req : InstallSnapshotRequest) (n : RaftNodeInner (ProbedStorage σ))
    (hbuf : n.snapshotBuf = none) (hdone : req.done = true) :
    Retryable req n ↔ (n.sm.currentTerm ≤ req.term → Installs req n) := by
  obtain ⟨hlt, hreply, hnode⟩ | ⟨-, hnot, -⟩ | ⟨hterm, -, hfails, ⟨e, he⟩, hkept, -⟩ |
    ⟨hterm, -, hinstalls, hreply, -⟩ := afterChunk_cases req n
  · -- refused: no attempt is ever taken
    have hrefused : Retryable req n := by
      apply Retryable.of_ok hreply
      intro hok
      rw [hreply] at hok
      injection hok with hok
      injection hok with hok
      exact absurd hok hlt.ne'
    constructor
    · intro _ hterm
      exact absurd hterm (Nat.not_le.mpr hlt)
    · intro _
      exact hrefused
  · rw [hdone] at hnot
    cases hnot
  · -- failed: the data stays in the buffer
    constructor
    · intro h
      have hbuf' := (h.unchanged e he).2.2
      rw [hkept, hbuf] at hbuf'
      cases hbuf'
    · intro h
      exact absurd (h hterm) hfails
  · have hcalls : newCalls req n = [(req.snapshot, true)] := by
      rw [newCalls_eq, if_pos ⟨hterm, hdone⟩, assembled_of_none hbuf, decide_eq_true hinstalls]
    constructor
    · intro _ _
      exact hinstalls
    · intro _
      exact .of_ok hreply fun _ => hcalls

/-- A snapshot in one chunk may be sent again. -/
theorem retryable_iff_wholeSnapshot : Retryable wholeSnapshot.req (probedFollower []) :=
  (retryable_iff wholeSnapshot.req (probedFollower []) rfl rfl).mpr fun _ => by decide +kernel

/-- The first call fails, and the second attempt hands over the data twice. -/
theorem retry_doubles_data :
    let n := probedFollower [some (.storage "disk full")]
    ¬ Retryable wholeSnapshot.req n ∧
      chunkReply wholeSnapshot.req n = .error (.storage "disk full") ∧
      (afterChunk wholeSnapshot.req n).snapshotBuf = some (⟨7, 2, []⟩, [9]) ∧
      (attempt wholeSnapshot.req 2 n).storage.calls =
        [(⟨[9], ⟨7, 2, []⟩⟩, false), (⟨[9, 9], ⟨7, 2, []⟩⟩, true)] := by
  have hreply : chunkReply wholeSnapshot.req (probedFollower [some (.storage "disk full")]) =
      .error (.storage "disk full") := by decide +kernel
  have hbuf : (afterChunk wholeSnapshot.req
      (probedFollower [some (.storage "disk full")])).snapshotBuf =
        some (⟨7, 2, []⟩, [9]) := by decide +kernel
  refine ⟨?_, hreply, hbuf, by decide +kernel⟩
  intro h
  have hkept := (h.unchanged _ hreply).2.2
  rw [hbuf] at hkept
  cases hkept

/-! ## From storage to storage -/

/-- The request that carries a stored snapshot. -/
def snapshotRequest (cfg : RaftConfig) (term : ℕ) (snap : Snapshot) : InstallSnapshotRequest where
  term := term
  leaderId := cfg.id
  lastIncludedIndex := snap.metadata.lastIncludedIndex
  lastIncludedTerm := snap.metadata.lastIncludedTerm
  offset := 0
  data := snap.data
  done := true

/-- What `send_snapshot_to` does with a snapshot in the storage. -/
theorem sendSnapshotTo_effects (cfg : RaftConfig) (peer : NodeId) {n : RaftNodeInner σ}
    {snap : Snapshot} (h : (Storage.snapshot n.storage).1 = .ok (some snap)) :
    (sendSnapshotTo cfg peer (Turn.start n)).effects =
      [.spawned (.installSnapshot peer snap.metadata.lastIncludedIndex
        (snapshotRequest cfg n.sm.currentTerm snap))] := by
  unfold sendSnapshotTo
  have hread : NodeTurn.read Storage.snapshot (Turn.start n) =
      (.ok (some snap), (NodeTurn.read Storage.snapshot (Turn.start n)).2) := Prod.ext h rfl
  rw [hread]
  rfl

/-- The node stores exactly `snap`, and would send exactly `snap` on. -/
structure StoresSnapshot (snap : Snapshot) (n : RaftNodeInner MemStorage) : Prop where
  stored : (Storage.snapshot n.storage).1 = .ok (some snap)
  resent : ∀ (cfg : RaftConfig) (peer : NodeId) (n' : RaftNodeInner MemStorage),
    n'.storage.snapshot = n.storage.snapshot →
      (sendSnapshotTo cfg peer (Turn.start n')).effects =
        [.spawned (.installSnapshot peer snap.metadata.lastIncludedIndex
          (snapshotRequest cfg n'.sm.currentTerm snap))]

/-- **The membership is lost on the way.**  For every snapshot in the storage of a leader and
every follower with an empty buffer, the request that `send_snapshot_to` builds makes the
follower hold that very snapshot exactly when it lists no members.
SRCLINE: iceraft-node/src/node.rs:433-462, iceraft-node/src/node.rs:639-667 -/
theorem transfer_lossless_iff (cfg : RaftConfig) (L : RaftNodeInner σ)
    (F : RaftNodeInner MemStorage) (snap : Snapshot)
    (hsnap : (Storage.snapshot L.storage).1 = .ok (some snap)) (hbuf : F.snapshotBuf = none)
    (hterm : F.sm.currentTerm ≤ L.sm.currentTerm) (peer : NodeId) :
    ∃ req, (sendSnapshotTo cfg peer (Turn.start L)).effects =
        [.spawned (.installSnapshot peer snap.metadata.lastIncludedIndex req)] ∧
      (StoresSnapshot snap (afterChunk req F) ↔ snap.metadata.confNodes = []) := by
  refine ⟨_, sendSnapshotTo_effects cfg peer hsnap, ?_⟩
  have hreq : F.sm.currentTerm ≤ (snapshotRequest cfg L.sm.currentTerm snap).term := hterm
  obtain ⟨-, hnode⟩ := onInstallSnapshot_whole (x := Turn.start F) hreq rfl hbuf
  have hstored : (afterChunk (snapshotRequest cfg L.sm.currentTerm snap) F).storage.snapshot =
      some { snap with metadata := { snap.metadata with confNodes := [] } } := hnode.snapshot
  constructor
  · intro h
    have hsame : some { snap with metadata := { snap.metadata with confNodes := [] } } =
        some snap := hstored.symm.trans (Except.ok.inj h.stored)
    exact congrArg (fun s => s.metadata.confNodes) (Option.some.inj hsame).symm
  · intro hconf
    have hsame : { snap with metadata := { snap.metadata with confNodes := [] } } = snap := by
      rw [← hconf]
    rw [hsame] at hstored
    exact ⟨congrArg Except.ok hstored, fun cfg' peer' n' hn' =>
      sendSnapshotTo_effects cfg' peer' (congrArg Except.ok (hn'.trans hstored))⟩

/-- A leader of term 1 with a snapshot of a cluster with the given members. -/
def leaderWithSnapshot (members : List NodeId) : RaftNodeInner MemStorage where
  sm := { currentTerm := 1, role := .leader, commitIndex := 5, leaderId := some 1 }
  storage := ⟨⟨1, 1, 5⟩, [], some ⟨[9], ⟨5, 1, members⟩⟩⟩
  metrics := {}
  pending := []
  snapshotBuf := none

/-- A snapshot that names no members arrives whole. -/
theorem transfer_lossless_iff_noMembers : ∃ req,
    (sendSnapshotTo { id := 1, peers := [2, 3] } 2 (Turn.start (leaderWithSnapshot []))).effects =
        [.spawned (.installSnapshot 2 5 req)] ∧
      (StoresSnapshot ⟨[9], ⟨5, 1, []⟩⟩ (afterChunk req (RaftNodeInner.new .new)) ↔
        ([] : List NodeId) = []) :=
  transfer_lossless_iff { id := 1, peers := [2, 3] } (leaderWithSnapshot [])
    (RaftNodeInner.new .new) ⟨[9], ⟨5, 1, []⟩⟩ rfl rfl (by decide) 2

/-- A follower stores the snapshot of a cluster of three without its members. -/
theorem members_dropped :
    let snap : Snapshot := ⟨[9], ⟨5, 1, [1, 2, 3]⟩⟩
    let req := snapshotRequest { id := 1, peers := [2, 3] } 1 snap
    let follower := afterChunk req (RaftNodeInner.new MemStorage.new)
    (leaderWithSnapshot [1, 2, 3]).storage.snapshot = some snap ∧
      (sendSnapshotTo { id := 1, peers := [2, 3] } 2
        (Turn.start (leaderWithSnapshot [1, 2, 3]))).effects =
          [.spawned (.installSnapshot 2 5 req)] ∧
      follower.storage.snapshot = some ⟨[9], ⟨5, 1, []⟩⟩ ∧ ¬ StoresSnapshot snap follower := by
  have hstored : (afterChunk (snapshotRequest { id := 1, peers := [2, 3] } 1
      ⟨[9], ⟨5, 1, [1, 2, 3]⟩⟩) (RaftNodeInner.new MemStorage.new)).storage.snapshot =
        some ⟨[9], ⟨5, 1, []⟩⟩ := by decide +kernel
  refine ⟨rfl, rfl, hstored, ?_⟩
  intro h
  have hsame := hstored.symm.trans (Except.ok.inj h.stored)
  cases hsame

end IceRaft
