import IceRaft.Analysis.CappedReads
import IceRaft.Analysis.CatchUp

/-!
# The request a leader builds for a peer

`replicate_to` sends the snapshot when the next index is compacted, and otherwise a
fragment of the log with the true term of the previous entry: no default of a failed read
gets into a request.  At the end of `u64` the read is empty, and the request with it.  A
follower commits nothing behind the entries it is sent as long as their indices say where they
are.
-/

set_option autoImplicit false

namespace IceRaft

open MemStorage Cluster NodeTurn

/-- `t` is the term of index `i`: 0 in front of the log, the snapshot's at its own index,
and that of the entry behind it. -/
inductive TermAt (s : MemStorage) : ℕ → ℕ → Prop
  | origin : TermAt s 0 0
  | snapshot {snap : Snapshot} (h : s.snapshot = some snap)
      (hpos : 1 ≤ snap.metadata.lastIncludedIndex) :
      TermAt s snap.metadata.lastIncludedIndex snap.metadata.lastIncludedTerm
  | entry {i : ℕ} {e : LogEntry} (h : s.get? i = some e) : TermAt s i e.term

/-- The term of every index from the snapshot's to the end of the log can be read, and it is
the true one. -/
theorem Aligned.termAt {s : MemStorage} (h : s.Aligned) {i : ℕ} (hlo : s.firstIndex ≤ i + 1)
    (hhi : i ≤ s.lastIndex) : ∃ t, s.term i = .ok t ∧ TermAt s i t := by
  rcases Nat.eq_zero_or_pos i with rfl | hpos
  · exact ⟨0, rfl, .origin⟩
  · by_cases hfirst : s.firstIndex ≤ i
    · obtain ⟨e, he⟩ := h.get?_isSome hfirst hhi
      exact ⟨e.term, (h.term_of_get? he).2.2, .entry he⟩
    · -- only the snapshot's own index is left
      cases hs : s.snapshot with
      | none =>
        have := firstIndex_of_none hs
        omega
      | some snap =>
        have hfirst' := firstIndex_of_some hs
        obtain rfl : i = snap.metadata.lastIncludedIndex := by omega
        refine ⟨snap.metadata.lastIncludedTerm, ?_, .snapshot hs hpos⟩
        unfold MemStorage.term
        rw [if_neg (Nat.pos_iff_ne_zero.mp hpos), hs]
        dsimp only
        rw [if_pos (Nat.le_refl _), if_pos rfl]

/-- An AppendEntries request that carries the log `s` from `next` on. -/
structure LogFragment (s : MemStorage) (next reqLast : ℕ) (req : AppendEntriesRequest) : Prop where
  prev : req.prevLogIndex = next - 1
  prevRead : s.term req.prevLogIndex = .ok req.prevLogTerm
  prevTerm : TermAt s req.prevLogIndex req.prevLogTerm
  batch : Batch s next (req.entries.map protoEntryToLogEntry)
  last : reqLast = (req.entries.getLast?.map ProtoEntry.index).getD req.prevLogIndex

/-- The index of the last entry of a batch. -/
theorem Consecutive.getLast {n : ℕ} {es : List LogEntry} (h : Consecutive (n + 1) es) :
    ((es.map logEntryToProtoEntry).getLast?.map ProtoEntry.index).getD n = n + es.length := by
  rcases List.eq_nil_or_concat es with rfl | ⟨init, e, hes⟩
  · rfl
  · obtain rfl := hes.trans List.concat_eq_append
    have hlast := h init.length (by simp)
    rw [List.getElem_concat_length rfl] at hlast
    rw [List.map_append, List.getLast?_append, List.length_append]
    show e.index = n + (init.length + 1)
    omega

variable {L : RaftNodeInner MemStorage} {peer : NodeId} {pr : Progress} {cfg : RaftConfig}

/-- Above the snapshot the request is a fragment of the log. -/
theorem replicateTo_fragment (cfg : RaftConfig) (hrole : L.sm.role = .leader)
    (hpr : L.sm.progress.lookup peer = some pr) (halign : L.storage.Aligned)
    (hlo : L.storage.firstIndex ≤ pr.nextIndex) (hhi : pr.nextIndex ≤ L.storage.lastIndex + 1) :
    ∃ last req, LogFragment L.storage pr.nextIndex last req ∧ req.term = L.sm.currentTerm ∧
      req.leaderId = cfg.id ∧ req.leaderCommit = L.sm.commitIndex ∧
      replicateTo cfg peer (Turn.start L) =
        NodeTurn.effect (.spawned (.appendEntries peer last req)) (Turn.start L) := by
  have hone := L.storage.one_le_firstIndex
  have hlead : Leading L.storage L.sm.currentTerm peer pr L := ⟨hrole, rfl, hpr, rfl, rfl⟩
  obtain ⟨es, hb, hsent⟩ := Leading.sendsAppend cfg (x := Turn.start L) hlead halign hlo hhi
  obtain ⟨t, hread, htrue⟩ := Aligned.termAt halign (i := pr.nextIndex - 1) (by omega) (by omega)
  rw [hread] at hsent
  refine ⟨_, _, ⟨rfl, hread, htrue, ?_, ?_⟩, rfl, rfl, rfl, hsent⟩
  · rw [map_protoEntryToLogEntry]
    exact hb
  · have hcons := hb.consecutive
    rw [show pr.nextIndex = pr.nextIndex - 1 + 1 by omega] at hcons
    exact (Consecutive.getLast hcons).symm

/-- The effect of `replicate_to` for a peer whose next index is `next`: the stored snapshot
when the next index is not behind it, and a fragment of the log otherwise. -/
inductive FaithfulRequest (cfg : RaftConfig) (peer : NodeId) (L : RaftNodeInner MemStorage)
    (next : ℕ) : Effect → Prop
  | snapshot {snap : Snapshot} (hsnap : L.storage.snapshot = some snap)
      (hle : next ≤ snap.metadata.lastIncludedIndex) :
      FaithfulRequest cfg peer L next
        (.spawned (.installSnapshot peer snap.metadata.lastIncludedIndex
          { term := L.sm.currentTerm, leaderId := cfg.id,
            lastIncludedIndex := snap.metadata.lastIncludedIndex,
            lastIncludedTerm := snap.metadata.lastIncludedTerm,
            offset := 0, data := snap.data, done := true }))
  | append {last : ℕ} {req : AppendEntriesRequest}
      (hlt : ∀ snap, L.storage.snapshot = some snap → snap.metadata.lastIncludedIndex < next)
      (hfrag : LogFragment L.storage next last req) (hterm : req.term = L.sm.currentTerm)
      (hid : req.leaderId = cfg.id) (hcommit : req.leaderCommit = L.sm.commitIndex) :
      FaithfulRequest cfg peer L next (.spawned (.appendEntries peer last req))

/-- For a next index from 1 to the one behind the log, `replicate_to` has one effect: it sends
the stored snapshot exactly when the next index is not behind it, and otherwise the log from the
next index on, behind the true term of the previous index. -/
theorem replicateTo_request (cfg : RaftConfig) (hrole : L.sm.role = .leader)
    (hpr : L.sm.progress.lookup peer = some pr)
    (halign : L.storage.Aligned) (hpos : 1 ≤ pr.nextIndex)
    (hnext : pr.nextIndex ≤ L.storage.lastIndex + 1) :
    ∃ e, (replicateTo cfg peer (Turn.start L)).effects = [e] ∧
      FaithfulRequest cfg peer L pr.nextIndex e := by
  by_cases hlt : pr.nextIndex < L.storage.firstIndex
  · have hlead : Leading L.storage L.sm.currentTerm peer pr L := ⟨hrole, rfl, hpr, rfl, rfl⟩
    obtain ⟨snap, hsnap, hsent⟩ := Leading.sendsSnapshot cfg (x := Turn.start L) hlead halign
      hpos hlt
    rw [firstIndex_of_some hsnap] at hlt
    rw [hsent]
    exact ⟨_, rfl, .snapshot hsnap (Nat.le_of_lt_succ hlt)⟩
  · obtain ⟨last, req, hfrag, hterm, hid, hcommit, hsent⟩ :=
      replicateTo_fragment cfg hrole hpr halign (Nat.le_of_not_lt hlt) hnext
    have habove : ∀ snap, L.storage.snapshot = some snap →
        snap.metadata.lastIncludedIndex < pr.nextIndex := by
      intro snap hsnap
      rw [firstIndex_of_some hsnap] at hlt
      omega
    rw [hsent]
    exact ⟨_, rfl, .append habove hfrag hterm hid hcommit⟩

/-- Where the next index is not compacted and the index behind the log wraps around, the request
carries nothing. -/
theorem replicateTo_wrapped {W : RaftNodeInner WordStorage} (cfg : RaftConfig)
    (hpr : W.sm.progress.lookup peer = some pr) (hmax : W.storage.lastIndex = u64Max)
    (hlo : W.storage.firstIndex ≤ pr.nextIndex) (hword : pr.nextIndex ≤ u64Max) :
    replicateTo cfg peer (Turn.start W) = sendAppend cfg peer (u64Sub pr.nextIndex 1)
      (termOr0 (u64Sub pr.nextIndex 1) (Turn.start W)).1 [] (Turn.start W) := by
  have hread : W.storage.readEntries pr.nextIndex 0
      (some (toU64 (cfg.maxAppendEntries * 4096))) = .ok [] := by
    unfold WordStorage.readEntries
    dsimp only
    rw [if_neg (Nat.not_lt.mpr hlo), if_neg (Nat.not_lt_zero _), if_pos (Nat.zero_le _)]
  rw [replicateTo_words cfg hpr, if_pos (hword.trans hmax.ge), hmax, u64Add_max, hread]
  rfl

/-- Where the next index is compacted the snapshot is sent, at the end of `u64` as well. -/
theorem replicateTo_compacted {W : RaftNodeInner WordStorage} (cfg : RaftConfig)
    (hpr : W.sm.progress.lookup peer = some pr) (hle : pr.nextIndex ≤ W.storage.lastIndex)
    (hlt : pr.nextIndex < W.storage.firstIndex) :
    replicateTo cfg peer (Turn.start W) = sendSnapshotTo cfg peer (Turn.start W) := by
  have hread : W.storage.readEntries pr.nextIndex (u64Add W.storage.lastIndex 1)
      (some (toU64 (cfg.maxAppendEntries * 4096))) =
        .error (.logCompacted pr.nextIndex W.storage.firstIndex) := by
    unfold WordStorage.readEntries
    dsimp only
    rw [if_pos hlt]
  rw [replicateTo_words cfg hpr, if_pos hle, hread]

/-- **A leader sends a faithful fragment, except at the end of `u64`.**  For a next index from 1
to the one behind an aligned log, `replicate_to` leaves the node as it is and sends the one
faithful request exactly when the index behind the log is a `u64`, or the next index is one
that a snapshot covers whose own next index is a `u64`.  Otherwise the end of the range wraps
around to 0, and the request carries none of the entries there are.
SRCLINE: iceraft-node/src/node.rs:574-667, iceraft-storage/src/mem.rs:22-111 -/
theorem replicateTo_faithful_iff (cfg : RaftConfig) (peer : NodeId)
    (W : RaftNodeInner WordStorage) (pr : Progress) (hrole : W.sm.role = .leader)
    (hpr : W.sm.progress.lookup peer = some pr) (halign : W.storage.mem.Aligned)
    (hcap : cfg.maxAppendEntries * 4096 ≤ u64Max) (hpos : 1 ≤ pr.nextIndex)
    (hword : pr.nextIndex ≤ u64Max) (hlast : W.storage.lastIndex ≤ u64Max)
    (hnext : pr.nextIndex ≤ W.storage.lastIndex + 1) :
    ((replicateTo cfg peer (Turn.start W)).node = W ∧
      ∃ e, (replicateTo cfg peer (Turn.start W)).effects = [e] ∧
        FaithfulRequest cfg peer W.toMem pr.nextIndex e) ↔
      (W.storage.lastIndex < u64Max ∨ ∃ snap, W.storage.mem.snapshot = some snap ∧
        pr.nextIndex ≤ snap.metadata.lastIncludedIndex ∧
        snap.metadata.lastIncludedIndex < u64Max) := by
  have hend : W.storage.mem.lastIndex + 1 = _ := halign.lastIndex_succ
  constructor
  · rintro ⟨-, e, heffs, hfaithful⟩
    by_contra hno
    obtain ⟨hmax, hsnap⟩ := not_or.mp hno
    have hmax : W.storage.lastIndex = u64Max := Nat.le_antisymm hlast (Nat.le_of_not_lt hmax)
    have hmax' : W.storage.mem.lastIndex = u64Max := hmax
    -- the wrapped first index lies below the next index
    have hlo : W.storage.firstIndex ≤ pr.nextIndex := by
      unfold WordStorage.firstIndex
      cases hs : W.storage.mem.snapshot with
      | none => exact hpos
      | some snap =>
        have hfirst := firstIndex_of_some hs
        have hcover : pr.nextIndex ≤ snap.metadata.lastIncludedIndex →
            u64Max ≤ snap.metadata.lastIncludedIndex := by
          intro hle
          apply Nat.le_of_not_lt
          exact fun hlt => hsnap ⟨snap, hs, hle, hlt⟩
        dsimp only
        by_cases hlt : snap.metadata.lastIncludedIndex < u64Max
        · rw [u64Add_of_le hlt]
          omega
        · rw [show snap.metadata.lastIncludedIndex = u64Max by omega, u64Add_max]
          exact Nat.zero_le _
    rw [replicateTo_wrapped cfg hpr hmax hlo hword] at heffs
    cases hfaithful with
    | snapshot hs hle => cases heffs
    | append habove hfrag =>
      cases heffs
      exact hfrag.batch.some (hword.trans hmax'.ge) rfl
  · intro hcond
    refine ⟨replicateTo_node peer (Turn.start W), ?_⟩
    by_cases hroom : W.storage.lastIndex < u64Max
    · have hfits : W.storage.Fits := ⟨halign, hroom⟩
      obtain ⟨e, heffs, hfaithful⟩ := replicateTo_request (L := W.toMem) cfg hrole hpr halign hpos
        hnext
      rw [← (replicateTo_toMem hfits cfg peer hcap).effects]
      exact ⟨e, heffs, hfaithful⟩
    · obtain ⟨snap, hs, hle, hlt⟩ := hcond.resolve_left hroom
      have hfirst : W.storage.firstIndex = snap.metadata.lastIncludedIndex + 1 := by
        unfold WordStorage.firstIndex
        rw [hs]
        exact u64Add_of_le hlt
      rw [replicateTo_compacted cfg hpr (by omega) (by omega), sendSnapshotTo_words, hs]
      exact ⟨_, rfl, .snapshot (L := W.toMem) hs hle⟩

/-- A leader of term 2 with two entries behind a snapshot; peer 2 is to get all of them, and
peer 3 the snapshot. -/
def compactedLeader : RaftNodeInner WordStorage where
  sm :=
    { currentTerm := 2, role := .leader, commitIndex := 3, leaderId := some 1,
      progress := (RaftStateMachine.freshProgress 2 [2, 3]).insert 3 ⟨1, 0, false⟩ }
  storage := ⟨{ entries := [⟨1, 3, [7], .normal⟩, ⟨2, 4, [8], .normal⟩],
                snapshot := some ⟨[9], ⟨2, 1, []⟩⟩ }⟩
  metrics := {}
  pending := []
  snapshotBuf := none

/-- A leader with a snapshot sends what its log holds. -/
theorem replicateTo_faithful_iff_compactedLeader :
    ((replicateTo { id := 1, peers := [2, 3] } 2 (Turn.start compactedLeader)).node =
        compactedLeader ∧
      ∃ e, (replicateTo { id := 1, peers := [2, 3] } 2 (Turn.start compactedLeader)).effects = [e] ∧
        FaithfulRequest { id := 1, peers := [2, 3] } 2 compactedLeader.toMem 3 e) ↔
      (4 < u64Max ∨ ∃ snap, compactedLeader.storage.mem.snapshot = some snap ∧
        3 ≤ snap.metadata.lastIncludedIndex ∧ snap.metadata.lastIncludedIndex < u64Max) :=
  replicateTo_faithful_iff _ 2 compactedLeader ⟨3, 0, false⟩ rfl (by decide +kernel)
    (by unfold Aligned; decide +kernel) (by decide) (by decide) (by decide) (by decide)
    (by decide +kernel)

/-- A leader whose log ends at the last index there is; peer 2 lacks its last entry. -/
def fullLeader : RaftNodeInner WordStorage where
  sm :=
    { currentTerm := 1, role := .leader, leaderId := some 1,
      progress := AList.singleton 2 ⟨u64Max, u64Max - 1, false⟩ }
  storage := ⟨{ entries := [⟨1, u64Max, [7], .normal⟩], snapshot := some ⟨[], ⟨u64Max - 1, 1, []⟩⟩ }⟩
  metrics := {}
  pending := []
  snapshotBuf := none

/-- The request for it is empty although the last index is not below the next one. -/
theorem last_entry_unsent : fullLeader.storage.mem.Aligned ∧ fullLeader.storage.lastIndex = u64Max ∧
    (replicateTo { id := 1, peers := [2] } 2 (Turn.start fullLeader)).effects =
      [.spawned (.appendEntries 2 (u64Max - 1) ⟨1, 1, u64Max - 1, 1, [], 0⟩)] ∧
    ¬ ∃ e, (replicateTo { id := 1, peers := [2] } 2 (Turn.start fullLeader)).effects = [e] ∧
      FaithfulRequest { id := 1, peers := [2] } 2 fullLeader.toMem u64Max e := by
  refine ⟨by unfold Aligned; decide +kernel, by decide, rfl, ?_⟩
  rintro ⟨e, heffs, hfaithful⟩
  cases hfaithful with
  | snapshot hs hle => cases heffs
  | append habove hfrag =>
    cases heffs
    exact hfrag.batch.some (Nat.le_refl _) rfl

/-! ## What the receiver commits -/

/-- A success comes from a request that passed the checks. -/
theorem accepts_of_success {F : RaftNodeInner MemStorage} {req : AppendEntriesRequest}
    {resp : AppendEntriesResponse}
    (hresp : (onAppendEntries req (Turn.start F)).1 = .ok resp) (hok : resp.success = true) :
    Accepts F req = true := by
  by_cases hterm : F.sm.currentTerm ≤ req.term
  · refine (accepts_iff F req).mpr ⟨hterm, ?_⟩
    by_contra hprev
    obtain ⟨c, t, -, -, -, hfailed⟩ := onAppendEntries_failed (x := Turn.start F) hterm hprev
    rw [hfailed] at hresp
    obtain rfl := Except.ok.inj hresp
    cases hok
  · rw [onAppendEntries_stale (x := Turn.start F) (Nat.lt_of_not_le hterm)] at hresp
    obtain rfl := Except.ok.inj hresp
    cases hok

/-- After a batch that is not empty, the last index is that of its last entry. -/
theorem lastIndex_append_of_getLast (s : MemStorage) {batch : List LogEntry} {e : LogEntry}
    (he : batch.getLast? = some e) : (s.appendEntries batch).lastIndex = e.index := by
  have hend : (s.appendEntries batch).entries.getLast? = some e := by
    cases batch with
    | nil => cases he
    | cons head rest =>
      show (_ ++ head :: rest).getLast? = some e
      rw [List.getLast?_append, he]
      rfl
  unfold lastIndex
  rw [hend]

/-- Whatever follower accepts the AppendEntries request for `peer` ends with the commit index it
had, or with one up to the end of the batch. -/
def CommitsVerified (cfg : RaftConfig) (peer : NodeId) (W : RaftNodeInner WordStorage) : Prop :=
  ∀ last req, Effect.spawned (.appendEntries peer last req) ∈
      (replicateTo cfg peer (Turn.start W)).effects →
    ∀ (F : RaftNodeInner WordStorage) (resp : AppendEntriesResponse),
      (∀ snap, F.storage.mem.snapshot = some snap →
        snap.metadata.lastIncludedIndex ≤ req.prevLogIndex) →
      (onAppendEntries req (Turn.start F)).1 = .ok resp → resp.success = true →
      (onAppendEntries req (Turn.start F)).2.sm.commitIndex ≤
        max F.sm.commitIndex (req.prevLogIndex + req.entries.length)

/-- What is read for a peer that lacks entries reaches up to the commit index, or ends with an
entry whose index says at most where it ends. -/
def EndsVerified (cfg : RaftConfig) (W : RaftNodeInner WordStorage) (next : ℕ) : Prop :=
  next ≤ W.storage.lastIndex → ∀ es,
    W.storage.readEntries next (u64Add W.storage.lastIndex 1)
      (some (toU64 (cfg.maxAppendEntries * 4096))) = .ok es →
    W.sm.commitIndex < next + es.length ∨ ∃ e ∈ es.getLast?, e.index < next + es.length

/-- An aligned log with room behind it meets the condition under every cap. -/
theorem WordStorage.Fits.endsVerified {W : RaftNodeInner WordStorage} (h : W.storage.Fits)
    (cfg : RaftConfig) (next : ℕ) : EndsVerified cfg W next := by
  intro hle es hread
  have hlast : W.storage.mem.lastIndex < u64Max := h.last
  have hle' : next ≤ W.storage.mem.lastIndex := hle
  rw [show W.storage.lastIndex = W.storage.mem.lastIndex from rfl, u64Add_of_le (by omega),
    h.readEntries_eq] at hread
  obtain ⟨hlo, -⟩ := range_of_readEntries hread
  obtain ⟨k, hk, hsome⟩ := h.aligned.readEntries_some hlo hle'
    (toU64 (cfg.maxAppendEntries * 4096))
  obtain rfl := Except.ok.inj (hsome.symm.trans hread)
  have hb := Aligned.batch_take h.aligned hlo hle' hk
  obtain ⟨e, he⟩ : ∃ e, ((W.storage.mem.entries.drop (next - W.storage.mem.firstIndex)).take
      k).getLast? = some e := ⟨_, List.getLast?_eq_some_getLast (hb.some hle')⟩
  have hidx := hb.consecutive.index_getLast he
  exact .inr ⟨e, he, by omega⟩

/-- A follower that holds what is in front of a request, and one entry behind it. -/
def holder (term prev prevTerm : ℕ) : RaftNodeInner WordStorage where
  sm := { currentTerm := term }
  storage := ⟨{ entries := [⟨prevTerm, prev + 1, [], .normal⟩]
                snapshot := if prev = 0 then none else some ⟨[], ⟨prev, prevTerm, []⟩⟩ }⟩
  metrics := {}
  pending := []
  snapshotBuf := none

/-- Its snapshot, if it has one, ends there. -/
theorem holder_snapshot {term prev prevTerm : ℕ} {snap : Snapshot}
    (h : (holder term prev prevTerm).storage.mem.snapshot = some snap) :
    snap.metadata.lastIncludedIndex ≤ prev := by
  unfold holder at h
  split at h
  · cases h
  · cases h
    exact Nat.le_refl _

/-- A log whose snapshot ends below a `u64` begins within the words. -/
theorem WordStorage.inRange_of_snapshot {s : WordStorage} {prev : ℕ} (hprev : prev < u64Max)
    (h : ∀ snap, s.mem.snapshot = some snap → snap.metadata.lastIncludedIndex ≤ prev) :
    s.InRange := by
  unfold WordStorage.InRange MemStorage.firstIndex
  cases hs : s.mem.snapshot with
  | none => decide
  | some snap =>
    have := h snap hs
    dsimp only
    omega

/-- The follower that holds just the previous entry is within the words. -/
theorem holder_inRange (term prevTerm : ℕ) {prev : ℕ} (h : prev < u64Max) :
    (holder term prev prevTerm).storage.InRange := by
  unfold WordStorage.InRange MemStorage.firstIndex holder
  by_cases h0 : prev = 0
  · simp [h0]
    decide
  · simp [h0]
    omega

/-- It accepts the request. -/
theorem holder_accepts (req : AppendEntriesRequest) :
    Accepts (holder req.term req.prevLogIndex req.prevLogTerm).toMem req = true := by
  refine (accepts_iff _ _).mpr ⟨Nat.le_refl _, ?_⟩
  by_cases h0 : req.prevLogIndex = 0
  · exact .inl h0
  · refine .inr (.inl ?_)
    show MemStorage.term (holder req.term _ _).storage.mem _ = _
    unfold MemStorage.term holder
    simp [h0]

/-- The commit index behind a request that passes the checks, over machine words. -/
theorem onAppendEntries_commit_words {F : RaftNodeInner WordStorage} {req : AppendEntriesRequest}
    (hrange : F.storage.InRange) (haccepts : Accepts F.toMem req = true) :
    (onAppendEntries req (Turn.start F)).2.sm.commitIndex =
      if req.leaderCommit > F.sm.commitIndex then
        min req.leaderCommit
          (F.storage.mem.appendEntries (req.entries.map protoEntryToLogEntry)).lastIndex
      else F.sm.commitIndex := by
  rw [← (onAppendEntries_toMem hrange req).turn.sm]
  exact onAppendEntries_commit (x := Turn.start F.toMem) haccepts

/-- A request that reaches the commit index, or whose last entry says at most where it ends, lets
nobody commit beyond its end. -/
theorem commit_le_of_request {F : RaftNodeInner WordStorage} {req : AppendEntriesRequest}
    {resp : AppendEntriesResponse} (hrange : F.storage.InRange)
    (hresp : (onAppendEntries req (Turn.start F)).1 = .ok resp) (hok : resp.success = true)
    (hend : req.leaderCommit ≤ req.prevLogIndex + req.entries.length ∨
      ∃ e ∈ (req.entries.map protoEntryToLogEntry).getLast?,
        e.index ≤ req.prevLogIndex + req.entries.length) :
    (onAppendEntries req (Turn.start F)).2.sm.commitIndex ≤
      max F.sm.commitIndex (req.prevLogIndex + req.entries.length) := by
  rw [← (onAppendEntries_toMem hrange req).value] at hresp
  rw [onAppendEntries_commit_words hrange (accepts_of_success hresp hok)]
  split
  · refine Nat.le_trans ?_ (Nat.le_max_right _ _)
    rcases hend with hcommit | ⟨e, he, hindex⟩
    · exact (Nat.min_le_left _ _).trans hcommit
    · rw [lastIndex_append_of_getLast _ he]
      exact (Nat.min_le_right _ _).trans hindex
  · exact Nat.le_max_left _ _

/-- Any other request is accepted by a follower that then commits beyond its end. -/
theorem holder_commits_beyond (req : AppendEntriesRequest) (hprev : req.prevLogIndex < u64Max)
    (hcommit : req.prevLogIndex + req.entries.length < req.leaderCommit)
    (hlast : ∀ e ∈ (req.entries.map protoEntryToLogEntry).getLast?,
      req.prevLogIndex + req.entries.length < e.index) :
    (onAppendEntries req (Turn.start
        (holder req.term req.prevLogIndex req.prevLogTerm))).1 = .ok ⟨req.term, true, 0, 0⟩ ∧
      max 0 (req.prevLogIndex + req.entries.length) < (onAppendEntries req (Turn.start
        (holder req.term req.prevLogIndex req.prevLogTerm))).2.sm.commitIndex := by
  have hrange := holder_inRange req.term req.prevLogTerm hprev
  have haccepts := holder_accepts req
  constructor
  · rw [← (onAppendEntries_toMem hrange req).value]
    exact (onAppendEntries_accepted (x := Turn.start _) haccepts).1
  · have hpos : req.leaderCommit >
        (holder req.term req.prevLogIndex req.prevLogTerm).sm.commitIndex :=
      Nat.zero_lt_of_lt hcommit
    rw [onAppendEntries_commit_words hrange haccepts, if_pos hpos,
      Nat.max_eq_right (Nat.zero_le _)]
    refine Nat.lt_min.mpr ⟨hcommit, ?_⟩
    cases hnil : (req.entries.map protoEntryToLogEntry).getLast? with
    | some e =>
      rw [lastIndex_append_of_getLast _ hnil]
      exact hlast e hnil
    | none =>
      -- the entry behind the previous one stays
      have hempty := List.getLast?_eq_none_iff.mp hnil
      rw [List.map_eq_nil_iff.mp hempty]
      exact Nat.lt_succ_self _

/-- A request with the entries read commits only what it verifies, exactly when these reach up to
the commit index, or say where they end. -/
theorem commitsVerified_iff_of_read {W : RaftNodeInner WordStorage} {pr : Progress}
    (hpr : W.sm.progress.lookup peer = some pr) (hpos : 1 ≤ pr.nextIndex)
    (hword : pr.nextIndex ≤ u64Max) (hle : pr.nextIndex ≤ W.storage.lastIndex)
    {es : List LogEntry}
    (hread : W.storage.readEntries pr.nextIndex (u64Add W.storage.lastIndex 1)
      (some (toU64 (cfg.maxAppendEntries * 4096))) = .ok es) :
    CommitsVerified cfg peer W ↔ W.sm.commitIndex < pr.nextIndex + es.length ∨
      ∃ e ∈ es.getLast?, e.index < pr.nextIndex + es.length := by
  unfold CommitsVerified
  rw [replicateTo_words cfg hpr, u64Sub_of_le hpos, if_pos hle, hread]
  constructor
  · intro h
    by_contra hno
    obtain ⟨hshort, hbehind⟩ := not_or.mp hno
    obtain ⟨hresp, hbeyond⟩ := holder_commits_beyond ⟨W.sm.currentTerm, cfg.id,
        pr.nextIndex - 1, (termOr0 (pr.nextIndex - 1) (Turn.start W)).1,
        es.map logEntryToProtoEntry, W.sm.commitIndex⟩
      (by dsimp only; omega) (by rw [List.length_map]; dsimp only; omega) (by
        intro e he
        rw [map_protoEntryToLogEntry] at he
        rw [List.length_map]
        have hlt : ¬ e.index < pr.nextIndex + es.length := fun hlt => hbehind ⟨e, he, hlt⟩
        dsimp only
        omega)
    exact absurd (h _ _ (List.mem_singleton_self _) (holder _ _ _) _
      (fun _ hsnap => holder_snapshot hsnap) hresp rfl) (Nat.not_le.mpr hbeyond)
  · intro h last req hsent F resp hsnap hresp hok
    cases List.mem_singleton.mp hsent
    refine commit_le_of_request (WordStorage.inRange_of_snapshot (by dsimp only; omega) hsnap)
      hresp hok ?_
    rw [map_protoEntryToLogEntry, List.length_map]
    rcases h with hend | ⟨e, he, hend⟩
    · left
      show W.sm.commitIndex ≤ pr.nextIndex - 1 + es.length
      omega
    · right
      refine ⟨e, he, ?_⟩
      show e.index ≤ pr.nextIndex - 1 + es.length
      omega

/-- **A follower commits only what the request has verified, exactly when the entries read for
it say where they end.**  Its own last index, to which the code cuts the leader's commit index,
is no bound of that: after a batch of a misaligned log it is the index field of the last entry,
and when the end of the range wraps around nothing is read.  An aligned log whose next index is
a `u64` always meets the condition.
SRCLINE: iceraft-node/src/node.rs:344-367, 574-637 -/
theorem follower_commits_verified_iff (cfg : RaftConfig) (peer : NodeId)
    (W : RaftNodeInner WordStorage) (pr : Progress) (hpr : W.sm.progress.lookup peer = some pr)
    (hcommit : W.sm.commitIndex ≤ W.storage.lastIndex)
    (hpos : 1 ≤ pr.nextIndex) (hword : pr.nextIndex ≤ u64Max)
    (hnext : pr.nextIndex ≤ W.storage.lastIndex + 1) :
    (CommitsVerified cfg peer W ↔ EndsVerified cfg W pr.nextIndex) ∧
      (W.storage.Fits → CommitsVerified cfg peer W) := by
  have hiff : CommitsVerified cfg peer W ↔ EndsVerified cfg W pr.nextIndex := by
    unfold EndsVerified
    by_cases hle : pr.nextIndex ≤ W.storage.lastIndex
    · cases hread : W.storage.readEntries pr.nextIndex (u64Add W.storage.lastIndex 1)
          (some (toU64 (cfg.maxAppendEntries * 4096))) with
      | ok es =>
        rw [commitsVerified_iff_of_read hpr hpos hword hle hread]
        constructor
        · intro h _ es' hes'
          obtain rfl := Except.ok.inj hes'
          exact h
        · exact fun h => h hle es rfl
      | error e =>
        -- nothing but a snapshot goes out
        refine iff_of_true (fun last req hsent => ?_) (fun _ es hes => ?_)
        · rw [replicateTo_words cfg hpr, if_pos hle, hread] at hsent
          cases e with
          | logCompacted r f => exact absurd hsent not_mem_sendSnapshotTo
          | _ => exact absurd hsent List.not_mem_nil
        · cases hes
    · -- nothing is left to send, so the previous entry is the leader's last
      refine iff_of_true (fun last req hsent F resp hsnap hresp hok => ?_) fun h => absurd h hle
      rw [replicateTo_words cfg hpr, u64Sub_of_le hpos, if_neg hle] at hsent
      cases List.mem_singleton.mp hsent
      refine commit_le_of_request (WordStorage.inRange_of_snapshot (by dsimp only; omega) hsnap)
        hresp hok (.inl ?_)
      show W.sm.commitIndex ≤ pr.nextIndex - 1 + 0
      omega
  exact ⟨hiff, fun hfits => hiff.mpr (hfits.endsVerified cfg pr.nextIndex)⟩

/-- The request of this leader commits only what is verified, as far as its commit index goes. -/
theorem follower_commits_verified_iff_compactedLeader :
    (CommitsVerified { id := 1, peers := [2, 3] } 2 compactedLeader ↔
        EndsVerified { id := 1, peers := [2, 3] } compactedLeader 3) ∧
      (compactedLeader.storage.Fits →
        CommitsVerified { id := 1, peers := [2, 3] } 2 compactedLeader) :=
  follower_commits_verified_iff _ 2 compactedLeader ⟨3, 0, false⟩ (by decide +kernel) (by decide)
    (by decide) (by decide) (by decide)

/-- 2000 bytes. -/
def block : Bytes := List.replicate 2000 0

/-- Node 1 takes a snapshot at index 5, entries 6 and 7, the older snapshot at index 3, and the
entries once more, which now stand behind themselves; then it is elected in term 2, and peer 2
refuses its heartbeat with a hint at index 4. -/
def misalignedLeader : RaftNodeInner WordStorage :=
  ((Process.boot ⟨.new⟩ : Process WordStorage).exec ⟨1, [2, 3], 100, 300, 600, 1⟩
    [(.installSnapshot ⟨1, 3, 5, 1, 0, [], true⟩, none),
      (.appendEntries ⟨1, 3, 5, 1, [⟨1, 6, block, 0⟩, ⟨1, 7, block, 0⟩], 5⟩, none),
      (.installSnapshot ⟨1, 3, 3, 1, 0, [], true⟩, none),
      (.appendEntries ⟨1, 3, 5, 1, [⟨1, 6, block, 0⟩, ⟨1, 7, block, 0⟩], 7⟩, none),
      (.timer true false, none), (.message (.voteResponse 2 ⟨2, true⟩), none),
      (.message (.appendResponse 2 7 ⟨2, false, 4, 1⟩), none)]).node

/-- The positions 4 and 5 hold the entries 6 and 7. -/
def misalignedRequest : AppendEntriesRequest :=
  ⟨2, 1, 3, 1, [⟨1, 6, block, 0⟩, ⟨1, 7, block, 0⟩], 7⟩

/-- A follower with three entries. -/
def shortFollower : RaftNodeInner WordStorage where
  sm := { currentTerm := 1 }
  storage := ⟨{ entries := [⟨1, 1, [], .normal⟩, ⟨1, 2, [], .normal⟩, ⟨1, 3, [], .normal⟩] }⟩
  metrics := {}
  pending := []
  snapshotBuf := none

/-- The AppendEntries requests for a peer among some effects. -/
def sentAppends (peer : NodeId) (es : List Effect) : List (ℕ × AppendEntriesRequest) :=
  es.filterMap fun
    | .spawned (.appendEntries p last req) => if p = peer then some (last, req) else none
    | _ => none

/-- The batches sent are among the effects. -/
theorem mem_of_sentAppends {es : List Effect} {last : ℕ} {req : AppendEntriesRequest}
    (h : (last, req) ∈ sentAppends peer es) : Effect.spawned (.appendEntries peer last req) ∈ es := by
  obtain ⟨e, he, hreq⟩ := List.mem_filterMap.mp h
  split at hreq
  · split at hreq
    · rename_i hpeer
      cases hreq
      rw [← hpeer]
      exact he
    · cases hreq
  · cases hreq

/-- A leader whose log is not aligned makes a follower commit 7 when 5 is verified. -/
theorem unverified_commit :
    misalignedLeader.sm.role = .leader ∧
      misalignedLeader.sm.progress.lookup 2 = some ⟨4, 0, false⟩ ∧
      misalignedLeader.sm.commitIndex ≤ misalignedLeader.storage.lastIndex ∧
      ¬ CommitsVerified ⟨1, [2, 3], 100, 300, 600, 1⟩ 2 misalignedLeader := by
  refine ⟨by decide +kernel, by decide +kernel, by decide +kernel, fun hverified => ?_⟩
  have hsent : sentAppends 2 (replicateTo ⟨1, [2, 3], 100, 300, 600, 1⟩ 2
      (Turn.start misalignedLeader)).effects = [(5, misalignedRequest)] := by decide +kernel
  have hmem : (5, misalignedRequest) ∈ sentAppends 2 (replicateTo ⟨1, [2, 3], 100, 300, 600, 1⟩ 2
      (Turn.start misalignedLeader)).effects := hsent ▸ List.mem_singleton_self _
  have hrange : shortFollower.storage.InRange := by decide
  have haccepts : Accepts shortFollower.toMem misalignedRequest = true := by decide +kernel
  have hresp : (onAppendEntries misalignedRequest (Turn.start shortFollower)).1 =
      .ok ⟨2, true, 0, 0⟩ := by
    rw [← (onAppendEntries_toMem hrange misalignedRequest).value]
    exact (onAppendEntries_accepted (x := Turn.start _) haccepts).1
  have hcommit : (onAppendEntries misalignedRequest (Turn.start shortFollower)).2.sm.commitIndex =
      7 := by decide +kernel
  have hle := hverified 5 misalignedRequest (mem_of_sentAppends hmem) shortFollower _
    (fun snap hs => by cases hs) hresp rfl
  rw [hcommit] at hle
  exact absurd hle (by decide)

end IceRaft
