import IceRaft.Analysis.FollowerTurns
import IceRaft.Analysis.LeaderTurns
import IceRaft.Model.Cluster

/-!
# A lagging follower catches up

A leader and one of its peers exchange requests and responses in lock-step.  At first the
next index falls until the previous entry matches or a snapshot takes over; then the match
index rises with every batch until it is the last index of the leader.
-/

set_option autoImplicit false

namespace IceRaft

open MemStorage Cluster NodeTurn

/-- One round: `replicate_to`, the handler of the peer, and the handler of the response. -/
def exchange {σ : Type} [Storage σ] (cfg peerCfg : RaftConfig) (peer : NodeId)
    (pair : RaftNodeInner σ × RaftNodeInner σ) : RaftNodeInner σ × RaftNodeInner σ :=
  let sent := NodeTurn.replicateTo cfg peer (Turn.start pair.1)
  match sent.effects.getLast? with
  | some (.spawned task) =>
    let handled := NodeTurn.run peerCfg task.input (Turn.start pair.2)
    match handled.effects.getLast? with
    | some (.replied reply) =>
      match task.response cfg.id reply with
      | some (.response _ msg) =>
        ((NodeTurn.handleMessage cfg msg (Turn.start sent.node)).node, handled.node)
      | _ => (sent.node, handled.node)
    | _ => (sent.node, handled.node)
  | _ => (sent.node, pair.2)

/-! ## The leader's half -/

/-- A leader of `term` with the log of `s` and the progress `pr` of `peer`. -/
structure Leading (s : MemStorage) (term : ℕ) (peer : NodeId) (pr : Progress)
    (n : RaftNodeInner MemStorage) : Prop where
  role : n.sm.role = .leader
  term : n.sm.currentTerm = term
  progress : n.sm.progress.lookup peer = some pr
  entries : n.storage.entries = s.entries
  snapshot : n.storage.snapshot = s.snapshot

variable {s : MemStorage} {term : ℕ} {peer : NodeId} {pr : Progress} (cfg : RaftConfig)

/-- The log of a leader at work is the one it had. -/
theorem Leading.storage {n : RaftNodeInner MemStorage} (h : Leading s term peer pr n) :
    n.storage = { s with hardState := n.storage.hardState } :=
  eq_of_log h.entries h.snapshot

/-- A response moves the progress of the peer and nothing else that matters here. -/
theorem Leading.progressed {x : NodeTurn MemStorage} (h : Leading s term peer pr x.node)
    (f : Progress → Progress) : Leading s term peer (f pr)
      ((x.modifySm (updateProgress peer f)).maybeAdvanceCommit cfg).node := by
  obtain ⟨hsm, hentries, hsnap⟩ := maybeAdvanceCommit_node cfg
    (x.modifySm (updateProgress peer f))
  have hnode : (x.modifySm (updateProgress peer f)).node.sm =
      { x.node.sm with progress := x.node.sm.progress.insert peer (f pr) } := by
    show updateProgress peer f x.node.sm = _
    unfold updateProgress
    rw [h.progress]
  rw [hnode] at hsm
  refine ⟨?_, ?_, ?_, hentries.trans h.entries, hsnap.trans h.snapshot⟩
  · rw [hsm]
    exact h.role
  · rw [hsm]
    exact h.term
  · rw [hsm]
    exact AList.lookup_insert _

/-- A response moves the progress of its peer, and nothing else that matters here. -/
theorem Leading.response {x : NodeTurn MemStorage} (h : Leading s term peer pr x.node)
    {f : Progress → Progress} {respTerm : ℕ} (hresp : respTerm ≤ term) :
    Leading s term peer (f pr) (x.handleResponse cfg peer f respTerm).node := by
  have hle : respTerm ≤ x.sm.currentTerm := by
    rw [show x.sm.currentTerm = term from h.term]
    exact hresp
  rw [NodeTurn.handleResponse_of_leader cfg peer f h.role hle]
  exact h.progressed cfg f

/-- So does the response to a batch. -/
theorem Leading.appendResponse {x : NodeTurn MemStorage} (h : Leading s term peer pr x.node)
    {last : ℕ} {resp : AppendEntriesResponse} (hresp : resp.term ≤ term) :
    Leading s term peer (progressAfterAppend last resp pr)
      (x.handleAppendResponse cfg peer last resp).node := h.response cfg hresp

/-- So does the response to a snapshot. -/
theorem Leading.snapshotResponse {x : NodeTurn MemStorage} (h : Leading s term peer pr x.node)
    {last : ℕ} {resp : InstallSnapshotResponse} (hresp : resp.term ≤ term) :
    Leading s term peer (progressAfterSnapshot last pr)
      (x.handleSnapshotResponse cfg peer last resp).node := h.response cfg hresp

/-- The entries of a request that begins at `next`: consecutive, those of the log, and at
least one when there is one. -/
structure Batch (s : MemStorage) (next : ℕ) (es : List LogEntry) : Prop where
  consecutive : Consecutive next es
  get : ∀ k (h : k < es.length), s.get? (next + k) = some es[k]
  upto : next + es.length ≤ s.lastIndex + 1
  some : next ≤ s.lastIndex → es ≠ []

/-- Behind the end of the log the batch is empty. -/
theorem Aligned.batch_nil (next : ℕ) (hlast : next = s.lastIndex + 1) : Batch s next [] where
  consecutive _ hk := nomatch hk
  get _ hk := nomatch hk
  upto := by
    rw [List.length_nil]
    omega
  some hle := by omega

/-- In the log the batch is a piece of it. -/
theorem Aligned.batch_take (h : s.Aligned) {next k : ℕ} (hlo : s.firstIndex ≤ next)
    (hhi : next ≤ s.lastIndex) (hk : 0 < k) :
    Batch s next ((s.entries.drop (next - s.firstIndex)).take k) := by
  have hlast := h.lastIndex_succ
  refine ⟨h.consecutive_drop hlo k, ?_, ?_, ?_⟩
  · intro j hj
    rw [List.length_take, List.length_drop] at hj
    rw [h.get?_eq (by omega), List.getElem_take, List.getElem_drop,
      show next + j - s.firstIndex = next - s.firstIndex + j by omega, List.getElem?_eq_getElem]
  · rw [List.length_take, List.length_drop]
    omega
  · intro _ hnil
    have := congrArg List.length hnil
    rw [List.length_take, List.length_drop, List.length_nil] at this
    omega

/-- A leader whose log reaches down to the next index sends entries. -/
theorem Leading.sendsAppend {x : NodeTurn MemStorage} (h : Leading s term peer pr x.node)
    (halign : s.Aligned) (hlo : s.firstIndex ≤ pr.nextIndex)
    (hhi : pr.nextIndex ≤ s.lastIndex + 1) :
    ∃ es, Batch s pr.nextIndex es ∧ x.replicateTo cfg peer =
      x.effect (.spawned (.appendEntries peer (pr.nextIndex - 1 + es.length)
        { term := term, leaderId := cfg.id, prevLogIndex := pr.nextIndex - 1,
          prevLogTerm := unwrapOr (s.term (pr.nextIndex - 1)) 0,
          entries := es.map logEntryToProtoEntry, leaderCommit := x.sm.commitIndex })) := by
  have hone := s.one_le_firstIndex
  have hprev : (if pr.nextIndex - 1 > 0 then unwrapOr (x.node.storage.term (pr.nextIndex - 1)) 0
      else 0) = unwrapOr (s.term (pr.nextIndex - 1)) 0 := by
    rw [h.storage]
    split
    · rfl
    · rename_i h0
      rw [show pr.nextIndex - 1 = 0 by omega]
      rfl
  have hlast : x.node.storage.lastIndex = s.lastIndex := by
    rw [h.storage]
    rfl
  have hterm : x.sm.currentTerm = term := h.term
  unfold NodeTurn.replicateTo
  rw [show x.sm.progress.lookup peer = some pr from h.progress]
  dsimp only
  rw [u64Sub_of_le (by omega), termOr0_eq]
  dsimp only
  rw [lastIndexOr0_eq]
  dsimp only
  rw [hprev]
  by_cases hge : pr.nextIndex ≤ s.lastIndex
  · obtain ⟨k, hk, hread⟩ := halign.readEntries_some hlo hge (cfg.maxAppendEntries * 4096)
    have hread' : x.node.storage.readEntries pr.nextIndex (x.node.storage.lastIndex + 1)
        (some (cfg.maxAppendEntries * 4096)) =
          .ok ((s.entries.drop (pr.nextIndex - s.firstIndex)).take k) := by
      rw [h.storage]
      exact hread
    rw [if_pos (hge.trans_eq hlast.symm), read_entries, hread']
    refine ⟨_, Aligned.batch_take halign hlo hge hk, ?_⟩
    dsimp only
    unfold NodeTurn.sendAppend
    rw [List.length_map, hterm]
  · rw [if_neg fun hle => hge (hle.trans_eq hlast)]
    refine ⟨[], Aligned.batch_nil _ (by omega), ?_⟩
    unfold NodeTurn.sendAppend
    rw [hterm]
    rfl

/-- A leader that has compacted the next index sends its snapshot. -/
theorem Leading.sendsSnapshot {x : NodeTurn MemStorage} (h : Leading s term peer pr x.node)
    (halign : s.Aligned) (hone : 1 ≤ pr.nextIndex) (hlt : pr.nextIndex < s.firstIndex) :
    ∃ snap : Snapshot, s.snapshot = some snap ∧ x.replicateTo cfg peer =
      x.effect (.spawned (.installSnapshot peer snap.metadata.lastIncludedIndex
        { term := term, leaderId := cfg.id,
          lastIncludedIndex := snap.metadata.lastIncludedIndex,
          lastIncludedTerm := snap.metadata.lastIncludedTerm,
          offset := 0, data := snap.data, done := true })) := by
  have hend := halign.lastIndex_succ
  obtain ⟨snap, hsnap⟩ : ∃ snap, s.snapshot = some snap := by
    cases hs : s.snapshot with
    | none =>
      rw [firstIndex_of_none hs] at hlt
      omega
    | some snap => exact ⟨snap, rfl⟩
  have hlast : x.node.storage.lastIndex = s.lastIndex := by
    rw [h.storage]
    rfl
  have hread : x.node.storage.readEntries pr.nextIndex (x.node.storage.lastIndex + 1)
      (some (cfg.maxAppendEntries * 4096)) = .error (.logCompacted pr.nextIndex s.firstIndex) := by
    have hfirst : x.node.storage.firstIndex = s.firstIndex := by
      rw [h.storage]
      rfl
    rw [← hfirst] at hlt ⊢
    exact readEntries_compacted _ _ hlt
  refine ⟨snap, hsnap, ?_⟩
  unfold NodeTurn.replicateTo
  rw [show x.sm.progress.lookup peer = some pr from h.progress]
  dsimp only
  rw [termOr0_eq]
  dsimp only
  rw [lastIndexOr0_eq]
  dsimp only
  rw [if_pos (by omega), read_entries, hread]
  dsimp only
  unfold NodeTurn.sendSnapshotTo
  rw [read_snapshot, h.snapshot, hsnap]
  dsimp only
  rw [show x.sm.currentTerm = term from h.term]

/-! ## A round -/

variable (peerCfg : RaftConfig) {L F : RaftNodeInner MemStorage} {last : ℕ}

section Rounds

variable {σ : Type} [Storage σ] [PureReads σ] {leader follower : RaftNodeInner σ}

/-- A round in which entries are sent. -/
theorem exchange_append {req : AppendEntriesRequest} {resp : AppendEntriesResponse}
    (hsent : (NodeTurn.replicateTo cfg peer (Turn.start leader)).effects =
      [.spawned (.appendEntries peer last req)])
    (hresp : (NodeTurn.onAppendEntries req (Turn.start follower)).1 = .ok resp) :
    exchange cfg peerCfg peer (leader, follower) =
      ((NodeTurn.handleAppendResponse cfg peer last resp (Turn.start leader)).node,
        (NodeTurn.onAppendEntries req (Turn.start follower)).2.node) := by
  have hlast : (NodeTurn.run peerCfg (.appendEntries req) (Turn.start follower)).effects.getLast? =
      some (.replied (.appendEntries req (.ok resp))) := by
    show (NodeTurn.effect _ _).effects.getLast? = _
    rw [hresp, Turn.emit_effects, List.getLast?_concat]
  unfold exchange
  dsimp only
  rw [hsent, NodeTurn.replicateTo_node]
  dsimp only [RpcTask.input, List.getLast?_singleton]
  rw [hlast]
  rfl

/-- A round in which a snapshot is sent. -/
theorem exchange_snapshot {req : InstallSnapshotRequest} {resp : InstallSnapshotResponse}
    (hsent : (NodeTurn.replicateTo cfg peer (Turn.start leader)).effects =
      [.spawned (.installSnapshot peer last req)])
    (hresp : (NodeTurn.onInstallSnapshot req (Turn.start follower)).1 = .ok resp) :
    exchange cfg peerCfg peer (leader, follower) =
      ((NodeTurn.handleSnapshotResponse cfg peer last resp (Turn.start leader)).node,
        (NodeTurn.onInstallSnapshot req (Turn.start follower)).2.node) := by
  have hlast : (NodeTurn.run peerCfg (.installSnapshot req)
      (Turn.start follower)).effects.getLast? = some (.replied (.installSnapshot req (.ok resp))) := by
    show (NodeTurn.effect _ _).effects.getLast? = _
    rw [hresp, Turn.emit_effects, List.getLast?_concat]
  unfold exchange
  dsimp only
  rw [hsent, NodeTurn.replicateTo_node]
  dsimp only [RpcTask.input, List.getLast?_singleton]
  rw [hlast]
  rfl

end Rounds

/-! ## Agreement -/

/-- The log `f` agrees with `s` from the first index of `s` up to `m`, and a request whose
previous entry is `m` passes its check. -/
structure Agreed (s f : MemStorage) (m : ℕ) : Prop where
  aligned : f.Aligned
  first : f.firstIndex ≤ m + 1
  last : m ≤ f.lastIndex
  prev : m = 0 ∨ f.term m = .ok (unwrapOr (s.term m) 0)
  same : ∀ i, s.firstIndex ≤ i → i ≤ m → f.get? i = s.get? i

/-- Equal index and term means equal entries, at every index up to it that both hold. -/
def LogsMatch (s f : MemStorage) : Prop :=
  ∀ i a b, s.get? i = some a → f.get? i = some b → a.term = b.term →
    ∀ j ≤ i, ∀ a' b', s.get? j = some a' → f.get? j = some b' → a' = b'

variable {f : MemStorage} {es : List LogEntry} {m : ℕ}

/-- A batch extends the agreement to its end. -/
theorem Agreed.extend (hs : s.Aligned) (h : Agreed s f m) (hb : Batch s (m + 1) es) :
    Agreed s (f.appendEntries es) (m + es.length) := by
  rcases List.eq_nil_or_concat es with rfl | ⟨init, e, hes⟩
  · exact h
  · have hne : es ≠ [] := by simp [hes]
    have hpos := List.length_pos_iff.mpr hne
    have hsame : ∀ i, s.firstIndex ≤ i → i ≤ m + es.length →
        (f.appendEntries es).get? i = s.get? i := by
      intro i hlo hhi
      rw [h.aligned.get?_batch hb.consecutive hne h.first h.last]
      split
      · exact h.same i hlo ‹_›
      · have hk : i - (m + 1) < es.length := by omega
        rw [hb.consecutive.find? (by omega), List.getElem?_eq_getElem hk, ← hb.get _ hk]
        congr 1
        omega
    have hupto := hb.upto
    have hend := hb.get (es.length - 1) (by omega)
    rw [show m + 1 + (es.length - 1) = m + es.length by omega] at hend
    obtain ⟨hlo, -, hterm⟩ := hs.term_of_get? hend
    have halign := h.aligned.append_batch hb.consecutive hne h.first h.last
    refine ⟨halign, ?_, ?_, .inr ?_, hsame⟩
    · rw [appendEntries_firstIndex]
      exact h.first.trans (by omega)
    · rw [h.aligned.lastIndex_batch hb.consecutive hne h.first h.last]
    · rw [hterm]
      exact (halign.term_of_get? ((hsame _ hlo (Nat.le_refl _)).trans hend)).2.2

/-- An uncompacted log that passes the check at `m` agrees up to `m`. -/
theorem agreed_of_match (hs : s.Aligned) (hf : f.Aligned) (hone : f.firstIndex = 1)
    (hmatch : LogsMatch s f) (hlast : m ≤ s.lastIndex)
    (hprev : m = 0 ∨ f.term m = .ok (unwrapOr (s.term m) 0)) : Agreed s f m := by
  have hpos := s.one_le_firstIndex
  rcases Nat.eq_zero_or_pos m with rfl | hm
  · refine ⟨hf, by omega, Nat.zero_le _, .inl rfl, ?_⟩
    intro i hlo hhi
    omega
  · have hok : f.term m = .ok (unwrapOr (s.term m) 0) := hprev.resolve_left (by omega)
    have hle := hf.le_lastIndex hok
    refine ⟨hf, by omega, hle, .inr hok, ?_⟩
    intro i hlo hhi
    obtain ⟨a, ha⟩ := hs.get?_isSome (i := m) (by omega) hlast
    obtain ⟨b, hb⟩ := hf.get?_isSome (i := m) (by omega) hle
    have hterms : a.term = b.term := by
      rw [(hf.term_of_get? hb).2.2, (hs.term_of_get? ha).2.2] at hok
      exact (Except.ok.inj hok).symm
    obtain ⟨a', ha'⟩ := hs.get?_isSome hlo (hhi.trans hlast)
    obtain ⟨b', hb'⟩ := hf.get?_isSome (i := i) (by omega) (hhi.trans hle)
    rw [ha', hb', hmatch m a b ha hb hterms i hhi a' b' ha' hb']

/-! ## The two phases -/

/-- The peer has no buffered chunk and no later term. -/
structure Ready (term : ℕ) (n : RaftNodeInner MemStorage) : Prop where
  snapshotBuf : n.snapshotBuf = none
  term : n.sm.currentTerm ≤ term

/-- The next index is still falling. -/
structure Probing (s f : MemStorage) (term : ℕ) (peer : NodeId) (next : ℕ)
    (pair : RaftNodeInner MemStorage × RaftNodeInner MemStorage) : Prop where
  leading : ∃ pr, Leading s term peer pr pair.1 ∧ pr.nextIndex = next ∧ pr.matchIndex = 0
  ready : Ready term pair.2
  entries : pair.2.storage.entries = f.entries
  snapshot : pair.2.storage.snapshot = f.snapshot

/-- The peer agrees up to the match index. -/
structure Matched (s : MemStorage) (term : ℕ) (peer : NodeId) (m : ℕ)
    (pair : RaftNodeInner MemStorage × RaftNodeInner MemStorage) : Prop where
  leading : ∃ pr, Leading s term peer pr pair.1 ∧ pr.nextIndex = m + 1 ∧ pr.matchIndex = m
  ready : Ready term pair.2
  agreed : Agreed s pair.2.storage m
  first : s.firstIndex ≤ m + 1
  last : m ≤ s.lastIndex

/-- A round in which the peer agrees at the previous entry. -/
theorem Agreed.round (hs : s.Aligned) (hL : Leading s term peer pr L) (hF : Ready term F)
    (hnext : pr.nextIndex = m + 1) (hmatch : pr.matchIndex ≤ m) (hfirst : s.firstIndex ≤ m + 1)
    (hlast : m ≤ s.lastIndex) (h : Agreed s F.storage m) :
    ∃ m', (m < s.lastIndex → m < m') ∧
      Matched s term peer m' (exchange cfg peerCfg peer (L, F)) := by
  obtain ⟨es, hb, hsent⟩ := Leading.sendsAppend cfg (x := Turn.start L) hL hs
    (by omega) (by omega)
  rw [hnext, Nat.add_sub_cancel] at hsent
  rw [hnext] at hb
  generalize hreq : (⟨term, cfg.id, m, unwrapOr (s.term m) 0, es.map logEntryToProtoEntry,
    (NodeTurn.sm (Turn.start L)).commitIndex⟩ : AppendEntriesRequest) = req at hsent
  have haccepts : Accepts F req = true := by
    rw [accepts_iff, ← hreq]
    exact ⟨hF.term, h.prev.imp_right .inl⟩
  obtain ⟨hresp, hnode⟩ := onAppendEntries_accepted (x := Turn.start F) haccepts
  have hreqterm : req.term = term := by rw [← hreq]
  have hbatch : req.entries.map protoEntryToLogEntry = es := by
    rw [← hreq]
    exact map_protoEntryToLogEntry es
  have hstore : F.storage.appendEntries es =
      { (NodeTurn.onAppendEntries req (Turn.start F)).2.node.storage with
        hardState := (F.storage.appendEntries es).hardState } := by
    refine eq_of_log ?_ ?_
    · rw [hnode.entries, hbatch]
      rfl
    · rw [hnode.snapshot, appendEntries_snapshot]
      rfl
  have hupto := hb.upto
  have hext := h.extend hs hb
  rw [exchange_append cfg peerCfg (congrArg Turn.effects hsent) hresp]
  refine ⟨m + es.length, ?_, ⟨?_, ?_, ?_, by omega, by omega⟩⟩
  · intro hlt
    have := List.length_pos_iff.mpr (hb.some (by omega))
    omega
  · refine ⟨_, Leading.appendResponse cfg (x := Turn.start L) hL hreqterm.le, ?_, ?_⟩
    · show max pr.matchIndex (m + es.length) + 1 = m + es.length + 1
      omega
    · show max pr.matchIndex (m + es.length) = m + es.length
      omega
  · exact ⟨hnode.snapshotBuf.trans hF.snapshotBuf, (hnode.term.trans hreqterm).le⟩
  · rw [hstore] at hext
    exact ⟨hext.aligned, hext.first, hext.last, hext.prev, hext.same⟩

/-- A refusal with a hint moves the next index there. -/
theorem progressAfterAppend_reject {c t : ℕ} (hc : 0 < c) :
    progressAfterAppend last (reject c t term) pr = { pr with nextIndex := c } := by
  unfold progressAfterAppend
  rw [if_neg (show (reject c t term).success ≠ true from Bool.false_ne_true)]
  exact if_pos hc

/-- A round in which the previous entry does not match. -/
theorem Probing.refused (hs : s.Aligned) (hL : Leading s term peer pr L) (hF : Ready term F)
    (hone : F.storage.firstIndex = 1) (hpos : 1 ≤ pr.nextIndex)
    (hfirst : s.firstIndex ≤ pr.nextIndex) (hlast : pr.nextIndex ≤ s.lastIndex + 1)
    (hzero : pr.matchIndex = 0)
    (hprev : ¬ (pr.nextIndex - 1 = 0 ∨
      F.storage.term (pr.nextIndex - 1) = .ok (unwrapOr (s.term (pr.nextIndex - 1)) 0))) :
    ∃ next, 1 ≤ next ∧ next < pr.nextIndex ∧
      Probing s F.storage term peer next (exchange cfg peerCfg peer (L, F)) := by
  obtain ⟨hne, hterm⟩ := not_or.mp hprev
  obtain ⟨es, -, hsent⟩ := Leading.sendsAppend cfg (x := Turn.start L) hL hs
    hfirst hlast
  generalize hreq : (⟨term, cfg.id, pr.nextIndex - 1, unwrapOr (s.term (pr.nextIndex - 1)) 0,
    es.map logEntryToProtoEntry, (NodeTurn.sm (Turn.start L)).commitIndex⟩ :
      AppendEntriesRequest) = req at hsent
  have hreqterm : req.term = term := by rw [← hreq]
  have hreqprev : req.prevLogIndex = pr.nextIndex - 1 := by rw [← hreq]
  have hnot : ¬ PrevOk F.storage req := by
    rw [← hreq]
    rintro (h0 | hok | ⟨r, c, herr⟩)
    · exact hne h0
    · exact hterm hok
    · have herr' : F.storage.term (pr.nextIndex - 1) = .error (.logCompacted r c) := herr
      rw [term_of_firstIndex_le (by omega)] at herr'
      unfold termInLog at herr'
      rw [if_neg (by omega)] at herr'
      split at herr'
      · cases herr'
      · cases herr'
  have hrefused : Accepts F req = false :=
    Bool.eq_false_iff.mpr fun hacc => hnot ((accepts_iff _ _).mp hacc).2
  obtain ⟨c, t, hresp, hc1, hc, hnode⟩ := onAppendEntries_refused (x := Turn.start F)
    (hF.term.trans_eq hreqterm.symm)
    (by show F.storage.firstIndex ≤ req.prevLogIndex; omega) hrefused
  have hL' : Leading s term peer { pr with nextIndex := c } (NodeTurn.handleAppendResponse cfg peer
      (pr.nextIndex - 1 + es.length) (reject c t req.term) (Turn.start L)).node := by
    rw [← progressAfterAppend_reject hc1]
    exact Leading.appendResponse cfg (x := Turn.start L) hL hreqterm.le
  rw [exchange_append cfg peerCfg (congrArg Turn.effects hsent) hresp]
  refine ⟨c, hc1, by omega, ⟨_, hL', rfl, hzero⟩, ?_, hnode.entries, hnode.snapshot⟩
  exact ⟨hnode.snapshotBuf.trans hF.snapshotBuf, (hnode.term.trans hreqterm).le⟩

/-- A round in which a snapshot is sent. -/
theorem Probing.installed (hs : s.Aligned) (hL : Leading s term peer pr L) (hF : Ready term F)
    (halign : F.storage.Aligned) (hone : F.storage.firstIndex = 1) (hpos : 1 ≤ pr.nextIndex)
    (hcompacted : pr.nextIndex < s.firstIndex) (hzero : pr.matchIndex = 0) :
    ∃ m, Matched s term peer m (exchange cfg peerCfg peer (L, F)) := by
  obtain ⟨snap, hsnap, hsent⟩ := Leading.sendsSnapshot cfg (x := Turn.start L) hL hs
    hpos hcompacted
  have hfirst := firstIndex_of_some hsnap
  have hend := hs.lastIndex_succ
  obtain ⟨hresp, hnode⟩ := @onInstallSnapshot_whole (Turn.start F)
    ⟨term, cfg.id, snap.metadata.lastIncludedIndex, snap.metadata.lastIncludedTerm, 0,
      snap.data, true⟩ hF.term rfl hF.snapshotBuf
  generalize hsnap' : InstallSnapshotRequest.snapshot _ = snap' at hnode
  have hidx : snap'.metadata.lastIncludedIndex = snap.metadata.lastIncludedIndex := by
    rw [← hsnap']
    rfl
  have hterm' : snap'.metadata.lastIncludedTerm = snap.metadata.lastIncludedTerm := by
    rw [← hsnap']
    rfl
  rw [exchange_snapshot cfg peerCfg (congrArg Turn.effects hsent) hresp]
  generalize (NodeTurn.onInstallSnapshot _ (Turn.start F)).2.node = F' at hnode
  have hlo : F.storage.firstIndex ≤ snap'.metadata.lastIncludedIndex + 1 := by omega
  have hstore : F'.storage = { F.storage.applySnapshot snap' with
      hardState := F'.storage.hardState } := eq_of_log hnode.entries hnode.snapshot
  have halign' := halign.applySnapshot hlo
  have hlast' := halign.lastIndex_applySnapshot hlo
  have hsterm : s.term snap.metadata.lastIncludedIndex = .ok snap.metadata.lastIncludedTerm := by
    unfold MemStorage.term
    rw [if_neg (by omega), hsnap]
    dsimp only
    rw [if_pos (Nat.le_refl _), if_pos rfl]
  refine ⟨snap.metadata.lastIncludedIndex,
    ⟨_, Leading.snapshotResponse cfg (x := Turn.start L) hL (Nat.le_refl _), ?_, ?_⟩,
    ⟨hnode.snapshotBuf, hnode.term.le⟩, ⟨?_, ?_, ?_, .inr ?_, ?_⟩, by omega, by omega⟩
  · show max pr.matchIndex _ + 1 = _
    omega
  · show max pr.matchIndex _ = _
    omega
  · rw [hstore]
    exact halign'
  · rw [hstore, ← hidx]
    exact Nat.le_refl _
  · rw [hstore]
    show _ ≤ (F.storage.applySnapshot snap').lastIndex
    omega
  · rw [hsterm, hstore]
    unfold MemStorage.term
    rw [if_neg (by omega)]
    dsimp only [MemStorage.applySnapshot]
    rw [hidx, if_pos (Nat.le_refl _), if_pos rfl, hterm']
    rfl
  · intro i hi hi'
    omega

/-- One round of the first phase. -/
theorem Probing.round (hs : s.Aligned) (hf : f.Aligned) (hone : f.firstIndex = 1)
    (hmatch : LogsMatch s f) {next : ℕ} (hpos : 1 ≤ next) (hlast : next ≤ s.lastIndex + 1)
    {pair : RaftNodeInner MemStorage × RaftNodeInner MemStorage}
    (h : Probing s f term peer next pair) :
    (∃ next', 1 ≤ next' ∧ next' < next ∧
      Probing s f term peer next' (exchange cfg peerCfg peer pair)) ∨
    ∃ m, Matched s term peer m (exchange cfg peerCfg peer pair) := by
  obtain ⟨L, F⟩ := pair
  obtain ⟨⟨pr, hL, rfl, hzero⟩, hready, hentries, hsnapshot⟩ := h
  have hstore : F.storage = { f with hardState := F.storage.hardState } :=
    eq_of_log hentries hsnapshot
  have hF : F.storage.Aligned := by
    rw [hstore]
    exact hf
  have hFone : F.storage.firstIndex = 1 := by
    rw [hstore]
    exact hone
  have hFmatch : LogsMatch s F.storage := by
    rw [hstore]
    exact hmatch
  by_cases hcompacted : pr.nextIndex < s.firstIndex
  · exact .inr (Probing.installed cfg peerCfg hs hL hready hF hFone hpos hcompacted hzero)
  · by_cases hprev : pr.nextIndex - 1 = 0 ∨
        F.storage.term (pr.nextIndex - 1) = .ok (unwrapOr (s.term (pr.nextIndex - 1)) 0)
    · have hagreed := agreed_of_match hs hF hFone hFmatch (by omega) hprev
      obtain ⟨m, -, hm⟩ := hagreed.round cfg peerCfg hs hL hready
        (by omega) (by omega) (by omega) (by omega)
      exact .inr ⟨m, hm⟩
    · obtain ⟨next, hnext, hlt, hprobing⟩ := Probing.refused cfg peerCfg
        hs hL hready hFone hpos (by omega) hlast hzero hprev
      exact .inl ⟨next, hnext, hlt, hprobing.leading, hprobing.ready,
        hprobing.entries.trans hentries, hprobing.snapshot.trans hsnapshot⟩

/-- One round of the second phase. -/
theorem Matched.round (hs : s.Aligned)
    {pair : RaftNodeInner MemStorage × RaftNodeInner MemStorage}
    (h : Matched s term peer m pair) (hlt : m < s.lastIndex) :
    ∃ m', m < m' ∧ Matched s term peer m' (exchange cfg peerCfg peer pair) := by
  obtain ⟨pr, hL, hnext, hmatch⟩ := h.leading
  obtain ⟨m', hm', hmatched⟩ := h.agreed.round cfg peerCfg hs hL h.ready
    hnext (by omega) h.first h.last
  exact ⟨m', hm' hlt, hmatched⟩

/-- The second phase ends: the match index rises to the last index. -/
theorem Matched.finishes (hs : s.Aligned)
    {pair : RaftNodeInner MemStorage × RaftNodeInner MemStorage}
    (h : Matched s term peer m pair) :
    ∃ k, Matched s term peer s.lastIndex ((exchange cfg peerCfg peer)^[k] pair) := by
  induction hgap : s.lastIndex - m using Nat.strong_induction_on generalizing m pair with
  | _ gap ih =>
    have hlast := h.last
    by_cases hlt : m < s.lastIndex
    · obtain ⟨m', hm', h'⟩ := h.round cfg peerCfg hs hlt
      obtain ⟨k, hk⟩ := ih (s.lastIndex - m') (by omega) h' rfl
      exact ⟨k + 1, hk⟩
    · obtain rfl : m = s.lastIndex := by omega
      exact ⟨0, h⟩

/-- The first phase ends: the next index cannot fall for ever. -/
theorem Probing.finishes (hs : s.Aligned) (hf : f.Aligned) (hone : f.firstIndex = 1)
    (hmatch : LogsMatch s f) {next : ℕ} (hpos : 1 ≤ next) (hlast : next ≤ s.lastIndex + 1)
    {pair : RaftNodeInner MemStorage × RaftNodeInner MemStorage}
    (h : Probing s f term peer next pair) :
    ∃ k, Matched s term peer s.lastIndex ((exchange cfg peerCfg peer)^[k] pair) := by
  induction next using Nat.strong_induction_on generalizing pair with
  | _ next ih =>
    rcases h.round cfg peerCfg hs hf hone hmatch hpos hlast with
      ⟨next', hpos', hlt, h'⟩ | ⟨m, h'⟩
    · obtain ⟨k, hk⟩ := ih next' hlt hpos' (by omega) h'
      exact ⟨k + 1, hk⟩
    · obtain ⟨k, hk⟩ := h'.finishes cfg peerCfg hs
      exact ⟨k + 1, hk⟩

/-- **A lagging follower catches up.**  After finitely many rounds the match index of the
peer is the last index of the leader, and the logs agree from the leader's first index to
its last. -/
theorem catches_up (cfg peerCfg : RaftConfig) (peer : NodeId) (L F : RaftNodeInner MemStorage)
    (pr : Progress) (hrole : L.sm.role = .leader) (hpr : L.sm.progress.lookup peer = some pr)
    (hzero : pr.matchIndex = 0) (hpos : 1 ≤ pr.nextIndex)
    (hnext : pr.nextIndex ≤ L.storage.lastIndex + 1) (hterm : F.sm.currentTerm ≤ L.sm.currentTerm)
    (hbuf : F.snapshotBuf = none) (hL : L.storage.Aligned) (hF : F.storage.Aligned)
    (hone : F.storage.firstIndex = 1) (hmatch : LogsMatch L.storage F.storage) :
    ∃ k pr', ((exchange cfg peerCfg peer)^[k] (L, F)).1.sm.progress.lookup peer = some pr' ∧
      pr'.matchIndex = L.storage.lastIndex ∧
      ∀ i, L.storage.firstIndex ≤ i → i ≤ L.storage.lastIndex →
        ((exchange cfg peerCfg peer)^[k] (L, F)).2.storage.get? i = L.storage.get? i := by
  have hprobing : Probing L.storage F.storage L.sm.currentTerm peer pr.nextIndex (L, F) :=
    ⟨⟨pr, ⟨hrole, rfl, hpr, rfl, rfl⟩, rfl, hzero⟩, ⟨hbuf, hterm⟩, rfl, rfl⟩
  obtain ⟨k, h⟩ := hprobing.finishes cfg peerCfg hL hF hone hmatch hpos hnext
  obtain ⟨pr', hlead, -, hm⟩ := h.leading
  exact ⟨k, pr', hlead.progress, hm, h.agreed.same⟩

/-- A leader of term 2 with two entries of term 1. -/
def aheadLeader : RaftNodeInner MemStorage :=
  ((Process.boot
    { hardState := ⟨1, 0, 0⟩, entries := [⟨1, 1, [7], .normal⟩, ⟨1, 2, [8], .normal⟩] } :
    Process MemStorage).exec ⟨1, [2, 3], 100, 300, 600, 128⟩
    [(.timer true false, none), (.message (.voteResponse 2 ⟨2, true⟩), none)]).node

/-- A follower with one entry of another term. -/
def behindFollower : RaftNodeInner MemStorage :=
  (Process.boot { entries := [⟨0, 1, [9], .normal⟩] } : Process MemStorage).node

/-- The two logs agree wherever they have an entry of one term at one index. -/
theorem logsMatch_ahead_behind : LogsMatch aheadLeader.storage behindFollower.storage := by
  have hterms : ∀ a ∈ aheadLeader.storage.entries, ∀ b ∈ behindFollower.storage.entries,
      a.term ≠ b.term := by decide +kernel
  intro i a b ha hb heq
  exact absurd heq (hterms a (List.mem_of_find?_eq_some ha) b (List.mem_of_find?_eq_some hb))

end IceRaft
