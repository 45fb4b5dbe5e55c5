import IceRaft.Analysis.ReplicateRequest

/-!
# Catching up on machine words

As long as the index behind the leader's log is a `u64`, every round of the exchange over
machine words is the round over the naturals, and the follower catches up.  At the last index
there is the exchange goes on for ever: no request carries an entry, and the match index
stays below the last index.
-/

set_option autoImplicit false

namespace IceRaft

open MemStorage Cluster NodeTurn

/-- The two nodes of an exchange, over the naturals. -/
abbrev pairToMem (pair : RaftNodeInner WordStorage × RaftNodeInner WordStorage) :
    RaftNodeInner MemStorage × RaftNodeInner MemStorage := (pair.1.toMem, pair.2.toMem)

/-- After finitely many rounds the match index of the peer is the last index of the leader, and
the two logs agree from the leader's first index to its last. -/
def CatchesUp (cfg peerCfg : RaftConfig) (peer : NodeId) (L F : RaftNodeInner WordStorage) : Prop :=
  ∃ k pr, ((exchange cfg peerCfg peer)^[k] (L, F)).1.sm.progress.lookup peer = some pr ∧
    pr.matchIndex = L.storage.lastIndex ∧
    ∀ i, L.storage.firstIndex ≤ i → i ≤ L.storage.lastIndex →
      ((exchange cfg peerCfg peer)^[k] (L, F)).2.storage.mem.get? i = L.storage.mem.get? i

/-! ## With room behind the log -/

/-- The exchange is in one of its two phases. -/
def OnTheWay (s f : MemStorage) (term : ℕ) (peer : NodeId)
    (pair : RaftNodeInner MemStorage × RaftNodeInner MemStorage) : Prop :=
  (∃ next, 1 ≤ next ∧ next ≤ s.lastIndex + 1 ∧ Probing s f term peer next pair) ∨
    ∃ m, Matched s term peer m pair

variable {s f : MemStorage} {term : ℕ} {peer : NodeId} {cfg peerCfg : RaftConfig}

/-- A round stays on the way. -/
theorem OnTheWay.round (hs : s.Aligned) (hf : f.Aligned) (hone : f.firstIndex = 1)
    (hmatch : LogsMatch s f) {pair : RaftNodeInner MemStorage × RaftNodeInner MemStorage}
    (h : OnTheWay s f term peer pair) :
    OnTheWay s f term peer (exchange cfg peerCfg peer pair) := by
  rcases h with ⟨next, hpos, hlast, hprobing⟩ | ⟨m, hmatched⟩
  · rcases hprobing.round cfg peerCfg hs hf hone hmatch hpos hlast with
      ⟨next', hpos', hlt, hprobing'⟩ | ⟨m, hmatched⟩
    · exact .inl ⟨next', hpos', by omega, hprobing'⟩
    · exact .inr ⟨m, hmatched⟩
  · obtain ⟨pr, hL, hnext, hm⟩ := hmatched.leading
    obtain ⟨m', -, hmatched'⟩ := hmatched.agreed.round cfg peerCfg hs hL hmatched.ready hnext
      hm.le hmatched.first hmatched.last
    exact .inr ⟨m', hmatched'⟩

/-- On the way the leader has its log, and a next index up to the one behind it; the peer's
first index is in front of that, and its buffer is empty. -/
theorem OnTheWay.bounds (hone : f.firstIndex = 1)
    {pair : RaftNodeInner MemStorage × RaftNodeInner MemStorage}
    (h : OnTheWay s f term peer pair) :
    (∃ pr, Leading s term peer pr pair.1 ∧ 1 ≤ pr.nextIndex ∧
      pr.nextIndex ≤ s.lastIndex + 1) ∧ pair.2.storage.firstIndex ≤ s.lastIndex + 1 ∧
      pair.2.snapshotBuf = none ∧ pair.2.sm.currentTerm ≤ term := by
  rcases h with ⟨next, hpos, hlast, ⟨pr, hL, rfl, -⟩, hready, -, hsnap⟩ | ⟨m, hmatched⟩
  · have hfirst : pair.2.storage.firstIndex = f.firstIndex := by
      unfold firstIndex
      rw [hsnap]
    exact ⟨⟨pr, hL, hpos, hlast⟩, by omega, hready.snapshotBuf, hready.term⟩
  · obtain ⟨pr, hL, hnext, -⟩ := hmatched.leading
    have hlast := hmatched.last
    have hfirst := hmatched.agreed.first
    exact ⟨⟨pr, hL, by omega, by omega⟩, by omega, hmatched.ready.snapshotBuf,
      hmatched.ready.term⟩

/-- A request is answered over the naturals. -/
theorem onAppendEntries_answered {F : RaftNodeInner MemStorage} (req : AppendEntriesRequest)
    (hterm : F.sm.currentTerm ≤ req.term) :
    ∃ resp, (onAppendEntries req (Turn.start F)).1 = .ok resp := by
  by_cases hprev : PrevOk F.storage req
  · exact ⟨_, (onAppendEntries_accepted (x := Turn.start F)
      ((accepts_iff _ _).mpr ⟨hterm, hprev⟩)).1⟩
  · obtain ⟨c, t, -, -, -, hfailed⟩ := onAppendEntries_failed (x := Turn.start F) hterm hprev
    exact ⟨_, congrArg Prod.fst hfailed⟩

/-- With room behind the leader's log, a round over machine words is one over the naturals. -/
theorem OnTheWay.exchange_toMem (cfg peerCfg : RaftConfig) (hs : s.Aligned) (hroom : s.lastIndex < u64Max)
    (hone : f.firstIndex = 1) (hcap : cfg.maxAppendEntries * 4096 ≤ u64Max)
    {pair : RaftNodeInner WordStorage × RaftNodeInner WordStorage}
    (h : OnTheWay s f term peer (pairToMem pair)) :
    pairToMem (exchange cfg peerCfg peer pair) = exchange cfg peerCfg peer (pairToMem pair) := by
  obtain ⟨W, F⟩ := pair
  obtain ⟨⟨pr, hL, hpos, hnext⟩, hfirst, hbuf, hterm⟩ := h.bounds hone
  have hmem : W.storage.mem = { s with hardState := W.storage.mem.hardState } := hL.storage
  have hfits : W.storage.Fits := by
    refine ⟨?_, ?_⟩
    · rw [hmem]
      exact hs
    · show W.storage.mem.lastIndex < u64Max
      rw [hmem]
      exact hroom
  have hfirst' : F.storage.mem.firstIndex ≤ s.lastIndex + 1 := hfirst
  have hin : F.storage.InRange := by
    unfold WordStorage.InRange
    omega
  have hsent := replicateTo_toMem hfits cfg peer hcap
  have hlead : Beside WordStorage.mem WordStorage.InRange (Turn.start W) (Turn.start W.toMem) :=
    Beside.start hfits.inRange
  by_cases hlt : pr.nextIndex < s.firstIndex
  · obtain ⟨snap, hsnap, hspawn⟩ := Leading.sendsSnapshot cfg (x := Turn.start W.toMem) hL hs
      hpos hlt
    have hend := hs.lastIndex_succ
    have hcover := firstIndex_of_some hsnap
    generalize hreq : (⟨term, cfg.id, snap.metadata.lastIncludedIndex,
      snap.metadata.lastIncludedTerm, 0, snap.data, true⟩ : InstallSnapshotRequest) = req at hspawn
    have hreqterm : req.term = term := by rw [← hreq]
    have hindex : req.lastIncludedIndex ≤ u64Max := by
      rw [← hreq]
      show snap.metadata.lastIncludedIndex ≤ u64Max
      omega
    have heffs := congrArg Turn.effects hspawn
    have hinstall := onInstallSnapshot_toMem hin hbuf hindex
    obtain ⟨hresp, -⟩ := onInstallSnapshot_whole (x := Turn.start F.toMem)
      (hterm.trans_eq hreqterm.symm) (by rw [← hreq]) hbuf
    rw [exchange_snapshot cfg peerCfg heffs hresp,
      exchange_snapshot cfg peerCfg (hsent.effects.symm.trans heffs)
        (hinstall.value.symm.trans hresp)]
    refine Prod.ext ?_ hinstall.turn.node.symm
    exact (hlead.handleSnapshotResponse WordStorage.callsAlike cfg peer _ _).node.symm
  · obtain ⟨es, -, hspawn⟩ := Leading.sendsAppend cfg (x := Turn.start W.toMem) hL hs
      (Nat.le_of_not_lt hlt) hnext
    have heffs := congrArg Turn.effects hspawn
    have hanswer := onAppendEntries_toMem hin
    obtain ⟨resp, hresp⟩ := onAppendEntries_answered (F := F.toMem)
      ⟨term, cfg.id, pr.nextIndex - 1, unwrapOr (s.term (pr.nextIndex - 1)) 0,
        es.map logEntryToProtoEntry, (NodeTurn.sm (Turn.start W.toMem)).commitIndex⟩ hterm
    rw [exchange_append cfg peerCfg heffs hresp,
      exchange_append cfg peerCfg (hsent.effects.symm.trans heffs)
        ((hanswer _).value.symm.trans hresp)]
    refine Prod.ext ?_ (hanswer _).turn.node.symm
    exact (hlead.handleAppendResponse WordStorage.callsAlike cfg peer _ _).node.symm

/-- With room behind the leader's log, the whole exchange is the one over the naturals. -/
theorem OnTheWay.iterate_toMem (cfg peerCfg : RaftConfig) (hs : s.Aligned) (hf : f.Aligned)
    (hone : f.firstIndex = 1) (hmatch : LogsMatch s f) (hroom : s.lastIndex < u64Max)
    (hcap : cfg.maxAppendEntries * 4096 ≤ u64Max)
    {pair : RaftNodeInner WordStorage × RaftNodeInner WordStorage}
    (h : OnTheWay s f term peer (pairToMem pair)) (k : ℕ) :
    OnTheWay s f term peer (pairToMem ((exchange cfg peerCfg peer)^[k] pair)) ∧
      pairToMem ((exchange cfg peerCfg peer)^[k] pair) =
        (exchange cfg peerCfg peer)^[k] (pairToMem pair) := by
  induction k with
  | zero => exact ⟨h, rfl⟩
  | succ k ih =>
    obtain ⟨hway, hsame⟩ := ih
    have hstep := hway.exchange_toMem cfg peerCfg hs hroom hone hcap
    rw [Function.iterate_succ_apply', Function.iterate_succ_apply', ← hsame, ← hstep]
    refine ⟨?_, rfl⟩
    rw [hstep]
    exact hway.round hs hf hone hmatch

/-! ## Without -/

/-- The search ends between its two bounds. -/
theorem searchTerm_le {σ : Type} [Storage σ] (term fuel : ℕ) {lo hi bound : ℕ}
    {x : NodeTurn σ} (hlo : lo ≤ bound) (hhi : hi ≤ bound) :
    (x.searchTerm term fuel lo hi).1 ≤ bound := by
  induction fuel generalizing lo hi x with
  | zero => exact hlo
  | succ fuel ih =>
    unfold searchTerm
    split
    · rename_i hlt
      have hmid : lo + (hi - lo) / 2 < hi := by omega
      dsimp only
      split
      · split
        · exact ih (by omega) hhi
        · exact ih hlo (by omega)
      · exact ih hlo (by omega)
    · exact hlo

/-- A hint is a `u64`. -/
theorem checkPrevLog_hint {req : AppendEntriesRequest} (hprev : req.prevLogIndex ≤ u64Max)
    (x : NodeTurn WordStorage) :
    ∀ resp, (x.checkPrevLog req).1 = some resp → resp.conflictIndex ≤ u64Max := by
  intro resp hresp
  unfold checkPrevLog at hresp
  rw [show x.read (Storage.term req.prevLogIndex) =
    (x.node.storage.term req.prevLogIndex, x) from rfl] at hresp
  split at hresp
  · cases ht : x.node.storage.term req.prevLogIndex with
    | ok t =>
      rw [ht] at hresp
      dsimp only at hresp
      split at hresp
      · obtain rfl := Option.some.inj hresp
        exact searchTerm_le _ _ (WordStorage.firstIndex_le _) hprev
      · cases hresp
    | error e =>
      rw [ht] at hresp
      cases e with
      | logCompacted r c => cases hresp
      | _ =>
        obtain rfl := Option.some.inj hresp
        exact hprev
  · cases hresp

/-- A request without entries is answered, and a hint is a `u64`. -/
theorem onAppendEntries_hint (req : AppendEntriesRequest) (hnil : req.entries = [])
    (hprev : req.prevLogIndex ≤ u64Max) (x : NodeTurn WordStorage) :
    ∃ resp, (x.onAppendEntries req).1 = .ok resp ∧ resp.conflictIndex ≤ u64Max := by
  have hbatch (y : NodeTurn WordStorage) : y.appendBatch req = (.ok (), y) := by
    unfold appendBatch
    rw [hnil]
    rfl
  unfold onAppendEntries
  dsimp only
  rw [← descend]
  generalize x.descend req.term (some req.leaderId) = w
  by_cases hstale : req.term < w.sm.currentTerm
  · rw [if_pos hstale]
    exact ⟨_, rfl, Nat.zero_le u64Max⟩
  · rw [if_neg hstale]
    generalize NodeTurn.modifySm _ w = y
    have hhint := checkPrevLog_hint hprev y
    generalize y.checkPrevLog req = r at hhint ⊢
    obtain ⟨outcome, z⟩ := r
    cases outcome with
    | some resp => exact ⟨resp, rfl, hhint resp rfl⟩
    | none =>
      dsimp only
      rw [hbatch]
      exact ⟨_, rfl, Nat.zero_le u64Max⟩

/-- A snapshot is answered. -/
theorem onInstallSnapshot_answered (req : InstallSnapshotRequest) (x : NodeTurn WordStorage) :
    ∃ resp, (x.onInstallSnapshot req).1 = .ok resp := by
  unfold onInstallSnapshot
  dsimp only
  rw [← descend]
  generalize x.descend req.term (some req.leaderId) = w
  by_cases hstale : req.term < w.sm.currentTerm
  · rw [if_pos hstale]
    exact ⟨_, rfl⟩
  · rw [if_neg hstale]
    cases req.done with
    | false => exact ⟨_, rfl⟩
    | true => exact ⟨_, rfl⟩

/-- The leader has the log of `s`, and the progress of the peer is short of the last index
there is. -/
structure Stuck (s : MemStorage) (peer : NodeId) (n : RaftNodeInner WordStorage) : Prop where
  entries : n.storage.mem.entries = s.entries
  snapshot : n.storage.mem.snapshot = s.snapshot
  progress : ∀ pr, n.sm.progress.lookup peer = some pr →
    1 ≤ pr.nextIndex ∧ pr.nextIndex ≤ u64Max ∧ pr.matchIndex < u64Max

/-- The commit step leaves the log and the progress. -/
theorem Stuck.maybeAdvanceCommit {x : NodeTurn WordStorage} (h : Stuck s peer x.node) :
    Stuck s peer (x.maybeAdvanceCommit cfg).node := by
  unfold NodeTurn.maybeAdvanceCommit
  split
  · exact h
  · dsimp only
    rw [commitScan_pure, lastIndexOr0_pure, notifyPending_node]
    split
    · exact ⟨h.entries, h.snapshot, h.progress⟩
    · exact ⟨h.entries, h.snapshot, h.progress⟩

/-- A response that leaves the progress short of the last index changes nothing about it. -/
theorem Stuck.response {x : NodeTurn WordStorage} (h : Stuck s peer x.node)
    {g : Progress → Progress} {respTerm : ℕ}
    (hg : ∀ pr, x.sm.progress.lookup peer = some pr →
      1 ≤ (g pr).nextIndex ∧ (g pr).nextIndex ≤ u64Max ∧ (g pr).matchIndex < u64Max) :
    Stuck s peer (x.handleResponse cfg peer g respTerm).node := by
  unfold NodeTurn.handleResponse
  split
  · refine ⟨h.entries, h.snapshot, ?_⟩
    intro pr hpr
    cases hpr
  · split
    · exact h
    · refine Stuck.maybeAdvanceCommit ⟨h.entries, h.snapshot, ?_⟩
      intro pr hpr
      rcases updateProgress_lookup hpr with hold | ⟨-, old, hold, rfl⟩
      · exact h.progress pr hold
      · exact hg old hold

variable {W F : RaftNodeInner WordStorage} {pr : Progress}

/-- A peer without progress is sent nothing. -/
theorem Stuck.unsent (h : Stuck s peer W) (hpr : W.sm.progress.lookup peer = none) :
    Stuck s peer (exchange cfg peerCfg peer (W, F)).1 := by
  have hsent : replicateTo cfg peer (Turn.start W) = Turn.start W := by
    unfold replicateTo
    rw [show NodeTurn.sm (Turn.start W) = W.sm from rfl, hpr]
  unfold IceRaft.exchange
  dsimp only
  rw [hsent]
  exact h

/-- Where the next index is in the log, the request is empty and ends in front of it. -/
theorem Stuck.request (h : Stuck s peer W) (hlast : W.storage.lastIndex = u64Max)
    (hpr : W.sm.progress.lookup peer = some pr) (hlo : W.storage.firstIndex ≤ pr.nextIndex) :
    Stuck s peer (exchange cfg peerCfg peer (W, F)).1 := by
  obtain ⟨hpos, hnext, hmatch⟩ := h.progress pr hpr
  have heffs := congrArg Turn.effects (replicateTo_wrapped cfg hpr hlast hlo hnext)
  rw [u64Sub_of_le hpos] at heffs
  obtain ⟨resp, hresp, hhint⟩ := onAppendEntries_hint
    ⟨W.sm.currentTerm, cfg.id, pr.nextIndex - 1,
      (termOr0 (pr.nextIndex - 1) (Turn.start W)).1, [], W.sm.commitIndex⟩ rfl
    (show pr.nextIndex - 1 ≤ u64Max by omega) (Turn.start F)
  rw [exchange_append cfg peerCfg heffs hresp]
  refine Stuck.response (x := Turn.start W) h fun old hold => ?_
  obtain rfl : pr = old := Option.some.inj (hpr.symm.trans hold)
  unfold progressAfterAppend
  split
  · dsimp only [List.length_nil]
    omega
  · split
    · exact ⟨‹_›, hhint, hmatch⟩
    · dsimp only
      omega

/-- Where it is compacted, there is a snapshot, which ends in front of the last index. -/
theorem Stuck.compacted (h : Stuck s peer W) (hs : s.Aligned) (hmax : s.lastIndex = u64Max)
    (hpos : 1 ≤ pr.nextIndex) (hlo : ¬ W.storage.firstIndex ≤ pr.nextIndex) :
    ∃ snap, W.storage.mem.snapshot = some snap ∧ snap.metadata.lastIncludedIndex < u64Max := by
  unfold WordStorage.firstIndex at hlo
  cases hsnap : W.storage.mem.snapshot with
  | none =>
    rw [hsnap] at hlo
    exact absurd hpos hlo
  | some snap =>
    rw [hsnap] at hlo
    refine ⟨snap, rfl, ?_⟩
    have hend := hs.lastIndex_succ
    have hcover := firstIndex_of_some (h.snapshot.symm.trans hsnap)
    apply Nat.lt_of_le_of_ne (by omega)
    intro heq
    dsimp only at hlo
    rw [heq, u64Add_max] at hlo
    exact hlo (Nat.zero_le _)

/-- Such a snapshot brings the peer no further than its own index. -/
theorem Stuck.snapshotRequest (h : Stuck s peer W) (hlast : W.storage.lastIndex = u64Max)
    (hpr : W.sm.progress.lookup peer = some pr) (hlo : ¬ W.storage.firstIndex ≤ pr.nextIndex)
    {snap : Snapshot} (hsnap : W.storage.mem.snapshot = some snap)
    (hindex : snap.metadata.lastIncludedIndex < u64Max) :
    Stuck s peer (exchange cfg peerCfg peer (W, F)).1 := by
  obtain ⟨hpos, hnext, hmatch⟩ := h.progress pr hpr
  have hsent := replicateTo_compacted cfg hpr (hnext.trans_eq hlast.symm) (Nat.lt_of_not_le hlo)
  rw [sendSnapshotTo_words, hsnap] at hsent
  obtain ⟨resp, hresp⟩ := onInstallSnapshot_answered ⟨W.sm.currentTerm, cfg.id,
    snap.metadata.lastIncludedIndex, snap.metadata.lastIncludedTerm, 0, snap.data, true⟩
    (Turn.start F)
  rw [exchange_snapshot cfg peerCfg (congrArg Turn.effects hsent) hresp]
  refine Stuck.response (x := Turn.start W) h fun old hold => ?_
  obtain rfl : pr = old := Option.some.inj (hpr.symm.trans hold)
  unfold progressAfterSnapshot
  dsimp only
  omega

/-- A round leaves the leader where it is when its log ends at the last index there is. -/
theorem Stuck.exchange (hs : s.Aligned) (hmax : s.lastIndex = u64Max)
    {pair : RaftNodeInner WordStorage × RaftNodeInner WordStorage} (h : Stuck s peer pair.1) :
    Stuck s peer (exchange cfg peerCfg peer pair).1 := by
  obtain ⟨W, F⟩ := pair
  have hlast : W.storage.lastIndex = u64Max := by
    rw [← hmax]
    show W.storage.mem.lastIndex = s.lastIndex
    unfold lastIndex
    rw [h.entries, h.snapshot]
  cases hpr : W.sm.progress.lookup peer with
  | none => exact h.unsent hpr
  | some pr =>
    by_cases hlo : W.storage.firstIndex ≤ pr.nextIndex
    · exact h.request hlast hpr hlo
    · obtain ⟨snap, hsnap, hindex⟩ := h.compacted hs hmax (h.progress pr hpr).1 hlo
      exact h.snapshotRequest hlast hpr hlo hsnap hindex

/-- At the last index there is the follower never catches up. -/
theorem not_catchesUp {L F : RaftNodeInner WordStorage} {pr : Progress}
    (hpr : L.sm.progress.lookup peer = some pr) (hzero : pr.matchIndex = 0)
    (hpos : 1 ≤ pr.nextIndex) (hword : pr.nextIndex ≤ u64Max) (hL : L.storage.mem.Aligned)
    (hmax : L.storage.lastIndex = u64Max) : ¬ CatchesUp cfg peerCfg peer L F := by
  have hstart : Stuck L.storage.mem peer L := by
    refine ⟨rfl, rfl, fun old hold => ?_⟩
    obtain rfl : pr = old := Option.some.inj (hpr.symm.trans hold)
    rw [hzero]
    exact ⟨hpos, hword, by decide⟩
  have hstuck (k : ℕ) : Stuck L.storage.mem peer ((exchange cfg peerCfg peer)^[k] (L, F)).1 := by
    induction k with
    | zero => exact hstart
    | succ k ih =>
      rw [Function.iterate_succ_apply']
      exact ih.exchange hL hmax
  rintro ⟨k, pr', hpr', hdone, -⟩
  have hshort := ((hstuck k).progress pr' hpr').2.2
  omega

/-- **A lagging follower catches up, except with the end of `u64`.**  For an aligned leader log,
a peer without progress, and an uncompacted log of the peer that matches it, the exchange makes
the match index the last index of the leader and the logs agree exactly when the index behind
the leader's log is a `u64`.
SRCLINE: iceraft-node/src/node.rs:302-368, 574-747 -/
theorem catches_up_iff (cfg peerCfg : RaftConfig) (peer : NodeId) (L F : RaftNodeInner WordStorage)
    (pr : Progress) (hrole : L.sm.role = .leader) (hpr : L.sm.progress.lookup peer = some pr)
    (hzero : pr.matchIndex = 0) (hpos : 1 ≤ pr.nextIndex) (hword : pr.nextIndex ≤ u64Max)
    (hnext : pr.nextIndex ≤ L.storage.lastIndex + 1) (hlast : L.storage.lastIndex ≤ u64Max)
    (hcap : cfg.maxAppendEntries * 4096 ≤ u64Max) (hterm : F.sm.currentTerm ≤ L.sm.currentTerm)
    (hbuf : F.snapshotBuf = none) (hL : L.storage.mem.Aligned) (hF : F.storage.mem.Aligned)
    (hone : F.storage.mem.firstIndex = 1) (hmatch : LogsMatch L.storage.mem F.storage.mem) :
    CatchesUp cfg peerCfg peer L F ↔ L.storage.lastIndex < u64Max := by
  constructor
  · intro hcaught
    apply Nat.lt_of_le_of_ne hlast
    exact fun hmax => not_catchesUp hpr hzero hpos hword hL hmax hcaught
  · intro hroom
    have hfits : L.storage.Fits := ⟨hL, hroom⟩
    have hway : OnTheWay L.storage.mem F.storage.mem L.sm.currentTerm peer (pairToMem (L, F)) :=
      .inl ⟨pr.nextIndex, hpos, hnext, ⟨pr, ⟨hrole, rfl, hpr, rfl, rfl⟩, rfl, hzero⟩,
        ⟨hbuf, hterm⟩, rfl, rfl⟩
    obtain ⟨k, pr', hpr', hdone, hsame⟩ := catches_up cfg peerCfg peer L.toMem F.toMem pr hrole hpr
      hzero hpos hnext hterm hbuf hL hF hone hmatch
    have hmem := (hway.iterate_toMem cfg peerCfg hL hF hone hmatch hroom
      hcap k).2
    rw [← hmem] at hpr' hsame
    refine ⟨k, pr', hpr', hdone, fun i hlo hhi => ?_⟩
    rw [hfits.inRange.firstIndex_eq] at hlo
    exact hsame i hlo hhi

/-- The follower catches up, as the last index of the leader is below the last of all. -/
theorem catches_up_iff_behindFollower :
    CatchesUp ⟨1, [2, 3], 100, 300, 600, 128⟩ ⟨2, [1, 3], 100, 300, 600, 128⟩ 2
      (aheadLeader.mapStorage WordStorage.mk) (behindFollower.mapStorage WordStorage.mk) ↔
        aheadLeader.storage.lastIndex < u64Max :=
  catches_up_iff _ _ 2 (aheadLeader.mapStorage WordStorage.mk)
    (behindFollower.mapStorage WordStorage.mk) ⟨3, 0, false⟩ (by decide +kernel)
    (by decide +kernel) rfl (by decide) (by decide) (by decide +kernel) (by decide +kernel)
    (by decide) (by decide +kernel) rfl (by unfold Aligned; decide +kernel)
    (by unfold Aligned; decide +kernel) rfl logsMatch_ahead_behind

/-- A leader that knows nothing yet about its peer, with the last index there is. -/
def newFullLeader : RaftNodeInner WordStorage :=
  { fullLeader with sm := { fullLeader.sm with progress := AList.singleton 2 ⟨u64Max, 0, false⟩ } }

/-- An empty peer never gets the last entry. -/
theorem full_log_never_caught_up : newFullLeader.storage.mem.Aligned ∧
    newFullLeader.storage.lastIndex = u64Max ∧
    newFullLeader.sm.progress.lookup 2 = some ⟨u64Max, 0, false⟩ ∧
    LogsMatch newFullLeader.storage.mem {} ∧
    ¬ CatchesUp { id := 1, peers := [2] } { id := 2, peers := [1] } 2 newFullLeader
      (.new ⟨{}⟩) := by
  have halign : newFullLeader.storage.mem.Aligned := by
    unfold Aligned
    decide +kernel
  refine ⟨halign, by decide, rfl, ?_, ?_⟩
  · intro i a b _ hb
    cases hb
  · exact not_catchesUp (show newFullLeader.sm.progress.lookup 2 = some ⟨u64Max, 0, false⟩ from rfl)
      rfl (by decide) (by decide) halign (by decide)

end IceRaft
