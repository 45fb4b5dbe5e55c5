import IceRaft.Analysis.BookkeepingTurns
import IceRaft.Analysis.LeaderDiscovery

/-!
# Runs and the books

The handlers that write the books, the turn of every input, and the restart.  A predicate
kept wherever the books change holds in every state of every run, at every crash point
included.
-/

set_option autoImplicit false

namespace IceRaft

open Cluster Abstraction MemStorage

section Turn

variable {W : Wire} {I At : List Effect → RaftNodeInner MemStorage → Prop}
  {cond : List Effect → Condition MemStorage} {i : NodeId} {h : List Effect}
  {asker : Option (NodeId × RpcTask)} {n₀ : RaftNodeInner MemStorage} {input : Input}
  {x y : NodeTurn MemStorage} {cfg : RaftConfig}

/-! ## Committing, answering and applying -/

/-- A step down leaves the books alone. -/
theorem sameBooks_descend (term : ℕ) (leaderId : Option NodeId) (x : NodeTurn MemStorage) :
    SameBooks x.node (x.descend term leaderId).node := by
  unfold NodeTurn.descend
  split
  · exact ⟨rfl, rfl, rfl, rfl, rfl⟩
  · exact .refl _

/-- A higher commit index, cut to the end of the log. -/
theorem Keeps.commit_follows (K : Keeps W h n₀ input I At)
    (hx : BookFollows W I At cond i h asker n₀ (Booked I) x) {k : ℕ}
    (hk : x.sm.commitIndex < k) :
    BookFollows W I At cond i h asker n₀ (Booked I)
      (x.modifySm fun sm => { sm with commitIndex := min k x.node.storage.lastIndex }) :=
  Follows.modifySm hx fun _ _ _ hq =>
    ⟨⟨hq.1.aligned, hq.1.term, hq.1.buffer, hq.1.next⟩, K.commit hq.1.aligned hk hq.2⟩

/-- A follower's commit index stays within its log, and is saved. -/
theorem Keeps.advanceCommit_follows (K : Keeps W h n₀ input I At)
    (hx : BookFollows W I At cond i h asker n₀ (Booked I) x) (req : AppendEntriesRequest) :
    BookFollows W I At cond i h asker n₀ (Booked I) (x.advanceCommit req) := by
  unfold NodeTurn.advanceCommit
  rw [NodeTurn.lastIndexOr0_eq]
  dsimp only
  split
  · rename_i hlt
    exact K.save_follows (K.commit_follows hx hlt)
  · exact hx

/-- The notification loop: the predicate holds of the node that still awaits all the old
proposals. -/
structure Notifying (I : List Effect → RaftNodeInner MemStorage → Prop)
    (n₁ : RaftNodeInner MemStorage) (H : List Effect) (n : RaftNodeInner MemStorage) : Prop where
  based : Based n
  pending : n.pending ⊆ n₁.pending
  commitIndex : n.sm.commitIndex = n₁.sm.commitIndex
  kept : I H (n.awaiting n₁.pending)

/-- One who waits is answered if the commit index has reached it, and waits on if not. -/
theorem Keeps.notifyOne_follows (K : Keeps W h n₀ input I At) {n₁ : RaftNodeInner MemStorage}
    (hx : BookFollows W I At cond i h asker n₀ (Notifying I n₁) x) {w : ℕ × Sender}
    (hw : w ∈ n₁.pending) :
    BookFollows W I At cond i h asker n₀ (Notifying I n₁) (x.notifyOne n₁.sm.commitIndex w) := by
  unfold NodeTurn.notifyOne
  split
  · rename_i hle
    refine hx.enter id trivial ?_
    intro H hq
    have hle' : w.1 ≤ (x.node.awaiting n₁.pending).sm.commitIndex := by
      show w.1 ≤ x.node.sm.commitIndex
      rw [hq.commitIndex]
      exact hle
    have hI := K.answer (n := x.node.awaiting n₁.pending) hw hle' hq.kept
    have hnow : I (H ++ [.answered w.2 (.ok w.1)]) x.node :=
      K.forget (n := x.node.awaiting n₁.pending) hq.pending hI
    have hat : At (H ++ [.answered w.2 (.ok w.1)]) x.node :=
      K.at_answer (n := x.node.awaiting n₁.pending) hw hq.pending hle' hq.kept
    exact ⟨⟨hq.based.aligned, hnow, hat⟩, hq.based, hq.pending, hq.commitIndex, hI⟩
  · apply hx.change _
    intro H hq
    refine ⟨⟨hq.based.aligned, hq.based.term, hq.based.buffer, hq.based.next⟩, ?_,
      hq.commitIndex, hq.kept⟩
    intro v hv
    rcases List.mem_append.mp hv with hv | hv
    · exact hq.pending hv
    · rw [List.mem_singleton.mp hv]
      exact hw

/-- The answers to the proposals at or below the commit index. -/
theorem Keeps.notifyPending_follows (K : Keeps W h n₀ input I At)
    (hx : BookFollows W I At cond i h asker n₀ (Booked I) x) :
    BookFollows W I At cond i h asker n₀ (Booked I) x.notifyPending := by
  unfold NodeTurn.notifyPending
  dsimp only
  have hstart : BookFollows W I At cond i h asker n₀ (Notifying I x.node)
      (x.update fun n => { n with pending := [] }) :=
    hx.change _ fun H hq =>
      ⟨⟨hq.1.aligned, hq.1.term, hq.1.buffer, hq.1.next⟩, List.nil_subset _, rfl, hq.2⟩
  have hloop : BookFollows W I At cond i h asker n₀ (Notifying I x.node)
      (x.node.pending.foldl (NodeTurn.notifyOne x.sm.commitIndex)
        (x.update fun n => { n with pending := [] })) :=
    Follows.foldl _ _ (fun z w hw hz => K.notifyOne_follows hz hw) hstart
  refine Follows.mono hloop fun _ H _ hq => ⟨hq.based, ?_⟩
  exact K.forget (n := RaftNodeInner.awaiting x.node.pending _) hq.pending hq.kept

/-- The commit step books the index, and then answers. -/
theorem Keeps.maybeAdvanceCommit_follows (K : Keeps W h n₀ input I At)
    (hx : BookFollows W I At cond i h asker n₀ (Booked I) x) :
    BookFollows W I At cond i h asker n₀ (Booked I) (x.maybeAdvanceCommit cfg) := by
  unfold NodeTurn.maybeAdvanceCommit
  split
  · exact hx
  · rw [NodeTurn.lastIndexOr0_eq]
    dsimp only
    obtain ⟨hscan, hfound⟩ := NodeTurn.commitScan_cases cfg x.node.storage.lastIndex x
    rw [hscan]
    split
    · rename_i hlt
      rcases hfound with heq | ⟨-, hle, -, -⟩
      · omega
      · have hcommitted := K.commit_follows hx hlt
        rw [Nat.min_eq_left hle] at hcommitted
        exact K.notifyPending_follows (K.metrics_follows (K.save_follows hcommitted) _)
    · exact K.notifyPending_follows hx

/-- Entries that continue what was applied are applied one by one. -/
theorem Keeps.applyAll_follows (K : Keeps W h n₀ input I At) {es : List LogEntry}
    (hx : BookFollows W I At cond i h asker n₀ (Booked I) x)
    (hcons : Consecutive (x.sm.lastApplied + 1) es) (hmem : ∀ e ∈ es, e ∈ x.node.storage.entries)
    (hle : ∀ e ∈ es, e.index ≤ x.sm.commitIndex) :
    BookFollows W I At cond i h asker n₀ (Booked I) (es.foldl NodeTurn.applyOne x) := by
  induction es generalizing x with
  | nil => exact hx
  | cons e es ih =>
    have hidx : e.index = x.sm.lastApplied + 1 := hcons 0 (Nat.succ_pos _)
    have happlied : BookFollows W I At cond i h asker n₀ (Booked I) (x.applyOne e) := by
      refine hx.enter (RaftNodeInner.appliedTo e.index) trivial ?_
      intro H hq
      have hI := K.apply hq.1.aligned (hmem e List.mem_cons_self) hidx
        (hle e List.mem_cons_self) hq.2
      exact ⟨⟨hq.1.aligned, hI, K.at_other nofun⟩,
        ⟨hq.1.aligned, hq.1.term, hq.1.buffer, hq.1.next⟩, hI⟩
    refine ih happlied ?_ (fun e' he' => hmem e' (List.mem_cons_of_mem _ he'))
      fun e' he' => hle e' (List.mem_cons_of_mem _ he')
    intro k hk
    have hnext := hcons (k + 1) (Nat.succ_lt_succ hk)
    rw [List.getElem_cons_succ] at hnext
    show es[k].index = e.index + 1 + k
    omega

/-- The entries applied are those of the log, in order. -/
theorem Keeps.applyCommitted_follows (K : Keeps W h n₀ input I At)
    (hx : BookFollows W I At cond i h asker n₀ (Booked I) x) :
    BookFollows W I At cond i h asker n₀ (Booked I) x.applyCommitted := by
  refine Follows.assume hx (C := x.node.storage.Aligned) (fun _ _ _ hq => hq.1.aligned)
    (indifferent_true.applyCommitted x) fun halign => ?_
  unfold NodeTurn.applyCommitted
  dsimp only
  split
  · exact hx
  · rename_i hle
    rw [NodeTurn.read_entries]
    cases hread : x.node.storage.readEntries (x.sm.lastApplied + 1) (x.sm.commitIndex + 1) none with
    | error err => exact hx
    | ok es =>
      obtain ⟨hlo, hhi⟩ := range_of_readEntries hread
      rw [halign.readEntries_none hlo hhi (by omega)] at hread
      obtain rfl := Except.ok.inj hread
      dsimp only
      have hcons := halign.consecutive_drop hlo (x.sm.commitIndex + 1 - (x.sm.lastApplied + 1))
      refine K.applyAll_follows hx hcons
        (fun e he => List.mem_of_mem_drop (List.mem_of_mem_take he)) fun e he => ?_
      obtain ⟨k, hk, rfl⟩ := List.getElem_of_mem he
      have hidx := hcons k hk
      rw [List.length_take] at hk
      omega

/-! ## The handlers that write the log -/

/-- What a batch does to a node over `MemStorage`. -/
theorem NodeTurn.appendBatch_cases (req : AppendEntriesRequest) (x : NodeTurn MemStorage) :
    (req.entries = [] ∧ x.appendBatch req = (.ok (), x)) ∨
    (req.entries ≠ [] ∧ x.appendBatch req = (.ok (), (x.update
      (RaftNodeInner.appended (req.entries.map protoEntryToLogEntry))).effect .wrote)) := by
  unfold NodeTurn.appendBatch
  cases hes : req.entries with
  | nil => exact .inl ⟨rfl, rfl⟩
  | cons e es => exact .inr ⟨nofun, rfl⟩

/-- A batch continues a log that passes the consistency check. -/
theorem MemStorage.Aligned.prev_le {s : MemStorage} (hs : s.Aligned) {req : AppendEntriesRequest}
    (hprev : NodeTurn.PrevOk s req) : req.prevLogIndex ≤ s.lastIndex := by
  have hlast := hs.lastIndex_succ
  apply Nat.le_of_not_lt
  intro hlt
  have hterm := hs.term_unavailable hlt
  rcases hprev with h0 | hok | ⟨r, f, herr⟩
  · omega
  · rw [hterm] at hok
    cases hok
  · rw [hterm] at herr
    cases herr

/-- A batch that starts in the log is booked, and then the commit index. -/
theorem Keeps.handleAppendEntries_follows {req : AppendEntriesRequest}
    (K : Keeps W h n₀ (.appendEntries req) I At)
    (hx : BookFollows W I At cond i h asker n₀ (Booked I) (Turn.start n₀))
    {crashAt : Option ℕ} (hkept : StartsInLog cfg n₀ (.appendEntries req) crashAt)
    (hcons : Consecutive (req.prevLogIndex + 1) (req.entries.map protoEntryToLogEntry))
    (hW : W.batch req) :
    BookFollows W I At cond i h asker n₀ (Booked I)
      (NodeTurn.handleAppendEntries req (Turn.start n₀)) := by
  unfold NodeTurn.handleAppendEntries
  refine K.note_follows ?_ trivial trivial
  unfold NodeTurn.onAppendEntries
  dsimp only
  rw [← NodeTurn.descend]
  have hy := K.descend_follows hx req.term (some req.leaderId)
  have hbooks := sameBooks_descend req.term (some req.leaderId) (Turn.start n₀)
  have hge := NodeTurn.le_descend req.term (some req.leaderId) (Turn.start n₀)
  have haccepts := @NodeTurn.accepts_of_prevOk n₀ req
  generalize NodeTurn.descend req.term (some req.leaderId) (Turn.start n₀) = y
    at hy hbooks hge haccepts
  split
  · exact hy
  · rename_i hle
    have hz := K.aside_follows hy (f := fun sm => { sm with leaderId := some req.leaderId })
      rfl rfl rfl fun _ _ hpr => .inl hpr
    have hzbooks : SameBooks n₀
        (y.modifySm fun sm => { sm with leaderId := some req.leaderId }).node :=
      ⟨hbooks.entries, hbooks.snapshot, hbooks.pending, hbooks.commitIndex, hbooks.lastApplied⟩
    have hzterm : (y.modifySm fun sm => { sm with leaderId := some req.leaderId }).sm.currentTerm =
        req.term := Nat.le_antisymm (Nat.le_of_not_lt hle) hge
    generalize (y.modifySm fun sm => { sm with leaderId := some req.leaderId }) = z
      at hz hzbooks hzterm
    obtain ⟨hcheck, hprev⟩ | ⟨c, t, hcheck⟩ := NodeTurn.checkPrevLog_cases req z
    · rw [hcheck]
      dsimp only
      have hlog := MemStorage.eq_of_log hzbooks.entries hzbooks.snapshot
      have hprev₀ : NodeTurn.PrevOk n₀.storage req := by
        rw [hlog] at hprev
        exact hprev
      obtain ⟨-, hbatch⟩ | ⟨hne, hbatch⟩ := NodeTurn.appendBatch_cases req z
      · rw [hbatch]
        exact K.metrics_follows (K.advanceCommit_follows hz req) _
      · rw [hbatch]
        dsimp only
        refine K.metrics_follows (K.advanceCommit_follows ?_ req) _
        have hlo : z.node.storage.firstIndex ≤ req.prevLogIndex + 1 := by
          rw [hzbooks.firstIndex]
          exact hkept (haccepts hle hprev₀) hne
        refine hz.enter _ trivial ?_
        intro H hq
        have hhi := hq.1.aligned.prev_le hprev
        have hI := K.batch rfl (haccepts hle hprev₀) hzbooks hW hzterm hprev hq.1 hne hcons
          hlo hhi hq.2
        have halign := hq.1.aligned.append_batch hcons (List.map_eq_nil_iff.not.mpr hne) hlo hhi
        exact ⟨⟨halign, hI, K.at_other fun _ _ h => by cases h⟩, hq.1.appended halign, hI⟩
    · rw [hcheck]
      exact hz

/-- A ping, of which nothing is known on the network, leaves the books alone. -/
theorem Keeps.ping_follows (K : Keeps W h n₀ input I At)
    (hx : BookFollows W I At cond i h asker n₀ (Booked I) x) :
    BookFollows W I At cond i h asker n₀ (Booked I)
      (NodeTurn.handleAppendEntries RaftClusterClient.pingRequest x) := by
  obtain ⟨resp, hrun | ⟨-, hrun⟩⟩ := RaftClusterClient.handleAppendEntries_ping x
  · rw [hrun]
    exact K.note_follows hx trivial trivial
  · rw [hrun]
    have hnamed := K.aside_follows hx (f := fun sm => { sm with leaderId := some 0 })
      rfl rfl rfl fun _ _ hpr => .inl hpr
    exact K.note_follows (K.metrics_follows hnamed _) trivial trivial

/-! ## Snapshots -/

/-- What `apply_snapshot` does to a node over `MemStorage`. -/
theorem NodeTurn.write_applySnapshot (snap : Snapshot) (x : NodeTurn MemStorage) :
    x.write (Storage.applySnapshot snap) =
      (.ok (), (x.update (RaftNodeInner.stored snap)).effect .wrote) := rfl

/-- The snapshot buffer is no book. -/
theorem Keeps.buffer (K : Keeps W h n₀ input I At) {H : List Effect}
    {n : RaftNodeInner MemStorage} (buf : Option (SnapshotMetadata × Bytes)) (hI : I H n) :
    I H { n with snapshotBuf := buf } :=
  K.aside (n := n) ⟨rfl, rfl, rfl, rfl, rfl⟩ rfl (Nat.le_refl _) hI

/-- A snapshot that does not end before the log begins is booked with its indices. -/
theorem Keeps.handleInstallSnapshot_follows {req : InstallSnapshotRequest}
    (K : Keeps W h n₀ (.installSnapshot req) I At)
    (hx : BookFollows W I At cond i h asker n₀ (Booked I) (Turn.start n₀))
    {crashAt : Option ℕ} (hkept : SnapshotsAdvance cfg n₀ (.installSnapshot req) crashAt)
    (hbase : Based n₀) (hdone : req.done = true) (hW : W.snapshot req) :
    BookFollows W I At cond i h asker n₀ (Booked I)
      (NodeTurn.handleInstallSnapshot req (Turn.start n₀)) := by
  unfold NodeTurn.handleInstallSnapshot
  refine K.note_follows ?_ trivial trivial
  unfold NodeTurn.onInstallSnapshot
  dsimp only
  rw [← NodeTurn.descend]
  have hy := K.descend_follows hx req.term (some req.leaderId)
  have hbooks := sameBooks_descend req.term (some req.leaderId) (Turn.start n₀)
  have hbuf : (NodeTurn.descend req.term (some req.leaderId) (Turn.start n₀)).node.snapshotBuf =
      none := by
    rw [NodeTurn.descend_snapshotBuf]
    exact hbase.buffer
  have hterm : ¬ req.term <
      (NodeTurn.descend req.term (some req.leaderId) (Turn.start n₀)).sm.currentTerm →
        n₀.sm.currentTerm ≤ req.term := NodeTurn.not_lt_descend_iff.mp
  generalize NodeTurn.descend req.term (some req.leaderId) (Turn.start n₀) = y
    at hy hbooks hbuf hterm
  split
  · exact hy
  · rename_i hle
    have hreq := hterm hle
    rw [hbuf]
    dsimp only [Option.getD_none]
    rw [NodeTurn.write_applySnapshot]
    dsimp only
    have hlo : y.node.storage.firstIndex ≤ req.lastIncludedIndex + 1 := by
      rw [hbooks.firstIndex]
      exact hkept hreq
    -- the buffer, then the snapshot, then the indices it covers
    have hbuffered : BookFollows W I At cond i h asker n₀
        (fun H n => n.storage.Aligned ∧ (∀ j pr, n.sm.progress.lookup j = some pr →
          1 ≤ pr.nextIndex) ∧ I H n) (y.update fun n => { n with
            snapshotBuf := some (⟨req.lastIncludedIndex, req.lastIncludedTerm, []⟩,
              [] ++ req.data) }) :=
      hy.change _ fun H hq => ⟨hq.1.aligned, hq.1.next,
        K.buffer _ hq.2⟩
    generalize hz : (y.update fun n => { n with
        snapshotBuf := some (⟨req.lastIncludedIndex, req.lastIncludedTerm, []⟩,
          [] ++ req.data) }) = z at hbuffered
    have hzbooks : SameBooks n₀ z.node := by
      rw [← hz]
      exact ⟨hbooks.entries, hbooks.snapshot, hbooks.pending, hbooks.commitIndex,
        hbooks.lastApplied⟩
    have hzlo : z.node.storage.firstIndex ≤ req.lastIncludedIndex + 1 := by
      rw [← hz]
      exact hlo
    generalize hsnap : (⟨[] ++ req.data, ⟨req.lastIncludedIndex, req.lastIncludedTerm, []⟩⟩ :
      Snapshot) = snap
    have hidx : snap.metadata.lastIncludedIndex = req.lastIncludedIndex := by
      rw [← hsnap]
    have hstored : BookFollows W I At cond i h asker n₀
        (fun H n => n.storage.Aligned ∧ (∀ j pr, n.sm.progress.lookup j = some pr →
          1 ≤ pr.nextIndex) ∧ I H n ∧ n.storage.firstIndex = req.lastIncludedIndex + 1 ∧
          n.sm.lastApplied = n₀.sm.lastApplied)
        ((z.update (RaftNodeInner.stored snap)).effect .wrote) := by
      refine hbuffered.enter _ trivial ?_
      intro H hq
      obtain ⟨halign, hnext, hI⟩ := hq
      have hI' := K.store rfl hreq hW hzbooks halign hidx hzlo hI
      have halign' : (z.node.storage.applySnapshot snap).Aligned :=
        halign.applySnapshot (by rw [hidx]; exact hzlo)
      refine ⟨⟨halign', hI', K.at_other fun _ _ h => ?_⟩, halign', hnext, hI', ?_,
        hzbooks.lastApplied⟩
      · cases h
      show snap.metadata.lastIncludedIndex + 1 = _
      rw [hidx]
    have hcovered : BookFollows W I At cond i h asker n₀
        (fun H n => n.storage.Aligned ∧ (∀ j pr, n.sm.progress.lookup j = some pr →
          1 ≤ pr.nextIndex) ∧ I H n)
        (((z.update (RaftNodeInner.stored snap)).effect .wrote).modifySm fun sm =>
          { sm with
            commitIndex := max sm.commitIndex req.lastIncludedIndex,
            lastApplied := max sm.lastApplied req.lastIncludedIndex }) := by
      apply Follows.modifySm hstored
      intro _ H _ hq
      obtain ⟨halign, hnext, hI, hfirst, happlied⟩ := hq
      exact ⟨halign, hnext, K.cover rfl hreq happlied halign hfirst hI⟩
    refine K.metrics_follows (K.settle_follows (hcovered.change _ fun H hq => ?_)) _
    exact ⟨hq.1, rfl, hq.2.1, K.buffer none hq.2.2⟩

/-! ## Proposals -/

/-- A refusal. -/
theorem Keeps.refuse_follows (K : Keeps W h n₀ input I At)
    (hx : BookFollows W I At cond i h asker n₀ (Booked I) x) (tx : Option Sender) (e : RaftError) :
    BookFollows W I At cond i h asker n₀ (Booked I)
      (match tx with
        | some tx => x.effect (.answered tx (.error e))
        | none => x) := by
  cases tx with
  | none => exact hx
  | some tx => exact K.note_follows hx trivial trivial

/-- What an append does to a node over `MemStorage`. -/
theorem NodeTurn.write_append (es : List LogEntry) (x : NodeTurn MemStorage) :
    x.write (Storage.appendEntries es) =
      (.ok (), (x.update (RaftNodeInner.appended es)).effect .wrote) := rfl

/-- A proposal is booked with its entry and its caller. -/
theorem Keeps.onProposal_follows {proposal : Proposal}
    (K : Keeps W h n₀ (.message (.propose proposal)) I At) (hbase : Based n₀) (hI : I h n₀)
    (hat : At h n₀) :
    BookFollows W I At cond i h asker n₀ (Booked I)
      (NodeTurn.onProposal cfg proposal (Turn.start n₀)) := by
  have hx : BookFollows W I At cond i h asker n₀ (Booked I) (Turn.start n₀) :=
    Follows.start trivial ⟨hbase.aligned, hI, hat⟩ ⟨hbase, hI⟩
  have hstart : BookFollows W I At cond i h asker n₀ (fun H n => H = h ∧ Booked I H n)
      (Turn.start n₀) :=
    Follows.start trivial ⟨hbase.aligned, hI, hat⟩ ⟨rfl, hbase, hI⟩
  unfold NodeTurn.onProposal
  dsimp only
  split
  · exact K.refuse_follows hx proposal.tx _
  · rw [NodeTurn.lastIndexOr0_eq]
    dsimp only
    rw [NodeTurn.write_append]
    dsimp only
    dsimp only [NodeTurn.sm, Turn.start_node]
    generalize he : (⟨n₀.sm.currentTerm, n₀.storage.lastIndex + 1, proposal.data, .normal⟩ :
      LogEntry) = e
    have hterm : e.term = n₀.sm.currentTerm := by rw [← he]
    have hindex : e.index = n₀.storage.lastIndex + 1 := by rw [← he]
    have hdata : e.data = proposal.data := by rw [← he]
    have halign := hbase.aligned.append_snoc hindex
    have hmem : e ∈ (n₀.storage.appendEntries [e]).entries :=
      List.mem_append_right _ (List.mem_singleton_self e)
    have hwritten : BookFollows W I At cond i h asker n₀
        (fun H n => H = h ++ [.wrote] ∧ e ∈ n.storage.entries ∧ Booked I H n)
        (NodeTurn.effect .wrote
          (NodeTurn.update (RaftNodeInner.appended [e]) (Turn.start n₀))) := by
      refine hstart.enter _ trivial ?_
      rintro H ⟨hH, hq⟩
      have hI' := K.extend hq.1 hterm hindex hq.2
      exact ⟨⟨halign, hI', K.at_other nofun⟩, by rw [hH], hmem, hq.1.appended halign, hI'⟩
    refine K.replicateAll_follows ?_
    cases htx : proposal.tx with
    | none => exact Follows.mono hwritten fun _ _ _ hq => hq.2.2
    | some tx =>
      dsimp only
      rw [← hindex]
      refine hwritten.enter _ trivial ?_
      rintro H ⟨hH, hmem, hq⟩
      have hinput : Input.message (.propose proposal) =
          .message (.propose ⟨e.data, some tx⟩) := by
        rw [hdata, ← htx]
      have hI' := K.accept hinput hq.1.aligned hmem (hH ▸ hq.2)
      rw [← hH] at hI'
      exact ⟨⟨hq.1.aligned, hI', K.at_other nofun⟩,
        ⟨hq.1.aligned, hq.1.term, hq.1.buffer, hq.1.next⟩, hI'⟩

/-! ## Responses -/

/-- A report is booked, and then the commit step. -/
theorem Keeps.progress_follows (K : Keeps W h n₀ input I At)
    (hx : BookFollows W I At cond i h asker n₀ (Booked I) x) (peer : NodeId)
    {f : Progress → Progress}
    (hf : ∀ pr, 1 ≤ pr.nextIndex → 1 ≤ (f pr).nextIndex) (hbase : Based x.node) :
    BookFollows W I At cond i h asker n₀ (Booked I)
      ((x.modifySm (NodeTurn.updateProgress peer f)).maybeAdvanceCommit cfg) := by
  obtain ⟨m, hm⟩ := NodeTurn.updateProgress_eq peer f x.sm
  refine K.maybeAdvanceCommit_follows (K.aside_follows hx ?_ ?_ ?_ ?_)
  · rw [hm]
  · rw [hm]
  · rw [hm]
  · intro j pr hpr
    rcases NodeTurn.updateProgress_lookup hpr with hold | ⟨-, old, hold, rfl⟩
    · exact .inl hold
    · exact .inr (hf old (hbase.next j old hold))

/-- A response is a step down, or a report. -/
theorem Keeps.handleResponse_follows (K : Keeps W h n₀ input I At)
    (hx : BookFollows W I At cond i h asker n₀ (Booked I) x) (hbase : Based x.node)
    (peer : NodeId) {f : Progress → Progress} (hf : ∀ p, 1 ≤ (f p).nextIndex) (term : ℕ) :
    BookFollows W I At cond i h asker n₀ (Booked I) (x.handleResponse cfg peer f term) := by
  obtain heq | ⟨-, -, heq⟩ := NodeTurn.handleResponse_cases cfg peer f term x
  · rw [heq]
    exact K.descend_follows hx term none
  · rw [heq]
    exact K.progress_follows hx peer (fun pr _ => hf pr) hbase

/-! ## Whole turns -/

/-- Every turn keeps the predicate, up to each of its crash points. -/
theorem Keeps.turn_follows (K : Keeps W h n₀ input I At) (hbase : Based n₀) (hI : I h n₀)
    (hat : At h n₀) {crashAt : Option ℕ} (hkept : LogKept cfg n₀ input crashAt)
    (hcause : Cause (PacketTidy W) i asker input) :
    BookFollows W I At cond i h asker n₀ (Booked I) (NodeTurn.run cfg input (Turn.start n₀)) := by
  have hx : BookFollows W I At cond i h asker n₀ (Booked I) (Turn.start n₀) :=
    Follows.start trivial ⟨hbase.aligned, hI, hat⟩ ⟨hbase, hI⟩
  cases input with
  | appendEntries req =>
    obtain ⟨-, rfl⟩ | ⟨src, waiting, last, hpacket, -⟩ := hcause.appendEntries
    · exact K.ping_follows hx
    · obtain ⟨hcons, hW⟩ := hpacket.append src waiting i last req rfl
      exact K.handleAppendEntries_follows hx hkept.1 hcons hW
  | requestVote req => exact K.handleRequestVote_follows hx req
  | installSnapshot req =>
    obtain ⟨src, waiting, last, hpacket, -⟩ := hcause.installSnapshot
    obtain ⟨hdone, hW⟩ := hpacket.snapshot src waiting i last req rfl
    exact K.handleInstallSnapshot_follows hx hkept.2 hbase hdone hW
  | timer electionDue heartbeatDue =>
    unfold NodeTurn.run NodeTurn.timerBranch
    dsimp only
    split
    · exact K.startElection_follows hx
    · split
      · exact K.applyCommitted_follows (K.maybeAdvanceCommit_follows (K.replicateAll_follows hx))
      · exact hx
  | message msg =>
    cases msg with
    | propose proposal => exact K.onProposal_follows hbase hI hat
    | readIndex tx =>
      refine hx.enter id trivial ?_
      intro H hq
      have hI' := K.readIndex rfl hq.2
      exact ⟨⟨hq.1.aligned, hI', K.at_readIndex rfl hq.2⟩, hq.1, hI'⟩
    | transferLeader target => exact hx
    | getLeader tx => exact K.note_follows hx trivial trivial
    | getTerm tx => exact K.note_follows hx trivial trivial
    | triggerSnapshot index => exact hx
    | shutdown => exact hx
    | appendResponse peer last resp =>
      exact K.handleResponse_follows hx hbase peer (NodeTurn.one_le_progressAfterAppend last resp) _
    | snapshotResponse peer last resp =>
      exact K.handleResponse_follows hx hbase peer (NodeTurn.one_le_progressAfterSnapshot last) _
    | voteResponse peer resp => exact K.handleVoteResponse_follows hx peer resp

/-- A predicate that is kept holds in every state the turn passes. -/
theorem Keeps.turn_passes (K : Keeps W h n₀ input I At) (hbase : Based n₀) (hI : I h n₀)
    (hat : At h n₀) {crashAt : Option ℕ} (hkept : LogKept cfg n₀ input crashAt)
    (hcause : Cause (PacketTidy W) i asker input) {n : RaftNodeInner MemStorage}
    (hn : (NodeTurn.run cfg input (Turn.start n₀)).Passes n₀ n) : ∃ H, I (h ++ H) n := by
  have hturn : BookFollows W I At (fun _ _ _ _ _ => True) i h asker n₀ (Booked I)
      (NodeTurn.run cfg input (Turn.start n₀)) := K.turn_follows hbase hI hat hkept hcause
  rcases hn with rfl | ⟨k, rfl⟩
  · obtain ⟨_, -, -, -, -, hend⟩ := hturn.2 fun _ _ => trivial
    exact ⟨_, hend⟩
  · obtain ⟨_, -, ⟨-, hcut, -⟩, -⟩ := hturn.1 k fun _ _ => trivial
    exact ⟨_, hcut⟩

end Turn

/-! ## Runs -/

/-- The node that boots on `s`. -/
def RaftNodeInner.booted (s : MemStorage) : RaftNodeInner MemStorage where
  sm :=
    { currentTerm := s.hardState.term
      votedFor := if s.hardState.vote = 0 then none else some s.hardState.vote
      commitIndex := s.hardState.commit
      lastApplied := s.hardState.commit }
  storage := s
  metrics := {}
  pending := []
  snapshotBuf := none

/-- A process that has booted keeps its books from an aligned log. -/
theorem Based.booted {s : MemStorage} (hs : s.Aligned) : Based (RaftNodeInner.booted s) :=
  ⟨hs, rfl, rfl, by intro j pr hpr; simp [RaftNodeInner.booted] at hpr⟩

/-- A predicate that every activation keeps, and that survives a restart. -/
structure Booking (W : Wire) (I : List Effect → RaftNodeInner MemStorage → Prop)
    (cond : List Effect → Condition MemStorage) : Prop where
  keeps : ∀ {h n cfg input crashAt}, Based n → I h n → cond h cfg n input crashAt →
    Keeps W h n input I fun _ _ => True
  kept : ∀ {h n cfg input crashAt}, Based n → I h n → cond h cfg n input crashAt →
    LogKept cfg n input crashAt
  boot : ∀ {h n cfg input k}, cond h cfg n input (some k) →
    let turn := NodeTurn.run cfg input (Turn.start n)
    let cut := turn.cutNode n k
    cut.storage.Aligned → I (h ++ turn.cutEffects k) cut →
    I (h ++ turn.cutEffects k ++ [.restored cut.storage.hardState.commit]) (.booted cut.storage)

variable {W : Wire} {I : List Effect → RaftNodeInner MemStorage → Prop}
  {cond : List Effect → Condition MemStorage} {cc : ClusterConfig}

/-- Books that every change keeps are a simulation of the bookkeeping machine. -/
theorem Booking.simulation (B : Booking W I cond) (cfg : RaftConfig) (i : NodeId) :
    Simulation (bookkeeping W I (fun _ _ => True) cond) cfg i where
  turn _ hn hcause hcond :=
    (B.keeps hn.1 hn.2 hcond).turn_follows hn.1 hn.2 trivial (B.kept hn.1 hn.2 hcond) hcause
  restart _ hcond hd := ⟨.booted hd.1, B.boot hcond hd.1 hd.2.1⟩

/-- What holds of the cluster between two events: the books of every node, and the packets. -/
structure Booking.Holds (W : Wire) (I : List Effect → RaftNodeInner MemStorage → Prop)
    (cc : ClusterConfig) (c : Cluster MemStorage) : Prop where
  node : ∀ i ∈ cc.members, Based (c.proc i).node ∧ I (c.proc i).history (c.proc i).node
  packet : ∀ p ∈ c.net, PacketTidy W p

/-- The books hold at the start if they hold of each disk. -/
theorem Booking.holds_init {stores : NodeId → MemStorage}
    (hs : ∀ i ∈ cc.members, (stores i).Aligned ∧
      I [.restored (stores i).hardState.commit] (.booted (stores i))) :
    Booking.Holds W I cc (init stores) :=
  ⟨fun i hi => ⟨.booted (hs i hi).1, (hs i hi).2⟩, fun _ hp => nomatch hp⟩

/-- A fresh disk has no commit index. -/
theorem Cluster.Fresh.commit {s : MemStorage} (hs : Fresh s) : s.hardState.commit = 0 := by
  obtain rfl | ⟨snap, rfl⟩ := hs
  · rfl
  · rfl

/-- A fresh disk is aligned. -/
theorem Cluster.Fresh.aligned {s : MemStorage} (hs : Fresh s) : s.Aligned := by
  obtain rfl | ⟨snap, rfl⟩ := hs
  · intro k hk
    cases hk
  · intro k hk
    cases hk

/-- A run. -/
theorem Booking.holds_run (B : Booking W I cond) {ok : Cluster MemStorage → Event → Prop}
    (hcond : ∀ c e, ok c e → ∀ i input, c.input? cc e.action = some (i, input) →
      cond (c.proc i).history (cc.config i) (c.proc i).node input e.crashAt)
    {c : Cluster MemStorage} (hc : Booking.Holds W I cc c) {es : List Event}
    (hw : Runs.Within (Cluster.step cc) ok c es) : Booking.Holds W I cc (exec cc c es) := by
  have hstart : Simulation.Holds cc (bookkeeping W I (fun _ _ => True) cond) c () :=
    ⟨trivial, hc.node, hc.packet⟩
  obtain ⟨_, -, hend⟩ := Simulation.holds_run (fun i _ => B.simulation (cc.config i) i) hcond
    (fun _ _ _ _ _ _ _ _ _ _ => trivial) hstart hw
  exact ⟨hend.node, hend.packet⟩

/-- The cause of an activation, for one more step. -/
theorem Booking.Holds.cause {c : Cluster MemStorage} (hc : Booking.Holds W I cc c) {e : Action}
    {i : NodeId} {input : Input} (hin : c.input? cc e = some (i, input)) :
    i ∈ cc.members ∧ Cause (PacketTidy W) i (c.asker e) input :=
  Simulation.cause_of_input (S := bookkeeping W I (fun _ _ => True) fun _ _ _ _ _ => True) (a := ())
    ⟨trivial, hc.node, hc.packet⟩ hin

end IceRaft
