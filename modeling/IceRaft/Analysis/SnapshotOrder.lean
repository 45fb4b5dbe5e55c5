import IceRaft.Analysis.BookkeepingRun
import IceRaft.Analysis.CompactedLog
import IceRaft.Analysis.WordLog
import IceRaft.Lib.Runs

/-!
# Snapshots out of order

A node takes snapshots in the order they arrive.  As long as none of them ends before the
log begins, nor at the last index there is, the log stays addressed by its positions and
reaches the commit index.
-/

set_option autoImplicit false

namespace IceRaft

open MemStorage Cluster NodeTurn

/-! ## Deliveries in any order -/

/-- A complete snapshot, or a batch of consecutive entries. -/
def Deliverable : Input → Prop
  | .installSnapshot req => req.done = true
  | .appendEntries req => Consecutive (req.prevLogIndex + 1) req.batch
  | _ => False

instance : ∀ input, Decidable (Deliverable input)
  | .installSnapshot req => inferInstanceAs (Decidable (req.done = true))
  | .appendEntries _ => inferInstanceAs (Decidable (Consecutive _ _))
  | .requestVote _ => inferInstanceAs (Decidable False)
  | .message _ => inferInstanceAs (Decidable False)
  | .timer _ _ => inferInstanceAs (Decidable False)

/-- The node after an input. -/
def deliver {σ : Type} [Storage σ] (cfg : RaftConfig) (n : RaftNodeInner σ) (input : Input) :
    RaftNodeInner σ := (NodeTurn.run cfg input (Turn.start n)).node

/-- The snapshot that is installed, or the batch that is accepted, leaves an index behind its
end. -/
def EndsBelow (n : RaftNodeInner MemStorage) : Input → Prop
  | .installSnapshot req => n.sm.currentTerm ≤ req.term → req.lastIncludedIndex < u64Max
  | .appendEntries req => Accepts n req = true → req.entries ≠ [] →
      req.prevLogIndex + req.entries.length < u64Max
  | _ => True

instance (n : RaftNodeInner MemStorage) : ∀ input, Decidable (EndsBelow n input)
  | .installSnapshot _ => inferInstanceAs (Decidable (_ → _))
  | .appendEntries _ => inferInstanceAs (Decidable (_ → _ → _))
  | .requestVote _ => inferInstanceAs (Decidable True)
  | .message _ => inferInstanceAs (Decidable True)
  | .timer _ _ => inferInstanceAs (Decidable True)

/-- The snapshot does not end before the log begins; the batch does not start before the log
begins, and does not end before the commit index; and both end below the last index there
is. -/
def InOrder (cfg : RaftConfig) (n : RaftNodeInner WordStorage) (input : Input) : Prop :=
  LogKept.and CommitKept cfg n.toMem input none ∧ EndsBelow n.toMem input

instance (cfg : RaftConfig) (n : RaftNodeInner WordStorage) (input : Input) :
    Decidable (InOrder cfg n input) :=
  inferInstanceAs (Decidable (LogKept.and CommitKept cfg n.toMem input none ∧ _))

/-- The entry read for each index of the log is the one with that index, and the log reaches
the commit index. -/
structure LogIntact (n : RaftNodeInner WordStorage) : Prop where
  reads : ∀ i, n.storage.firstIndex ≤ i → i ≤ n.storage.lastIndex →
    ∃ e, n.storage.readEntries i (u64Add i 1) none = .ok [e] ∧ e.index = i
  commit : n.sm.commitIndex ≤ n.storage.lastIndex

/-- What the deliveries keep. -/
structure Positioned (n : RaftNodeInner MemStorage) : Prop where
  aligned : n.storage.Aligned
  buffer : n.snapshotBuf = none
  commit : n.sm.commitIndex ≤ n.storage.lastIndex

/-- The entry at each index of an aligned log is read by a range of one. -/
theorem Aligned.read_one {s : MemStorage} (h : s.Aligned) {i : ℕ} (hlo : s.firstIndex ≤ i)
    (hhi : i ≤ s.lastIndex) : ∃ e, s.readEntries i (i + 1) none = .ok [e] ∧ e.index = i := by
  have hlast := h.lastIndex_succ
  have hk : i - s.firstIndex < s.entries.length := by omega
  refine ⟨s.entries[i - s.firstIndex], ?_, ?_⟩
  · rw [h.readEntries_none hlo (Nat.succ_le_succ hhi) (Nat.lt_succ_self i),
      show i + 1 - i = 1 by omega, List.drop_eq_getElem_cons hk]
    rfl
  · have hidx := h _ hk
    omega

/-- Two nodes with the same log are positioned alike. -/
theorem Positioned.of_contents {n n' : RaftNodeInner MemStorage} {term : ℕ} (h : Positioned n)
    (hn : Contents n' n.storage.entries n.storage.snapshot n.snapshotBuf term)
    (hcommit : n'.sm.commitIndex = n.sm.commitIndex) :
    Positioned n' ∧ n'.storage.firstIndex = n.storage.firstIndex ∧
      n'.storage.lastIndex = n.storage.lastIndex := by
  have hlog := eq_of_log hn.entries hn.snapshot
  refine ⟨⟨?_, hn.snapshotBuf.trans h.buffer, ?_⟩, ?_, ?_⟩
  · rw [hlog]
    exact h.aligned
  · rw [hlog, hcommit]
    exact h.commit
  · rw [hlog]
    rfl
  · rw [hlog]
    rfl

/-- An accepted batch in order. -/
theorem Positioned.accepted {n : RaftNodeInner MemStorage} (h : Positioned n)
    {req : AppendEntriesRequest} (hcons : Consecutive (req.prevLogIndex + 1) req.batch)
    (haccepts : Accepts n req = true)
    (hstart : req.entries ≠ [] → n.storage.firstIndex ≤ req.prevLogIndex + 1)
    (hend : req.entries ≠ [] → n.sm.commitIndex ≤ req.prevLogIndex + req.entries.length) :
    Positioned (onAppendEntries req (Turn.start n)).2.node ∧
      (onAppendEntries req (Turn.start n)).2.node.storage.firstIndex = n.storage.firstIndex ∧
      (onAppendEntries req (Turn.start n)).2.node.storage.lastIndex =
        if req.entries = [] then n.storage.lastIndex
        else req.prevLogIndex + req.entries.length := by
  obtain ⟨-, hnode⟩ := onAppendEntries_accepted (x := Turn.start n) haccepts
  have hcommit := onAppendEntries_commit (x := Turn.start n) haccepts
  have hprev := h.aligned.prev_le ((accepts_iff n req).mp haccepts).2
  -- the log the batch makes
  obtain ⟨halign, hreach, hlast⟩ : (n.storage.appendEntries req.batch).Aligned ∧
      n.sm.commitIndex ≤ (n.storage.appendEntries req.batch).lastIndex ∧
      (n.storage.appendEntries req.batch).lastIndex = if req.entries = [] then n.storage.lastIndex
        else req.prevLogIndex + req.entries.length := by
    by_cases hne : req.entries = []
    · rw [AppendEntriesRequest.batch, hne, if_pos rfl]
      exact ⟨h.aligned, h.commit, rfl⟩
    · have hbatch : req.batch ≠ [] := List.map_eq_nil_iff.not.mpr hne
      have hlast := h.aligned.lastIndex_batch hcons hbatch (hstart hne) hprev
      rw [AppendEntriesRequest.batch, List.length_map] at hlast
      rw [if_neg hne]
      exact ⟨h.aligned.append_batch hcons hbatch (hstart hne) hprev,
        (hend hne).trans hlast.ge, hlast⟩
  have hlog : (onAppendEntries req (Turn.start n)).2.node.storage =
      { n.storage.appendEntries req.batch with
        hardState := (onAppendEntries req (Turn.start n)).2.node.storage.hardState } :=
    eq_of_log hnode.entries (hnode.snapshot.trans (appendEntries_snapshot _ _).symm)
  refine ⟨⟨?_, hnode.snapshotBuf.trans h.buffer, ?_⟩, ?_, ?_⟩
  · rw [hlog]
    exact halign
  · rw [hlog]
    show (onAppendEntries req (Turn.start n)).2.sm.commitIndex ≤
      (n.storage.appendEntries req.batch).lastIndex
    rw [hcommit]
    split
    · exact Nat.min_le_right _ _
    · exact hreach
  · rw [hlog]
    exact appendEntries_firstIndex _ _
  · rw [hlog]
    exact hlast

/-- A complete snapshot in order. -/
theorem Positioned.installed {n : RaftNodeInner MemStorage} (h : Positioned n)
    {req : InstallSnapshotRequest} (hterm : n.sm.currentTerm ≤ req.term) (hdone : req.done = true)
    (hlo : n.storage.firstIndex ≤ req.lastIncludedIndex + 1) :
    Positioned (onInstallSnapshot req (Turn.start n)).2.node ∧
      (onInstallSnapshot req (Turn.start n)).2.node.storage.firstIndex =
        req.lastIncludedIndex + 1 ∧
      (onInstallSnapshot req (Turn.start n)).2.node.storage.lastIndex =
        max n.storage.lastIndex req.lastIncludedIndex := by
  obtain ⟨-, hnode⟩ := onInstallSnapshot_whole (x := Turn.start n) hterm hdone h.buffer
  obtain ⟨-, hsm, -⟩ := onInstallSnapshot_installed (x := Turn.start n) hterm hdone rfl
  have hlog : (onInstallSnapshot req (Turn.start n)).2.node.storage =
      { n.storage.applySnapshot req.snapshot with
        hardState := (onInstallSnapshot req (Turn.start n)).2.node.storage.hardState } :=
    eq_of_log hnode.entries hnode.snapshot
  refine ⟨⟨?_, hnode.snapshotBuf, ?_⟩, ?_, ?_⟩
  · rw [hlog]
    exact h.aligned.applySnapshot hlo
  · rw [hlog]
    show (onInstallSnapshot req (Turn.start n)).2.sm.commitIndex ≤
      (n.storage.applySnapshot req.snapshot).lastIndex
    rw [hsm, h.aligned.lastIndex_applySnapshot hlo]
    exact max_le_max_right _ h.commit
  · rw [hlog]
    rfl
  · rw [hlog]
    exact h.aligned.lastIndex_applySnapshot hlo

/-- One delivery in order, with room behind its end. -/
theorem Positioned.step {cfg : RaftConfig} {n : RaftNodeInner MemStorage} (h : Positioned n)
    (hroom : n.storage.lastIndex < u64Max) {input : Input} (hinput : Deliverable input)
    (hok : LogKept.and CommitKept cfg n input none) (hbelow : EndsBelow n input) :
    Positioned (deliver cfg n input) ∧
      n.storage.firstIndex ≤ (deliver cfg n input).storage.firstIndex ∧
      (deliver cfg n input).storage.lastIndex < u64Max := by
  obtain ⟨⟨hstart, hadvance⟩, hkept⟩ := hok
  cases input with
  | appendEntries req =>
    show Positioned (onAppendEntries req (Turn.start n)).2.node ∧
      _ ≤ (onAppendEntries req (Turn.start n)).2.node.storage.firstIndex ∧
      (onAppendEntries req (Turn.start n)).2.node.storage.lastIndex < _
    by_cases hterm : n.sm.currentTerm ≤ req.term
    · by_cases hprev : PrevOk n.storage req
      · have haccepts := (accepts_iff n req).mpr ⟨hterm, hprev⟩
        obtain ⟨hpos, hfirst, hlast⟩ :=
          h.accepted hinput haccepts (hstart haccepts) (hkept haccepts)
        refine ⟨hpos, hfirst.ge, ?_⟩
        rw [hlast]
        split
        · exact hroom
        · exact hbelow haccepts ‹_›
      · obtain ⟨c, t, -, -, -, hfailed⟩ := onAppendEntries_failed (x := Turn.start n) hterm hprev
        obtain ⟨hpos, hfirst, hlast⟩ := h.of_contents
          (recognise_contents (x := Turn.start n) hterm) (recognise_indices req (Turn.start n)).1
        rw [hfailed]
        exact ⟨hpos, hfirst.ge, hlast.trans_lt hroom⟩
    · rw [onAppendEntries_stale (x := Turn.start n) (Nat.lt_of_not_le hterm)]
      exact ⟨h, Nat.le_refl _, hroom⟩
  | installSnapshot req =>
    show Positioned (onInstallSnapshot req (Turn.start n)).2.node ∧
      _ ≤ (onInstallSnapshot req (Turn.start n)).2.node.storage.firstIndex ∧
      (onInstallSnapshot req (Turn.start n)).2.node.storage.lastIndex < _
    by_cases hterm : n.sm.currentTerm ≤ req.term
    · obtain ⟨hpos, hfirst, hlast⟩ := h.installed hterm hinput (hadvance hterm)
      exact ⟨hpos, (hadvance hterm).trans hfirst.ge,
        hlast.trans_lt (max_lt hroom (hbelow hterm))⟩
    · rw [onInstallSnapshot_stale (x := Turn.start n) (Nat.lt_of_not_le hterm)]
      exact ⟨h, Nat.le_refl _, hroom⟩
  | requestVote req => exact hinput.elim
  | message msg => exact hinput.elim
  | timer electionDue heartbeatDue => exact hinput.elim

/-! ## On machine words -/

/-- What the deliveries keep, with an index behind the log. -/
structure Placed (n : RaftNodeInner WordStorage) : Prop where
  positioned : Positioned n.toMem
  room : n.storage.lastIndex < u64Max

/-- The index behind the log is in range. -/
theorem Placed.fits {n : RaftNodeInner WordStorage} (h : Placed n) : n.storage.Fits :=
  ⟨h.positioned.aligned, h.room⟩

/-- Such a log is read as its positions say. -/
theorem Placed.intact {n : RaftNodeInner WordStorage} (h : Placed n) : LogIntact n := by
  refine ⟨fun i hlo hhi => ?_, h.positioned.commit⟩
  have hroom := h.room
  rw [h.fits.inRange.firstIndex_eq] at hlo
  rw [u64Add_of_le (by omega), h.fits.readEntries_eq]
  exact Aligned.read_one h.positioned.aligned hlo hhi

/-- A delivery over machine words is one over the naturals. -/
theorem Placed.deliver_toMem {cfg : RaftConfig} {n : RaftNodeInner WordStorage} (h : Placed n)
    {input : Input} (hinput : Deliverable input) (hbelow : EndsBelow n.toMem input) :
    (deliver cfg n input).toMem = deliver cfg n.toMem input := by
  cases input with
  | appendEntries req => exact (onAppendEntries_toMem h.fits.inRange req).turn.node.symm
  | installSnapshot req =>
    by_cases hterm : n.sm.currentTerm ≤ req.term
    · exact (onInstallSnapshot_toMem h.fits.inRange h.positioned.buffer
        (hbelow hterm).le).turn.node.symm
    · have hstale := Nat.lt_of_not_le hterm
      show (onInstallSnapshot req (Turn.start n)).2.node.toMem =
        (onInstallSnapshot req (Turn.start n.toMem)).2.node
      rw [onInstallSnapshot_stale (x := Turn.start n) hstale,
        onInstallSnapshot_stale (x := Turn.start n.toMem) hstale]
      rfl
  | requestVote req => exact hinput.elim
  | message msg => exact hinput.elim
  | timer electionDue heartbeatDue => exact hinput.elim

/-- One delivery in order over machine words. -/
theorem Placed.step {cfg : RaftConfig} {n : RaftNodeInner WordStorage} (h : Placed n)
    {input : Input} (hinput : Deliverable input) (hok : InOrder cfg n input) :
    Placed (deliver cfg n input) ∧
      n.storage.firstIndex ≤ (deliver cfg n input).storage.firstIndex := by
  obtain ⟨hpos, hfirst, hlast⟩ := h.positioned.step h.room hinput hok.1 hok.2
  rw [← h.deliver_toMem hinput hok.2] at hpos hfirst hlast
  have hnext : Placed (deliver cfg n input) := ⟨hpos, hlast⟩
  refine ⟨hnext, ?_⟩
  rw [h.fits.inRange.firstIndex_eq, hnext.fits.inRange.firstIndex_eq]
  exact hfirst

/-- A run of deliveries in order. -/
theorem Placed.run {cfg : RaftConfig} {n : RaftNodeInner WordStorage} (h : Placed n)
    {inputs : List Input} (hinputs : ∀ input ∈ inputs, Deliverable input)
    (hok : Runs.Within (deliver cfg) (InOrder cfg) n inputs) :
    Placed (Runs.exec (deliver cfg) n inputs) ∧
      n.storage.firstIndex ≤ (Runs.exec (deliver cfg) n inputs).storage.firstIndex := by
  induction inputs generalizing n with
  | nil => exact ⟨h, Nat.le_refl _⟩
  | cons input inputs ih =>
    obtain ⟨hnext, hfirst⟩ := h.step (hinputs input List.mem_cons_self) hok.1
    obtain ⟨hend, hfirst'⟩ := ih hnext
      (fun input' hmem => hinputs input' (List.mem_cons_of_mem _ hmem)) hok.2
    exact ⟨hend, hfirst.trans hfirst'⟩

/-- **Snapshots in order leave the log intact.**  In a run of complete snapshots and batches
of consecutive entries, in any order, in which no installed snapshot ends before the log
begins, no accepted batch starts before the log or ends before the commit index, and none of
them ends at the last index there is, every state reached has an intact log, and the first
index never moves backwards.
SRCLINE: iceraft-node/src/node.rs:418-467, iceraft-storage/src/mem.rs:22-111, 198-213 -/
theorem snapshots_in_order (cfg : RaftConfig) (n : RaftNodeInner WordStorage)
    (halign : n.storage.mem.Aligned) (hroom : n.storage.lastIndex < u64Max)
    (hbuf : n.snapshotBuf = none) (hcommit : n.sm.commitIndex ≤ n.storage.lastIndex)
    (before after : List Input) (hinputs : ∀ input ∈ before ++ after, Deliverable input)
    (hok : Runs.Within (deliver cfg) (InOrder cfg) n (before ++ after)) :
    LogIntact (Runs.exec (deliver cfg) n before) ∧
      (Runs.exec (deliver cfg) n before).storage.firstIndex ≤
        (Runs.exec (deliver cfg) n (before ++ after)).storage.firstIndex := by
  obtain ⟨hok₁, hok₂⟩ := (Runs.within_append _ _ _).mp hok
  have hstart : Placed n := ⟨⟨halign, hbuf, hcommit⟩, hroom⟩
  obtain ⟨hmid, -⟩ := hstart.run (fun input hmem => hinputs input (List.mem_append_left _ hmem))
    hok₁
  obtain ⟨-, hfirst⟩ := hmid.run (fun input hmem => hinputs input (List.mem_append_right _ hmem))
    hok₂
  rw [Runs.exec_append]
  exact ⟨hmid.intact, hfirst⟩

/-- A snapshot, two entries behind it, and a later snapshot. -/
def advancingInputs : List Input :=
  [.installSnapshot ⟨1, 1, 5, 1, 0, [9], true⟩,
    .appendEntries ⟨1, 1, 5, 1, [⟨1, 6, [], entryNormal⟩, ⟨1, 7, [], entryNormal⟩], 6⟩,
    .installSnapshot ⟨1, 1, 6, 1, 0, [9], true⟩]

/-- A new follower after some inputs. -/
def afterInputs (inputs : List Input) : RaftNodeInner WordStorage :=
  Runs.exec (deliver { id := 2, peers := [1, 3] }) (RaftNodeInner.new ⟨.new⟩) inputs

/-- With snapshots that advance the log stays intact and begins ever later. -/
theorem snapshots_in_order_advancingInputs : LogIntact (afterInputs (advancingInputs.take 2)) ∧
    (afterInputs (advancingInputs.take 2)).storage.firstIndex ≤
      (afterInputs (advancingInputs.take 2 ++ advancingInputs.drop 2)).storage.firstIndex :=
  snapshots_in_order _ _ (fun k hk => by cases hk) (by decide) rfl (by decide)
    (advancingInputs.take 2) (advancingInputs.drop 2) (by decide +kernel) (by decide +kernel)

/-- A snapshot that ends at index 3. -/
def lateSnapshot : Input := .installSnapshot ⟨1, 1, 3, 1, 0, [9], true⟩

/-- A snapshot that ends at the last index there is. -/
def endSnapshot : Input := .installSnapshot ⟨1, 1, u64Max, 1, 0, [9], true⟩

/-- The first arrives after the one that ends at index 5.  With entries behind that one, the
first index moves back and the entry read for index 4 is the one with index 6; without, the
last index is below the commit index.  Behind the second the first index wraps around to 0, and
none of the indices from there on can be read. -/
theorem late_snapshot_displaces :
    (∀ input ∈ advancingInputs.take 2 ++ [lateSnapshot, endSnapshot], Deliverable input) ∧
      (afterInputs (advancingInputs.take 2)).storage.firstIndex = 6 ∧
      (afterInputs (advancingInputs.take 2 ++ [lateSnapshot])).storage.firstIndex = 4 ∧
      (afterInputs (advancingInputs.take 2 ++ [lateSnapshot])).storage.lastIndex = 7 ∧
      unwrapOr ((afterInputs (advancingInputs.take 2 ++ [lateSnapshot])).storage.readEntries
        4 5 none) [] = [⟨1, 6, [], .normal⟩] ∧
      (afterInputs (advancingInputs.take 1 ++ [lateSnapshot])).storage.lastIndex = 3 ∧
      (afterInputs (advancingInputs.take 1 ++ [lateSnapshot])).sm.commitIndex = 5 ∧
      (afterInputs [endSnapshot]).storage.firstIndex = 0 ∧
      (afterInputs [endSnapshot]).storage.readEntries 1 2 none = .error (.logUnavailable 2) := by
  decide +kernel

end IceRaft
