import IceRaft.Analysis.BookkeepingRun
import IceRaft.Analysis.CatchUp

/-!
# The progress of the peers, turn by turn

A leader compares the progress of its peers with its own log and moves it by responses to
what it has sent.  So the node is followed beside the set of its tasks: those of the current
term name indices that its log still has.  Each change of the node keeps this.
-/

set_option autoImplicit false

namespace IceRaft

open Cluster Abstraction MemStorage NodeTurn

/-! ## A node and its tasks -/

/-- Above what is acknowledged, and not beyond the end of the log. -/
def Progress.Ordered (pr : Progress) (lastIndex : ℕ) : Prop :=
  pr.matchIndex < pr.nextIndex ∧ pr.nextIndex ≤ lastIndex + 1

/-- A request of the current term was sent by the leader of this term, and a node that is
still this leader has the indices it names. -/
def Fits (n : RaftNodeInner MemStorage) (reqLastIndex : ℕ) (req : AppendEntriesRequest) : Prop :=
  req.term < n.sm.currentTerm ∨
    (req.term = n.sm.currentTerm ∧ n.sm.role ≠ .candidate ∧
      (n.sm.role = .leader →
        reqLastIndex ≤ n.storage.lastIndex ∧ req.prevLogIndex ≤ n.storage.lastIndex))

/-- What holds of a node that has spawned the tasks `T`. -/
structure Charted (T : Set RpcTask) (n : RaftNodeInner MemStorage) : Prop where
  aligned : n.storage.Aligned
  appends : ∀ peer last req, .appendEntries peer last req ∈ T → Fits n last req
  snapshots : ∀ peer last req, .installSnapshot peer last req ∈ T → last < n.storage.firstIndex
  progress : n.sm.role = .leader → ∀ j pr, n.sm.progress.lookup j = some pr →
    pr.Ordered n.storage.lastIndex

/-- The saved term is the current one. -/
def RaftNodeInner.Saved (n : RaftNodeInner MemStorage) : Prop :=
  n.storage.hardState.term = n.sm.currentTerm

/-- What holds between two turns. -/
structure Resting (T : Set RpcTask) (n : RaftNodeInner MemStorage) : Prop where
  charted : Charted T n
  saved : n.Saved
  buffer : n.snapshotBuf = none

/-- What a restart needs of the storage. -/
structure Restartable (T : Set RpcTask) (s : MemStorage) : Prop where
  aligned : s.Aligned
  appends : ∀ peer last req, .appendEntries peer last req ∈ T → req.term ≤ s.hardState.term
  snapshots : ∀ peer last req, .installSnapshot peer last req ∈ T → last < s.firstIndex

/-- Same term, role, progress and log. -/
structure SameChart (n n' : RaftNodeInner MemStorage) : Prop where
  term : n'.sm.currentTerm = n.sm.currentTerm
  role : n'.sm.role = n.sm.role
  progress : n'.sm.progress = n.sm.progress
  entries : n'.storage.entries = n.storage.entries
  snapshot : n'.storage.snapshot = n.storage.snapshot
  buffer : n'.snapshotBuf = n.snapshotBuf
  saved : n.Saved → n'.Saved

/-- A node has its own chart. -/
theorem SameChart.refl (n : RaftNodeInner MemStorage) : SameChart n n :=
  ⟨rfl, rfl, rfl, rfl, rfl, rfl, id⟩

/-- To have the same chart is transitive. -/
theorem SameChart.trans {a b c : RaftNodeInner MemStorage} (h : SameChart a b)
    (h' : SameChart b c) : SameChart a c :=
  ⟨h'.term.trans h.term, h'.role.trans h.role, h'.progress.trans h.progress,
    h'.entries.trans h.entries, h'.snapshot.trans h.snapshot, h'.buffer.trans h.buffer,
    h'.saved ∘ h.saved⟩

variable {T : Set RpcTask} {n n' : RaftNodeInner MemStorage}

/-- Every task of a charted node is of its term or an earlier one. -/
theorem Fits.term_le {last : ℕ} {req : AppendEntriesRequest} (h : Fits n last req) :
    req.term ≤ n.sm.currentTerm := by
  obtain hlt | ⟨heq, -⟩ := h
  · exact hlt.le
  · exact heq.le

/-- A node whose term is saved can restart. -/
theorem Charted.restartable (h : Charted T n) (hsaved : n.Saved) : Restartable T n.storage where
  aligned := h.aligned
  appends peer last req hmem := (h.appends peer last req hmem).term_le.trans hsaved.ge
  snapshots := h.snapshots

/-- The log may grow, at the end or by a newer snapshot; that of a leader has to keep its
length. -/
theorem Charted.grow (h : Charted T n) (hterm : n'.sm.currentTerm = n.sm.currentTerm)
    (hrole : n'.sm.role = n.sm.role) (hprogress : n'.sm.progress = n.sm.progress)
    (halign : n'.storage.Aligned) (hfirst : n.storage.firstIndex ≤ n'.storage.firstIndex)
    (hlast : n.sm.role = .leader → n.storage.lastIndex ≤ n'.storage.lastIndex) :
    Charted T n' where
  aligned := halign
  appends peer last req hmem := by
    unfold Fits
    rw [hterm, hrole]
    obtain hold | ⟨heq, hcand, hlead⟩ := h.appends peer last req hmem
    · exact .inl hold
    · refine .inr ⟨heq, hcand, ?_⟩
      intro hl
      exact ⟨(hlead hl).1.trans (hlast hl), (hlead hl).2.trans (hlast hl)⟩
  snapshots peer last req hmem := (h.snapshots peer last req hmem).trans_le hfirst
  progress hl j pr hpr := by
    rw [hrole] at hl
    rw [hprogress] at hpr
    obtain ⟨hlt, hle⟩ := h.progress hl j pr hpr
    exact ⟨hlt, hle.trans (Nat.succ_le_succ (hlast hl))⟩

/-- A node with the same chart is charted. -/
theorem Charted.same (h : Charted T n) (hs : SameChart n n') : Charted T n' := by
  have hlog := eq_of_log hs.entries hs.snapshot
  apply h.grow hs.term hs.role hs.progress
  · rw [hlog]
    exact h.aligned
  · rw [hlog]
    rfl
  · intro _
    rw [hlog]
    rfl

/-- A node with the same chart rests as well. -/
theorem Resting.same (h : Resting T n) (hs : SameChart n n') : Resting T n' :=
  ⟨h.charted.same hs, hs.saved h.saved, hs.buffer.trans h.buffer⟩

/-- A batch that starts in the log or right behind it; that of a leader has to reach its end. -/
theorem Resting.appended (h : Resting T n) {p : ℕ} {batch : List LogEntry}
    (hcons : Consecutive (p + 1) batch) (hne : batch ≠ [])
    (hlo : n.storage.firstIndex ≤ p + 1) (hhi : p ≤ n.storage.lastIndex)
    (hend : n.sm.role = .leader → n.storage.lastIndex ≤ p + batch.length) :
    Resting T (n.appended batch) where
  charted := by
    refine h.charted.grow rfl rfl rfl ?_ ?_ ?_
    · exact h.charted.aligned.append_batch hcons hne hlo hhi
    · exact (appendEntries_firstIndex _ _).ge
    · intro hl
      show n.storage.lastIndex ≤ (n.storage.appendEntries batch).lastIndex
      rw [h.charted.aligned.lastIndex_batch hcons hne hlo hhi]
      exact hend hl
  saved := by
    show (n.storage.appendEntries batch).hardState.term = _
    rw [appendEntries_hardState]
    exact h.saved
  buffer := h.buffer

/-- A node that enters a new term, as a follower or as a candidate, has sent nothing in it. -/
theorem Charted.enter (h : Charted T n) (hterm : n.sm.currentTerm < n'.sm.currentTerm)
    (hrole : n'.sm.role ≠ .leader) (hstorage : n'.storage = n.storage) : Charted T n' where
  aligned := hstorage ▸ h.aligned
  appends peer last req hmem := .inl ((h.appends peer last req hmem).term_le.trans_lt hterm)
  snapshots := hstorage ▸ h.snapshots
  progress hl := absurd hl hrole

/-- A candidate that becomes the leader of its term has sent nothing in it. -/
theorem Charted.lead (h : Charted T n) (hcand : n.sm.role = .candidate)
    (hterm : n'.sm.currentTerm = n.sm.currentTerm) (hstorage : n'.storage = n.storage)
    (hprogress : ∀ j pr, n'.sm.progress.lookup j = some pr → pr.Ordered n.storage.lastIndex) :
    Charted T n' where
  aligned := hstorage ▸ h.aligned
  appends peer last req hmem := by
    obtain hlt | ⟨-, hrole, -⟩ := h.appends peer last req hmem
    · exact .inl (hlt.trans_eq hterm.symm)
    · exact absurd hcand hrole
  snapshots := hstorage ▸ h.snapshots
  progress _ j pr hpr := hstorage ▸ hprogress j pr hpr

/-- A task more. -/
theorem Charted.sendAppend (h : Charted T n) {peer : NodeId} {last : ℕ}
    {req : AppendEntriesRequest} (hfits : Fits n last req) :
    Charted (insert (.appendEntries peer last req) T) n where
  aligned := h.aligned
  appends peer' last' req' hmem := by
    obtain heq | hmem := hmem
    · cases heq
      exact hfits
    · exact h.appends peer' last' req' hmem
  snapshots peer' last' req' hmem := by
    obtain heq | hmem := hmem
    · cases heq
    · exact h.snapshots peer' last' req' hmem
  progress := h.progress

/-- A snapshot that ends before the log begins may be sent. -/
theorem Charted.sendSnapshot (h : Charted T n) {peer : NodeId} {last : ℕ}
    {req : InstallSnapshotRequest} (hlast : last < n.storage.firstIndex) :
    Charted (insert (.installSnapshot peer last req) T) n where
  aligned := h.aligned
  appends peer' last' req' hmem := by
    obtain heq | hmem := hmem
    · cases heq
    · exact h.appends peer' last' req' hmem
  snapshots peer' last' req' hmem := by
    obtain heq | hmem := hmem
    · cases heq
      exact hlast
    · exact h.snapshots peer' last' req' hmem
  progress := h.progress

/-- A response moves the progress of one peer. -/
theorem Charted.report (h : Charted T n) (peer : NodeId) {f : Progress → Progress}
    (hf : ∀ pr, n.sm.progress.lookup peer = some pr → (f pr).Ordered n.storage.lastIndex) :
    Charted T { n with sm := updateProgress peer f n.sm } := by
  obtain ⟨m, hm⟩ := updateProgress_eq peer f n.sm
  refine ⟨h.aligned, ?_, h.snapshots, ?_⟩
  · unfold Fits
    rw [hm]
    exact h.appends
  · intro hl j pr hpr
    have hlead : n.sm.role = .leader := by
      rw [hm] at hl
      exact hl
    obtain hold | ⟨rfl, old, hold, rfl⟩ := updateProgress_lookup hpr
    · exact h.progress hlead j pr hold
    · exact hf old hold

/-- A node that boots. -/
theorem Restartable.booted {s : MemStorage} (h : Restartable T s) : Resting T (.booted s) where
  charted :=
    { aligned := h.aligned
      appends := fun peer last req hmem => by
        apply (Nat.lt_or_eq_of_le (h.appends peer last req hmem)).imp_right
        intro heq
        exact ⟨heq, RaftRole.noConfusion, RaftRole.noConfusion⟩
      snapshots := h.snapshots
      progress := RaftRole.noConfusion }
  saved := rfl
  buffer := rfl

/-! ## What does not move the chart -/

/-- An effect that neither sends entries or a snapshot nor answers such a request. -/
def Effect.plain : Effect → Prop
  | .spawned (.appendEntries _ _ _) | .spawned (.installSnapshot _ _ _) => False
  | .replied (.appendEntries _ _) | .replied (.installSnapshot _ _) => False
  | _ => True

/-- A continuation that leaves the chart alone. -/
abbrev Still (x y : NodeTurn MemStorage) : Prop := Turn.Quiet SameChart Effect.plain x y

namespace Still

variable {x y z : NodeTurn MemStorage} {cfg : RaftConfig}

/-- No code, no change of the chart. -/
theorem done (x : NodeTurn MemStorage) : Still x x := .refl SameChart.refl x

/-- Code in a row keeps the chart. -/
theorem next (h : Still x y) (h' : Still y z) : Still x z := h.trans SameChart.trans h'

/-- A plain effect keeps the chart. -/
theorem emit {e : Effect} (he : e.plain) : Still x (x.effect e) :=
  Turn.Quiet.emit SameChart.refl he

/-- A change that leaves term, role and progress alone keeps the chart. -/
theorem modifySm {f : RaftStateMachine → RaftStateMachine}
    (hterm : (f x.sm).currentTerm = x.sm.currentTerm) (hrole : (f x.sm).role = x.sm.role)
    (hprogress : (f x.sm).progress = x.sm.progress) : Still x (x.modifySm f) := by
  unfold NodeTurn.modifySm
  exact Turn.Quiet.modify ⟨hterm, hrole, hprogress, rfl, rfl, rfl, fun h => h.trans hterm.symm⟩

/-- A count keeps the chart. -/
theorem modifyMetrics (f : RaftMetrics → RaftMetrics) : Still x (x.modifyMetrics f) := by
  unfold NodeTurn.modifyMetrics
  exact Turn.Quiet.modify ⟨rfl, rfl, rfl, rfl, rfl, rfl, id⟩

/-- The waiting proposals are no part of the chart. -/
theorem setPending (pending : RaftNodeInner MemStorage → List (ℕ × Sender)) :
    Still x (x.update fun n => { n with pending := pending n }) :=
  Turn.Quiet.modify ⟨rfl, rfl, rfl, rfl, rfl, rfl, id⟩

/-- Saving keeps the chart, and the saved term with it. -/
theorem save (x : NodeTurn MemStorage) : Still x x.saveHardState := by
  have hsaved : Still x (x.update RaftNodeInner.saved) :=
    Turn.Quiet.modify ⟨rfl, rfl, rfl, rfl, rfl, rfl, fun _ => rfl⟩
  have hwrote : Still x ((x.update RaftNodeInner.saved).effect .wrote) := hsaved.next (emit trivial)
  unfold NodeTurn.saveHardState
  exact hwrote.next (modifyMetrics _)

/-- A follower's commit index is no part of the chart. -/
theorem advanceCommit (req : AppendEntriesRequest) (x : NodeTurn MemStorage) :
    Still x (x.advanceCommit req) := by
  unfold NodeTurn.advanceCommit
  split
  · exact next (modifySm rfl rfl rfl) (save _)
  · exact done x

/-- Nor are the answers to callers. -/
theorem notifyPending (x : NodeTurn MemStorage) : Still x x.notifyPending := by
  unfold NodeTurn.notifyPending
  refine next (setPending fun _ => []) ?_
  apply Turn.Quiet.foldl SameChart.refl SameChart.trans _ _
  intro y waiting _
  unfold NodeTurn.notifyOne
  split
  · exact emit trivial
  · exact setPending _

/-- The commit step keeps the chart. -/
theorem maybeAdvanceCommit (x : NodeTurn MemStorage) : Still x (x.maybeAdvanceCommit cfg) := by
  unfold NodeTurn.maybeAdvanceCommit
  split
  · exact done x
  · rw [lastIndexOr0_eq]
    dsimp only
    rw [(commitScan_cases cfg x.node.storage.lastIndex x).1]
    split
    · exact next (next (next (modifySm rfl rfl rfl) (save _)) (modifyMetrics _)) (notifyPending _)
    · exact notifyPending x

/-- Applying keeps the chart. -/
theorem applyCommitted (x : NodeTurn MemStorage) : Still x x.applyCommitted := by
  unfold NodeTurn.applyCommitted
  dsimp only
  split
  · exact done x
  · rw [read_entries]
    cases x.node.storage.readEntries (x.sm.lastApplied + 1) (x.sm.commitIndex + 1) none with
    | error e => exact done x
    | ok es =>
      apply Turn.Quiet.foldl SameChart.refl SameChart.trans _ _
      intro y entry _
      exact next (modifySm rfl rfl rfl) (emit trivial)

/-- Behind the step down, a vote leaves the chart alone. -/
theorem handleRequestVote (req : RequestVoteRequest) (x : NodeTurn MemStorage) :
    Still (x.descend req.term none) (x.handleRequestVote req) := by
  unfold NodeTurn.handleRequestVote
  refine next ?_ (emit trivial)
  unfold NodeTurn.onRequestVote
  dsimp only
  rw [← NodeTurn.descend]
  generalize x.descend req.term none = y
  split
  · exact done y
  · split
    · exact done y
    · rw [lastIndexOr0_eq, termOr0_eq]
      dsimp only
      generalize (if y.node.storage.lastIndex > 0 then
        unwrapOr (y.node.storage.term y.node.storage.lastIndex) 0 else 0) = t
      split
      · dsimp only
        exact next (next (modifySm rfl rfl rfl) (save _)) (modifyMetrics _)
      · exact done y

end Still

/-! ## The tasks of a cluster -/

/-- The tasks each node has spawned so far. -/
abbrev Tasks := NodeId → Set RpcTask

/-- A response of the term of its request does not point beyond the entry that the request
begins with. -/
def Answers (req : AppendEntriesRequest) (resp : AppendEntriesResponse) : Prop :=
  resp.success = true ∨ resp.conflictIndex > 0 →
    resp.term = req.term ∧ resp.conflictIndex ≤ req.prevLogIndex + 1

/-- A request comes from a task of its sender, and a response answers one of its receiver. -/
def Sourced (a : Tasks) : Packet → Prop
  | .request src _ (.appendEntries peer last req) =>
    .appendEntries peer last req ∈ a src ∧
      Consecutive (req.prevLogIndex + 1) (req.entries.map protoEntryToLogEntry)
  | .request src _ (.installSnapshot peer last req) =>
    .installSnapshot peer last req ∈ a src ∧ req.done = true
  | .response dst (.appendResponse peer last resp) =>
    ∃ req, .appendEntries peer last req ∈ a dst ∧ Answers req resp
  | .response dst (.snapshotResponse peer last _) =>
    ∃ req, .installSnapshot peer last req ∈ a dst
  | _ => True

/-- A packet keeps its source as tasks are added. -/
theorem Sourced.mono {a b : Tasks} (hab : ∀ i, a i ⊆ b i) {p : Packet} (h : Sourced a p) :
    Sourced b p := by
  cases p with
  | request src waiting task =>
    cases task with
    | requestVote peer req => trivial
    | appendEntries peer last req => exact ⟨hab src h.1, h.2⟩
    | installSnapshot peer last req => exact ⟨hab src h.1, h.2⟩
  | response dst msg =>
    cases msg with
    | appendResponse peer last resp =>
      obtain ⟨req, hmem, hanswers⟩ := h
      exact ⟨req, hab dst hmem, hanswers⟩
    | snapshotResponse peer last resp =>
      obtain ⟨req, hmem⟩ := h
      exact ⟨req, hab dst hmem⟩
    | _ => trivial

/-- Node `i` spawns tasks. -/
def Spawns (i : NodeId) (a b : Tasks) : Prop :=
  ∃ task, b = Function.update a i (insert task (a i))

/-- Tasks are only added. -/
theorem Spawns.subset {i : NodeId} {a b : Tasks} (h : Spawns i a b) (j : NodeId) : a j ⊆ b j := by
  obtain ⟨task, rfl⟩ := h
  by_cases hj : j = i
  · subst hj
    rw [Function.update_self]
    exact Set.subset_insert task (a j)
  · rw [Function.update_of_ne hj]

/-- Only the active node adds tasks. -/
theorem Spawns.other {i j : NodeId} {a b : Tasks} (h : Spawns i a b) (hj : j ≠ i) : b j = a j := by
  obtain ⟨task, rfl⟩ := h
  exact Function.update_of_ne hj _ _

/-- The nodes beside their tasks. -/
def charting (cond : Condition MemStorage) : Abstraction MemStorage Tasks where
  step := Spawns
  good _ := True
  node a i _ n := Resting (a i) n
  durable a i _ n := Restartable (a i) n.storage
  packet := Sourced
  legal _ _ _ := True
  cond _ := cond
  good_step _ _ := trivial
  node_step := by
    intro i j a b h n hs _ hj hn
    rw [hs.other hj]
    exact hn
  packet_step hs _ hp := hp.mono hs.subset
  packet_orphan := by
    intro a src task hp
    cases task with
    | requestVote peer req => trivial
    | appendEntries peer last req => exact hp
    | installSnapshot peer last req => exact hp

/-- A plain effect puts nothing on the network that has to be sourced. -/
theorem Effect.plain.sourced {e : Effect} (he : e.plain) {i : NodeId}
    {asker : Option (NodeId × RpcTask)} {a : Tasks} {p : Packet}
    (hp : e.packet i asker = some p) : Sourced a p := by
  obtain ⟨task, rfl, rfl⟩ | ⟨src, peer, req, resp, rfl, rfl⟩ |
    ⟨src, peer, last, req, resp, rfl, rfl⟩ | ⟨src, peer, last, req, resp, rfl, rfl⟩ :=
    Effect.packet_cases hp
  · cases task with
    | requestVote peer req => trivial
    | appendEntries peer last req => exact he.elim
    | installSnapshot peer last req => exact he.elim
  · trivial
  · exact he.elim
  · exact he.elim

section Turn

variable {cond : Condition MemStorage} {a₀ : Tasks} {i : NodeId} {h : List Effect}
  {asker : Option (NodeId × RpcTask)} {n₀ : RaftNodeInner MemStorage} {x y : NodeTurn MemStorage}
  {cfg : RaftConfig} {Q Q' : Set RpcTask → RaftNodeInner MemStorage → Prop}

/-- The turn has been followed so far, and `Q` holds of the tasks and the node. -/
abbrev ChartFollows (cond : Condition MemStorage) (a₀ : Tasks) (i : NodeId) (h : List Effect)
    (asker : Option (NodeId × RpcTask)) (n₀ : RaftNodeInner MemStorage)
    (Q : Set RpcTask → RaftNodeInner MemStorage → Prop) (x : NodeTurn MemStorage) : Prop :=
  (charting cond).Follows a₀ i h asker n₀ (fun a _ n => Q (a i) n) x

/-- What is asked of the node may be weakened. -/
theorem ChartFollows.mono (hx : ChartFollows cond a₀ i h asker n₀ Q x)
    (hQ : ∀ T, Q T x.node → Q' T x.node) : ChartFollows cond a₀ i h asker n₀ Q' x :=
  Follows.mono hx fun a _ _ hq => hQ (a i) hq

/-- A silent change of the node. -/
theorem ChartFollows.change (hx : ChartFollows cond a₀ i h asker n₀ Q x)
    (f : RaftNodeInner MemStorage → RaftNodeInner MemStorage)
    (hQ : ∀ T, Q T x.node → Q' T (f x.node)) : ChartFollows cond a₀ i h asker n₀ Q' (x.update f) :=
  Follows.update hx f fun a _ _ hq => hQ (a i) hq

/-- A change of the Raft state. -/
theorem ChartFollows.changeSm (hx : ChartFollows cond a₀ i h asker n₀ Q x)
    {f : RaftStateMachine → RaftStateMachine}
    (hQ : ∀ T, Q T x.node → Q' T { x.node with sm := f x.node.sm }) :
    ChartFollows cond a₀ i h asker n₀ Q' (x.modifySm f) :=
  Follows.modifySm hx fun a _ _ hq => hQ (a i) hq

/-- A plain effect. -/
theorem ChartFollows.plain (hx : ChartFollows cond a₀ i h asker n₀ Q x) {e : Effect}
    (he : e.plain) (hd : ∀ T, Q T x.node → Restartable T x.node.storage) :
    ChartFollows cond a₀ i h asker n₀ Q (x.effect e) :=
  Follows.effect hx e fun a _ _ _ hq =>
    ⟨a, .refl, hd (a i) hq, fun _ hp => he.sourced hp, hq⟩

/-- A continuation that leaves the chart alone. -/
theorem ChartFollows.still (hx : ChartFollows cond a₀ i h asker n₀ Resting x) (hxy : Still x y) :
    ChartFollows cond a₀ i h asker n₀ Resting y :=
  Follows.quiet hx hxy (fun _ _ _ _ hs hq => hq.same hs)
    (fun _ _ _ _ he hq => ⟨hq, fun _ hp => he.sourced hp⟩)
    fun _ _ _ hq => hq.charted.restartable hq.saved

/-- The save of a node whose term may have changed. -/
theorem ChartFollows.save (hx : ChartFollows cond a₀ i h asker n₀
    (fun T n => Charted T n ∧ n.snapshotBuf = none) x) :
    ChartFollows cond a₀ i h asker n₀ Resting x.saveHardState := by
  have hsaved : ChartFollows cond a₀ i h asker n₀ Resting (x.update RaftNodeInner.saved) :=
    hx.change _ fun T hq => ⟨hq.1.grow rfl rfl rfl hq.1.aligned le_rfl fun _ => le_rfl, rfl, hq.2⟩
  have hwrote := hsaved.plain (e := .wrote) trivial fun T hq => hq.charted.restartable hq.saved
  unfold NodeTurn.saveHardState
  exact hwrote.still (Still.modifyMetrics _)

/-- A new term, and its save. -/
theorem ChartFollows.enter (hx : ChartFollows cond a₀ i h asker n₀ Resting x)
    {f : RaftStateMachine → RaftStateMachine} (hterm : x.sm.currentTerm < (f x.sm).currentTerm)
    (hrole : (f x.sm).role ≠ .leader) :
    ChartFollows cond a₀ i h asker n₀ Resting (x.modifySm f).saveHardState :=
  ChartFollows.save (hx.changeSm fun _ hq => ⟨hq.charted.enter hterm hrole rfl, hq.buffer⟩)

/-- A node that steps down rests. -/
theorem ChartFollows.descend (hx : ChartFollows cond a₀ i h asker n₀ Resting x) (term : ℕ)
    (leaderId : Option NodeId) :
    ChartFollows cond a₀ i h asker n₀ Resting (x.descend term leaderId) := by
  unfold NodeTurn.descend
  split
  · rename_i hlt
    exact hx.enter hlt RaftRole.noConfusion
  · exact hx

end Turn

end IceRaft
