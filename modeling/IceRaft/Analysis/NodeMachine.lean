import IceRaft.Analysis.Transitions
import IceRaft.Lib.LabelledMoves

/-!
# The machine of a node

What a node does over any storage, as a machine: its state is the memory of the node, its
labels are the effects.  A turn is a walk of this machine, up to each of its crash points.
-/

set_option autoImplicit false

namespace IceRaft

open Labelled

/-- The leader an input names. -/
def Input.leader? : Input → Option NodeId
  | .appendEntries req => some req.leaderId
  | .installSnapshot req => some req.leaderId
  | _ => none

/-- What an input makes of the progress of which peer. -/
def Input.report? : Input → Option (NodeId × (Progress → Progress))
  | .message (.appendResponse peer last resp) => some (peer, NodeTurn.progressAfterAppend last resp)
  | .message (.snapshotResponse peer last _) => some (peer, NodeTurn.progressAfterSnapshot last)
  | _ => none

/-- The errors the storage may answer an append with. -/
def StorageFault (σ : Type) [Storage σ] (err : RaftError) : Prop :=
  ∃ es, ∃ s : σ, (Storage.appendEntries es s).1 = .error err

/-- What a turn on `input` may show when the memory of the node is `m`. -/
inductive Shown (fault : RaftError → Prop) (cfg : RaftConfig) (input : Input) (m : Volatile) :
    Effect → Prop
  | wrote : Shown fault cfg input m .wrote
  /-- a candidate asks for a vote -/
  | ask {peer : NodeId} {req : RequestVoteRequest} (hpeer : peer ∈ cfg.peers)
      (hrole : m.sm.role = .candidate) (hterm : req.term = m.sm.currentTerm)
      (hid : req.candidateId = cfg.id) : Shown fault cfg input m (.spawned (.requestVote peer req))
  /-- a leader sends entries or a heartbeat -/
  | send {peer : NodeId} {last : ℕ} {req : AppendEntriesRequest} (hpeer : peer ∈ cfg.peers)
      (hrole : m.sm.role = .leader) (hterm : req.term = m.sm.currentTerm)
      (hid : req.leaderId = cfg.id) (hcommit : req.leaderCommit = m.sm.commitIndex)
      (hlast : last = req.prevLogIndex + req.entries.length) :
      Shown fault cfg input m (.spawned (.appendEntries peer last req))
  /-- a leader sends a snapshot -/
  | ship {peer : NodeId} {last : ℕ} {req : InstallSnapshotRequest} (hpeer : peer ∈ cfg.peers)
      (hrole : m.sm.role = .leader) (hterm : req.term = m.sm.currentTerm)
      (hid : req.leaderId = cfg.id) (hlast : last = req.lastIncludedIndex) :
      Shown fault cfg input m (.spawned (.installSnapshot peer last req))
  /-- the vote, which goes to the candidate if it is granted -/
  | vote {req : RequestVoteRequest} {resp : RequestVoteResponse}
      (hinput : input = .requestVote req) (hterm : resp.term = m.sm.currentTerm)
      (hvote : resp.voteGranted = true →
        req.term = m.sm.currentTerm ∧ m.sm.votedFor = some req.candidateId) :
      Shown fault cfg input m (.replied (.requestVote req (.ok resp)))
  /-- the reply to a batch, which is taken from the leader of the term if at all -/
  | acknowledge {req : AppendEntriesRequest} {result : Except RaftError AppendEntriesResponse}
      (hinput : input = .appendEntries req)
      (hreply : ∀ resp, result = .ok resp → resp.term = m.sm.currentTerm ∧
        (resp.success = true → req.term = m.sm.currentTerm ∧
          m.sm.leaderId = some req.leaderId)) :
      Shown fault cfg input m (.replied (.appendEntries req result))
  | receipt {req : InstallSnapshotRequest} {result : Except RaftError InstallSnapshotResponse}
      (hinput : input = .installSnapshot req)
      (hreply : ∀ resp, result = .ok resp → resp.term = m.sm.currentTerm) :
      Shown fault cfg input m (.replied (.installSnapshot req result))
  | announce {heartbeatDue : Bool} (hinput : input = .timer true heartbeatDue)
      (hrole : m.sm.role = .candidate) : Shown fault cfg input m (.electionStarted m.sm.currentTerm)
  /-- a proposal is refused -/
  | refuse {data : Bytes} {tx : Sender} (hinput : input = .message (.propose ⟨data, some tx⟩))
      (hrole : m.sm.role ≠ .leader) :
      Shown fault cfg input m (.answered tx (.error (.notLeader m.sm.leaderId)))
  /-- the storage refuses the entry of a proposal -/
  | fail {data : Bytes} {tx : Sender} {err : RaftError}
      (hinput : input = .message (.propose ⟨data, some tx⟩)) (hrole : m.sm.role = .leader)
      (hfault : fault err) :
      Shown fault cfg input m (.answered tx (.error err))
  /-- a proposal that the commit index has reached is answered -/
  | confirm {w : ℕ × Sender} (hwait : w ∈ m.pending) (hrole : m.sm.role = .leader)
      (hle : w.1 ≤ m.sm.commitIndex) : Shown fault cfg input m (.answered w.2 (.ok w.1))
  | readIndex {tx : Sender} (hinput : input = .message (.readIndex tx)) :
      Shown fault cfg input m (.answered tx (.ok m.sm.commitIndex))
  | leader {tx : Sender} (hinput : input = .message (.getLeader tx)) :
      Shown fault cfg input m (.answeredLeader tx m.sm.leaderId)
  | term {tx : Sender} (hinput : input = .message (.getTerm tx)) :
      Shown fault cfg input m (.answeredTerm tx m.sm.currentTerm)

/-- What a turn on `input` may do to the memory, and what it shows with it. -/
inductive Act (fault : RaftError → Prop) (cfg : RaftConfig) (input : Input) :
    Volatile → Option Effect → Volatile → Prop
  /-- an effect leaves the memory alone -/
  | emit (m : Volatile) {e : Effect} (h : Shown fault cfg input m e) :
      Act fault cfg input m (some e) m
  /-- the message carries a higher term -/
  | stepDown (m : Volatile) {term : ℕ} (hinput : input.term? = some term)
      (h : term > m.sm.currentTerm) :
      Act fault cfg input m none { m with sm := m.sm.becomeFollower term input.leader? }
  /-- a request comes from the leader of the term -/
  | hint (m : Volatile) {req : AppendEntriesRequest} (hinput : input = .appendEntries req)
      (hterm : req.term = m.sm.currentTerm) :
      Act fault cfg input m none { m with sm := { m.sm with leaderId := some req.leaderId } }
  /-- the commit index follows that of the leader -/
  | follow (m : Volatile) {req : AppendEntriesRequest} (commit : ℕ)
      (hinput : input = .appendEntries req) (hterm : req.term = m.sm.currentTerm)
      (hlt : m.sm.commitIndex < req.leaderCommit) (hle : commit ≤ req.leaderCommit) :
      Act fault cfg input m none { m with sm := { m.sm with commitIndex := commit } }
  /-- a snapshot is installed -/
  | install (m : Volatile) {req : InstallSnapshotRequest} (hinput : input = .installSnapshot req)
      (hterm : req.term = m.sm.currentTerm) :
      Act fault cfg input m none { m with sm := { m.sm with
        commitIndex := max m.sm.commitIndex req.lastIncludedIndex,
        lastApplied := max m.sm.lastApplied req.lastIncludedIndex } }
  /-- a vote is granted -/
  | grant (m : Volatile) {req : RequestVoteRequest} (hinput : input = .requestVote req)
      (hterm : req.term = m.sm.currentTerm)
      (hfree : NodeTurn.alreadyVoted m.sm req.candidateId = false) :
      Act fault cfg input m none { m with sm := { m.sm with votedFor := some req.candidateId } }
  /-- the election timer fires -/
  | stand (m : Volatile) {heartbeatDue : Bool} (hinput : input = .timer true heartbeatDue)
      (hrole : m.sm.role ≠ .leader) :
      Act fault cfg input m none { m with sm := m.sm.becomeCandidate cfg.id }
  /-- a granted vote arrives -/
  | count (m : Volatile) {peer : NodeId} {resp : RequestVoteResponse}
      (hinput : input = .message (.voteResponse peer resp)) (hgranted : resp.voteGranted = true)
      (hterm : resp.term ≤ m.sm.currentTerm) (hrole : m.sm.role = .candidate) :
      Act fault cfg input m none { m with
        sm := { m.sm with votesReceived := insert peer m.sm.votesReceived } }
  /-- the votes are a quorum -/
  | lead (m : Volatile) (last : ℕ) (hrole : m.sm.role = .candidate)
      (hquorum : cfg.quorum ≤ m.sm.votesReceived.card) :
      Act fault cfg input m (some (.becameLeader m.sm.currentTerm))
        { m with sm := m.sm.becomeLeader cfg.id last cfg.peers }
  /-- a follower reports -/
  | report (m : Volatile) {peer : NodeId} {f : Progress → Progress}
      (hinput : input.report? = some (peer, f)) (hrole : m.sm.role = .leader) :
      Act fault cfg input m none { m with sm := NodeTurn.updateProgress peer f m.sm }
  /-- a quorum holds an index -/
  | commit (m : Volatile) (index : ℕ) (hrole : m.sm.role = .leader)
      (hlt : m.sm.commitIndex < index) (hquorum : cfg.quorum ≤ m.sm.replicated index) :
      Act fault cfg input m none { m with sm := { m.sm with commitIndex := index } }
  /-- a proposal is accepted -/
  | accept (m : Volatile) {entry : LogEntry} {tx : Sender}
      (hinput : input = .message (.propose ⟨entry.data, some tx⟩)) (hrole : m.sm.role = .leader)
      (hterm : entry.term = m.sm.currentTerm) :
      Act fault cfg input m (some (.accepted tx entry))
        { m with pending := m.pending ++ [(entry.index, tx)] }
  /-- what the commit index has reached waits no more -/
  | settle (m : Volatile) (hrole : m.sm.role = .leader) :
      Act fault cfg input m none { m with
        pending := m.pending.filter fun w => decide (m.sm.commitIndex < w.1) }
  /-- an entry is applied -/
  | apply (m : Volatile) {electionDue : Bool} (entry : LogEntry)
      (hinput : input = .timer electionDue true) (hrole : m.sm.role = .leader) :
      Act fault cfg input m (some (.applied entry))
        { m with sm := { m.sm with lastApplied := entry.index } }

namespace NodeTurn

variable {σ : Type} {fault : RaftError → Prop} {cfg : RaftConfig} {input : Input}
  {x y z : NodeTurn σ}

/-- `y` continues `x` along a walk of the machine. -/
def Goes (fault : RaftError → Prop) (cfg : RaftConfig) (input : Input) (x y : NodeTurn σ) :
    Prop :=
  ∃ es, y.effects = x.effects ++ es ∧ Walk (Act fault cfg input) x.volatile es y.volatile

/-- No code, no step of the machine. -/
theorem Goes.refl (x : NodeTurn σ) : Goes fault cfg input x x :=
  ⟨[], (List.append_nil _).symm, .refl⟩

/-- Code in a row is a walk in a row. -/
theorem Goes.trans (h : Goes fault cfg input x y) (h' : Goes fault cfg input y z) :
    Goes fault cfg input x z := by
  obtain ⟨es, he, hp⟩ := h
  obtain ⟨es', he', hp'⟩ := h'
  exact ⟨es ++ es', by rw [he', he, List.append_assoc], hp.trans hp'⟩

/-- Code that shows nothing and moves the memory as told. -/
theorem Goes.silent (he : y.effects = x.effects)
    (h : Act fault cfg input x.volatile none y.volatile) : Goes fault cfg input x y :=
  ⟨[], by rw [he, List.append_nil], .silent h⟩

/-- Code that shows nothing and leaves the memory alone. -/
theorem Goes.same (he : y.effects = x.effects) (hv : y.volatile = x.volatile) :
    Goes fault cfg input x y := by
  refine ⟨[], by rw [he, List.append_nil], ?_⟩
  rw [hv]
  exact .refl

/-- An effect the state allows is a step of the machine. -/
theorem Goes.emit {e : Effect} (h : Shown fault cfg input x.volatile e) :
    Goes fault cfg input x (x.effect e) :=
  ⟨[e], Turn.emit_effects e x, .shown (.emit x.volatile h)⟩

/-- The disk is no part of the machine, so a read is no step. -/
theorem Goes.read {α : Type} (op : σ → Except RaftError α × σ) (x : NodeTurn σ) :
    Goes fault cfg input x (x.read op).2 := .same rfl rfl

/-- A write shows that something was written. -/
theorem Goes.write {α : Type} (op : σ → Except RaftError α × σ) (x : NodeTurn σ) :
    Goes fault cfg input x (x.write op).2 :=
  (Goes.read op x).trans (Goes.emit .wrote)

/-- The counters are no part of the machine. -/
theorem Goes.modifyMetrics (f : RaftMetrics → RaftMetrics) (x : NodeTurn σ) :
    Goes fault cfg input x (x.modifyMetrics f) := .same rfl rfl

/-- A loop of effects that leave the memory alone is a walk. -/
theorem Goes.foldl {α : Type} (f : NodeTurn σ → α → NodeTurn σ) (l : List α)
    (hf : ∀ y, ∀ a ∈ l, y.volatile = x.volatile → Goes fault cfg input y (f y a) ∧
      (f y a).volatile = x.volatile) : Goes fault cfg input x (l.foldl f x) := by
  have hfold : ∀ (l' : List α) (y : NodeTurn σ), (∀ a ∈ l', a ∈ l) → y.volatile = x.volatile →
      Goes fault cfg input y (l'.foldl f y) := by
    intro l'
    induction l' with
    | nil => exact fun y _ _ => .refl y
    | cons a l' ih =>
      intro y hl hy
      obtain ⟨hgo, hv⟩ := hf y a (hl a List.mem_cons_self) hy
      exact hgo.trans (ih _ (fun b hb => hl b (List.mem_cons_of_mem _ hb)) hv)
  exact hfold l x (fun _ h => h) rfl

variable [Storage σ]

/-- Saving is a write. -/
theorem Goes.saveHardState (x : NodeTurn σ) : Goes fault cfg input x x.saveHardState :=
  (Goes.write _ x).trans (Goes.modifyMetrics _ _)

/-! ## Code that only reads -/

/-- The last index is read. -/
theorem Goes.lastIndexOr0 (x : NodeTurn σ) : Goes fault cfg input x x.lastIndexOr0.2 :=
  .same rfl rfl

/-- A term is read. -/
theorem Goes.termOr0 (i : ℕ) (x : NodeTurn σ) : Goes fault cfg input x (x.termOr0 i).2 := by
  unfold NodeTurn.termOr0
  split
  · exact .same rfl rfl
  · exact .refl x

/-- The search for a term reads. -/
theorem Goes.searchTerm (t fuel lo hi : ℕ) (x : NodeTurn σ) :
    Goes fault cfg input x (x.searchTerm t fuel lo hi).2 := by
  induction fuel generalizing lo hi x with
  | zero => exact .refl x
  | succ fuel ih =>
    unfold NodeTurn.searchTerm
    split
    · have hread : Goes fault cfg input x (x.read (Storage.term (lo + (hi - lo) / 2))).2 :=
        .read _ x
      dsimp only
      split
      · rename_i t' y heq
        rw [heq] at hread
        split
        · exact hread.trans (ih _ _ _)
        · exact hread.trans (ih _ _ _)
      · rename_i e y heq
        rw [heq] at hread
        exact hread.trans (ih _ _ _)
    · exact .refl x

/-- The check on the previous entry reads. -/
theorem Goes.checkPrevLog (req : AppendEntriesRequest) (x : NodeTurn σ) :
    Goes fault cfg input x (x.checkPrevLog req).2 := by
  have hread : Goes fault cfg input x (x.read (Storage.term req.prevLogIndex)).2 := .read _ x
  unfold NodeTurn.checkPrevLog
  split
  · split
    · rename_i heq
      rw [heq] at hread
      exact hread
    · rename_i heq
      rw [heq] at hread
      exact hread
    · rename_i heq
      rw [heq] at hread
      split
      · exact hread.trans ((Goes.read _ _).trans (Goes.searchTerm _ _ _ _ _))
      · exact hread
  · exact .refl x

/-- The scan for an index to commit reads. -/
theorem Goes.commitScan (n : ℕ) (x : NodeTurn σ) :
    Goes fault cfg input x (x.commitScan cfg n).2 := by
  induction n generalizing x with
  | zero => exact .refl x
  | succ n ih =>
    unfold NodeTurn.commitScan
    split
    · dsimp only
      split
      · exact .read _ x
      · exact (Goes.read _ x).trans (ih _)
    · exact .refl x

/-- The scan ends at the old commit index, or at an index that a quorum holds. -/
theorem commitScan_choice (cfg : RaftConfig) (n : ℕ) (x : NodeTurn σ) :
    (x.commitScan cfg n).1 = x.sm.commitIndex ∨
      cfg.quorum ≤ x.sm.replicated (x.commitScan cfg n).1 := by
  induction n generalizing x with
  | zero => exact .inl rfl
  | succ n ih =>
    unfold NodeTurn.commitScan
    split
    · dsimp only
      split
      · rename_i hfound
        exact .inr hfound.2
      · exact ih _
    · exact .inl rfl

/-! ## Replication -/

omit [Storage σ] in
/-- A leader sends a batch in its own name and term. -/
theorem Goes.sendAppend {peer : NodeId} (hpeer : peer ∈ cfg.peers) (hrole : x.sm.role = .leader)
    (prev prevTerm : ℕ) (es : List ProtoEntry) :
    Goes fault cfg input x (x.sendAppend cfg peer prev prevTerm es) :=
  Goes.emit (.send hpeer hrole rfl rfl rfl rfl)

/-- A leader sends its snapshot, if it can read one. -/
theorem Goes.sendSnapshotTo {peer : NodeId} (hpeer : peer ∈ cfg.peers)
    (hrole : x.sm.role = .leader) : Goes fault cfg input x (x.sendSnapshotTo cfg peer) := by
  have hread : Goes fault cfg input x (x.read Storage.snapshot).2 := .read _ x
  have hvol : (x.read Storage.snapshot).2.volatile = x.volatile := rfl
  unfold NodeTurn.sendSnapshotTo
  split
  · rename_i heq
    rw [heq] at hread hvol
    refine hread.trans (Goes.emit (.ship hpeer ?_ rfl rfl rfl))
    rw [hvol]
    exact hrole
  · rename_i heq
    rw [heq] at hread
    exact hread
  · rename_i heq
    rw [heq] at hread
    exact hread

/-- A leader sends a peer a batch, a heartbeat or a snapshot. -/
theorem Goes.replicateTo {peer : NodeId} (hpeer : peer ∈ cfg.peers)
    (hrole : x.sm.role = .leader) : Goes fault cfg input x (x.replicateTo cfg peer) := by
  unfold NodeTurn.replicateTo
  split
  · exact .refl x
  · rename_i progress _
    have hpre : Goes fault cfg input x
        (x.termOr0 (u64Sub progress.nextIndex 1)).2.lastIndexOr0.2 :=
      (Goes.termOr0 _ x).trans (Goes.lastIndexOr0 _)
    have hvol : (x.termOr0 (u64Sub progress.nextIndex 1)).2.lastIndexOr0.2.volatile =
        x.volatile := by
      rw [lastIndexOr0_volatile, termOr0_volatile]
    dsimp only
    generalize (x.termOr0 (u64Sub progress.nextIndex 1)).2.lastIndexOr0 = last at hpre hvol
    have hleader {y : NodeTurn σ} (hy : y.volatile = last.2.volatile) : y.sm.role = .leader := by
      rw [show y.sm = x.sm from congrArg Volatile.sm (hy.trans hvol)]
      exact hrole
    split
    · have hread := hpre.trans (Goes.read (Storage.entries progress.nextIndex (last.1 + 1)
        (some (cfg.maxAppendEntries * 4096))) last.2)
      have hkept : (last.2.read (Storage.entries progress.nextIndex (last.1 + 1)
        (some (cfg.maxAppendEntries * 4096)))).2.volatile = last.2.volatile := rfl
      split
      · rename_i heq
        rw [heq] at hread hkept
        exact hread.trans (Goes.sendAppend hpeer (hleader hkept) _ _ _)
      · rename_i heq
        rw [heq] at hread hkept
        exact hread.trans (Goes.sendSnapshotTo hpeer (hleader hkept))
      · rename_i heq
        rw [heq] at hread
        exact hread
    · exact hpre.trans (Goes.sendAppend hpeer (hleader rfl) _ _ _)

/-- A leader sends each peer its own. -/
theorem Goes.replicateAll (x : NodeTurn σ) : Goes fault cfg input x (x.replicateAll cfg) := by
  unfold NodeTurn.replicateAll
  split
  · exact .refl x
  · rename_i hlead
    apply Goes.foldl
    intro y peer hpeer hy
    refine ⟨Goes.replicateTo hpeer ?_, (replicateTo_volatile peer y).trans hy⟩
    rw [show y.sm = x.sm from congrArg Volatile.sm hy]
    exact Decidable.not_not.mp hlead

/-! ## Commit and apply -/

omit [Storage σ] in
/-- What the notification loop shows. -/
theorem notifyPending_effects (x : NodeTurn σ) : x.notifyPending.effects = x.effects ++
    (x.node.pending.filter fun w => decide (w.1 ≤ x.sm.commitIndex)).map
      fun w => .answered w.2 (.ok w.1) := by
  have hfold : ∀ (l : List (ℕ × Sender)) (commit : ℕ) (y : NodeTurn σ),
      (l.foldl (notifyOne commit) y).effects = y.effects ++
        (l.filter fun w => decide (w.1 ≤ commit)).map fun w => .answered w.2 (.ok w.1) := by
    intro l commit
    induction l with
    | nil =>
      intro y
      rw [List.filter_nil, List.map_nil, List.append_nil]
      rfl
    | cons w l ih =>
      intro y
      rw [List.foldl_cons, ih]
      unfold notifyOne
      split
      · rename_i hle
        rw [List.filter_cons_of_pos (by rw [decide_eq_true_eq]; exact hle), Turn.emit_effects,
          List.append_assoc]
        rfl
      · rename_i hlt
        rw [List.filter_cons_of_neg (by rw [decide_eq_true_eq]; exact hlt)]
        rfl
  exact hfold x.node.pending x.sm.commitIndex (x.update fun n => { n with pending := [] })

omit [Storage σ] in
/-- A leader answers what its commit index has reached, and forgets it. -/
theorem Goes.notifyPending (hrole : x.sm.role = .leader) :
    Goes fault cfg input x x.notifyPending := by
  refine ⟨_, notifyPending_effects x, ?_⟩
  rw [notifyPending_volatile, ← List.append_nil (List.map _ _)]
  refine Walk.trans (Walk.of_forall ?_) (Walk.silent (.settle x.volatile hrole))
  intro e he
  obtain ⟨w, hw, rfl⟩ := List.mem_map.mp he
  obtain ⟨hmem, hle⟩ := List.mem_filter.mp hw
  exact .emit x.volatile (.confirm hmem hrole (of_decide_eq_true hle))

/-- A leader commits what a quorum holds, and answers. -/
theorem Goes.maybeAdvanceCommit (x : NodeTurn σ) :
    Goes fault cfg input x (x.maybeAdvanceCommit cfg) := by
  unfold NodeTurn.maybeAdvanceCommit
  split
  · exact .refl x
  · rename_i hlead
    have hscan : Goes fault cfg input x (x.lastIndexOr0.2.commitScan cfg x.lastIndexOr0.1).2 :=
      (Goes.lastIndexOr0 x).trans (Goes.commitScan x.lastIndexOr0.1 x.lastIndexOr0.2)
    have hchoice := commitScan_choice cfg x.lastIndexOr0.1 x.lastIndexOr0.2
    have hvol : (x.lastIndexOr0.2.commitScan cfg x.lastIndexOr0.1).2.volatile = x.volatile := by
      rw [commitScan_volatile, lastIndexOr0_volatile]
    rw [show x.lastIndexOr0.2.sm = x.sm from rfl] at hchoice
    dsimp only
    generalize x.lastIndexOr0.2.commitScan cfg x.lastIndexOr0.1 = scan at hscan hchoice hvol
    have hsm : scan.2.sm = x.sm := congrArg Volatile.sm hvol
    have hrole : scan.2.sm.role = .leader := by
      rw [hsm]
      exact Decidable.not_not.mp hlead
    split
    · rename_i hlt
      have hquorum : cfg.quorum ≤ scan.2.sm.replicated scan.1 := by
        rw [hsm] at hlt ⊢
        exact hchoice.resolve_left (Nat.ne_of_gt hlt)
      have hcommit : Goes fault cfg input x
          (scan.2.modifySm fun sm => { sm with commitIndex := scan.1 }) :=
        hscan.trans (.silent rfl (.commit scan.2.volatile scan.1 hrole hlt hquorum))
      refine (hcommit.trans (Goes.saveHardState _)).trans
        ((Goes.modifyMetrics _ _).trans (Goes.notifyPending ?_))
      exact hrole
    · exact hscan.trans (Goes.notifyPending hrole)

/-- The commit step keeps the role. -/
theorem maybeAdvanceCommit_role (x : NodeTurn σ) :
    (x.maybeAdvanceCommit cfg).sm.role = x.sm.role := by
  unfold NodeTurn.maybeAdvanceCommit
  split
  · rfl
  · have hvol : (x.lastIndexOr0.2.commitScan cfg x.lastIndexOr0.1).2.volatile = x.volatile := by
      rw [commitScan_volatile, lastIndexOr0_volatile]
    dsimp only
    generalize x.lastIndexOr0.2.commitScan cfg x.lastIndexOr0.1 = scan at hvol
    have hsm : scan.2.sm = x.sm := congrArg Volatile.sm hvol
    rw [← hsm, sm, notifyPending_node]
    split
    · rfl
    · rfl

/-- A leader applies at its heartbeat. -/
theorem Goes.applyCommitted {electionDue : Bool} (hinput : input = .timer electionDue true)
    (hrole : x.sm.role = .leader) : Goes fault cfg input x x.applyCommitted := by
  have hfold : ∀ (es : List LogEntry) (y : NodeTurn σ), y.sm.role = .leader →
      Goes fault cfg input y (es.foldl applyOne y) := by
    intro es
    induction es with
    | nil => exact fun y _ => .refl y
    | cons e es ih =>
      intro y hy
      have hone : Goes fault cfg input y (y.applyOne e) :=
        ⟨[.applied e], Turn.emit_effects _ _, .shown (.apply y.volatile e hinput hy)⟩
      exact hone.trans (ih (y.applyOne e) hy)
  have hread : Goes fault cfg input x (x.read (Storage.entries (x.sm.lastApplied + 1)
    (x.sm.commitIndex + 1) none)).2 := .read _ x
  have hvol : (x.read (Storage.entries (x.sm.lastApplied + 1) (x.sm.commitIndex + 1)
    none)).2.volatile = x.volatile := rfl
  unfold NodeTurn.applyCommitted
  dsimp only
  split
  · exact .refl x
  · split
    · rename_i es y heq
      rw [heq] at hread hvol
      apply hread.trans (hfold es y _)
      rw [show y.sm = x.sm from congrArg Volatile.sm hvol]
      exact hrole
    · rename_i heq
      rw [heq] at hread
      exact hread

/-! ## Terms and elections -/

/-- A message of a later term makes a follower. -/
theorem Goes.stepDown {term : ℕ} (hinput : input.term? = some term)
    (h : term > x.sm.currentTerm) : Goes fault cfg input x (x.stepDown term input.leader?) := by
  have hdown : Goes fault cfg input x (x.modifySm (.becomeFollower term input.leader?)) :=
    .silent rfl (.stepDown x.volatile hinput h)
  exact hdown.trans (Goes.saveHardState _)

/-- Stepping down where the term asks for it is a step or none. -/
theorem Goes.descend {term : ℕ} (hinput : input.term? = some term) {leader : Option NodeId}
    (hleader : input.leader? = leader) (x : NodeTurn σ) :
    Goes fault cfg input x (x.descend term leader) := by
  subst hleader
  unfold NodeTurn.descend
  split
  · exact Goes.stepDown hinput ‹_›
  · exact .refl x

/-- A candidate with a quorum of votes announces its leadership. -/
theorem Goes.takeLeadership (hrole : x.sm.role = .candidate)
    (hquorum : cfg.quorum ≤ x.sm.votesReceived.card) :
    Goes fault cfg input x (x.takeLeadership cfg) := by
  unfold NodeTurn.takeLeadership
  dsimp only
  refine Goes.trans ?_ (Goes.replicateAll _)
  refine Goes.trans ?_ (Goes.modifyMetrics _ _)
  exact ⟨[.becameLeader x.sm.currentTerm], Turn.emit_effects _ _,
    .shown (.lead x.volatile x.lastIndexOr0.1 hrole hquorum)⟩

omit [Storage σ] in
/-- A candidate asks its peers in its own name and term. -/
theorem Goes.fanOut (hrole : x.sm.role = .candidate) {req : RequestVoteRequest}
    (hterm : req.term = x.sm.currentTerm) (hid : req.candidateId = cfg.id) :
    Goes fault cfg input x
      (cfg.peers.foldl (fun y peer => y.effect (.spawned (.requestVote peer req))) x) := by
  apply Goes.foldl
  intro y peer hpeer hy
  have hsm : y.sm = x.sm := congrArg Volatile.sm hy
  refine ⟨Goes.emit (.ask hpeer ?_ ?_ hid), hy⟩
  · rw [show y.volatile.sm = x.sm from hsm]
    exact hrole
  · rw [show y.volatile.sm = x.sm from hsm]
    exact hterm

/-- A node that does not lead stands, announces it and asks. -/
theorem Goes.startElection {heartbeatDue : Bool} (hinput : input = .timer true heartbeatDue)
    (hrole : x.sm.role ≠ .leader) : Goes fault cfg input x (x.startElection cfg) := by
  have hstand : Goes fault cfg input x (x.modifySm (.becomeCandidate cfg.id)).saveHardState := by
    have hmove : Goes fault cfg input x (x.modifySm (.becomeCandidate cfg.id)) :=
      .silent rfl (.stand x.volatile hinput hrole)
    exact hmove.trans (Goes.saveHardState _)
  have hcand : (x.modifySm (.becomeCandidate cfg.id)).saveHardState.sm.role = .candidate := rfl
  unfold NodeTurn.startElection
  dsimp only
  generalize (x.modifySm (.becomeCandidate cfg.id)).saveHardState = y at hstand hcand
  have hreads := hstand.trans ((Goes.lastIndexOr0 y).trans (Goes.termOr0 y.lastIndexOr0.1 _))
  have hvol : (y.lastIndexOr0.2.termOr0 y.lastIndexOr0.1).2.volatile = y.volatile := by
    rw [termOr0_volatile, lastIndexOr0_volatile]
  generalize y.lastIndexOr0.2.termOr0 y.lastIndexOr0.1 = r at hreads hvol
  have hr : r.2.sm.role = .candidate := by
    rw [show r.2.sm = y.sm from congrArg Volatile.sm hvol]
    exact hcand
  have hstarted : Goes fault cfg input x ((r.2.effect (.electionStarted r.2.sm.currentTerm))
      |>.modifyMetrics fun m => { m with electionsStarted := m.electionsStarted + 1 }) :=
    (hreads.trans (Goes.emit (.announce hinput hr))).trans (Goes.modifyMetrics _ _)
  have hasked (req : RequestVoteRequest) (hterm : req.term = r.2.sm.currentTerm)
      (hid : req.candidateId = cfg.id) : Goes fault cfg input x (cfg.peers.foldl
        (fun z peer => z.effect (.spawned (.requestVote peer req)))
        ((r.2.effect (.electionStarted r.2.sm.currentTerm))
          |>.modifyMetrics fun m => { m with electionsStarted := m.electionsStarted + 1 })) := by
    apply hstarted.trans
    apply Goes.fanOut
    · exact hr
    · exact hterm
    · exact hid
  split
  · rename_i hwon
    exact (hasked _ rfl rfl).trans (Goes.takeLeadership hwon.2 hwon.1)
  · exact hasked _ rfl rfl

/-! ## The handlers -/

/-- A batch is a write. -/
theorem Goes.appendBatch (req : AppendEntriesRequest) (x : NodeTurn σ) :
    Goes fault cfg input x (x.appendBatch req).2 := by
  unfold NodeTurn.appendBatch
  split
  · exact .refl x
  · exact .write _ x

/-- A follower's commit index follows that of the request. -/
theorem Goes.advanceCommit {req : AppendEntriesRequest} (hinput : input = .appendEntries req)
    (hterm : req.term = x.sm.currentTerm) : Goes fault cfg input x (x.advanceCommit req) := by
  unfold NodeTurn.advanceCommit
  split
  · rename_i hlt
    have hfollow : Goes fault cfg input x (x.lastIndexOr0.2.modifySm fun sm =>
        { sm with commitIndex := min req.leaderCommit x.lastIndexOr0.1 }) :=
      .silent rfl (.follow x.volatile _ hinput hterm hlt (Nat.min_le_left _ _))
    exact hfollow.trans (Goes.saveHardState _)
  · exact .refl x

/-- A rejection is of our term. -/
theorem checkPrevLog_reject {req : AppendEntriesRequest} {resp : AppendEntriesResponse}
    (h : (x.checkPrevLog req).1 = some resp) : resp.term = x.sm.currentTerm := by
  have hread : (x.read (Storage.term req.prevLogIndex)).2.sm = x.sm := rfl
  unfold checkPrevLog at h
  split at h
  · split at h
    · cases h
    · rename_i heq
      rw [heq] at hread
      cases h
      exact congrArg RaftStateMachine.currentTerm hread
    · rename_i t y heq
      rw [heq] at hread
      split at h
      · cases h
        have hsearch : (y.firstIndexOfTerm t req.prevLogIndex).2.volatile = y.volatile := by
          unfold firstIndexOfTerm
          rw [searchTerm_volatile]
          rfl
        have hsm : (y.firstIndexOfTerm t req.prevLogIndex).2.sm = x.sm :=
          (congrArg Volatile.sm hsearch).trans hread
        exact congrArg RaftStateMachine.currentTerm hsm
      · cases h
  · cases h

/-- The commit step of a follower keeps its term and its leader. -/
theorem advanceCommit_keeps (req : AppendEntriesRequest) (x : NodeTurn σ) :
    (x.advanceCommit req).sm.currentTerm = x.sm.currentTerm ∧
      (x.advanceCommit req).sm.leaderId = x.sm.leaderId := by
  unfold NodeTurn.advanceCommit
  split
  · exact ⟨rfl, rfl⟩
  · exact ⟨rfl, rfl⟩

/-- A batch is taken in the term of its leader and acknowledged. -/
theorem Goes.handleAppendEntries (req : AppendEntriesRequest) (x : NodeTurn σ) :
    Goes fault cfg (.appendEntries req) x (x.handleAppendEntries req) := by
  unfold NodeTurn.handleAppendEntries NodeTurn.onAppendEntries
  dsimp only
  rw [← NodeTurn.descend]
  have hdown : Goes fault cfg (.appendEntries req) x (x.descend req.term (some req.leaderId)) :=
    Goes.descend rfl rfl x
  have hge := le_descend req.term (some req.leaderId) x
  generalize x.descend req.term (some req.leaderId) = y at hdown hge
  split
  · refine hdown.trans (Goes.emit (.acknowledge rfl ?_))
    intro resp hresp
    cases hresp
    exact ⟨rfl, fun h => by cases h⟩
  · rename_i hle
    have hterm : req.term = y.sm.currentTerm := Nat.le_antisymm hge (Nat.le_of_not_lt hle)
    have hhint : Goes fault cfg (.appendEntries req) x
        (y.modifySm fun sm => { sm with leaderId := some req.leaderId }) :=
      hdown.trans (.silent rfl (.hint y.volatile rfl hterm))
    have hz : (y.modifySm fun sm => { sm with leaderId := some req.leaderId }).sm.currentTerm =
        req.term ∧ (y.modifySm fun sm => { sm with leaderId := some req.leaderId }).sm.leaderId =
          some req.leaderId := ⟨hterm.symm, rfl⟩
    generalize (y.modifySm fun sm => { sm with leaderId := some req.leaderId }) = z at hhint hz
    have hcheck := hhint.trans (Goes.checkPrevLog req z)
    have hkept := checkPrevLog_volatile req z
    have hverdict : ∀ resp, (z.checkPrevLog req).1 = some resp →
        resp.term = z.sm.currentTerm := fun resp hresp => checkPrevLog_reject hresp
    generalize z.checkPrevLog req = check at hcheck hkept hverdict
    obtain ⟨verdict, w⟩ := check
    have hw : w.sm = z.sm := congrArg Volatile.sm hkept
    -- whatever is replied from here on, it is replied in the term of the request
    have hreply {v : NodeTurn σ} {result : Except RaftError AppendEntriesResponse}
        (hgo : Goes fault cfg (.appendEntries req) x v) (hterm : v.sm.currentTerm = req.term)
        (hhint : v.sm.leaderId = some req.leaderId)
        (hresult : ∀ resp, result = .ok resp → resp.term = v.sm.currentTerm) :
        Goes fault cfg (.appendEntries req) x
          (v.effect (.replied (.appendEntries req result))) := by
      refine hgo.trans (Goes.emit (.acknowledge rfl ?_))
      intro resp hresp
      exact ⟨hresult resp hresp, fun _ => ⟨hterm.symm, hhint⟩⟩
    rw [← hw] at hz
    cases verdict with
    | some resp =>
      refine hreply hcheck hz.1 hz.2 ?_
      intro resp' hresp
      cases hresp
      rw [congrArg RaftStateMachine.currentTerm hw]
      exact hverdict resp rfl
    | none =>
      have hbatch := hcheck.trans (Goes.appendBatch req w)
      have hbatchkept := appendBatch_volatile req w
      dsimp only at hbatch ⊢
      generalize w.appendBatch req = written at hbatch hbatchkept
      obtain ⟨result, v⟩ := written
      have hv : v.sm = w.sm := congrArg Volatile.sm hbatchkept
      rw [← hv] at hz
      cases result with
      | error e => exact hreply hbatch hz.1 hz.2 fun _ h => by cases h
      | ok _ =>
        have hcommit := (hbatch.trans (Goes.advanceCommit rfl hz.1.symm)).trans
          (Goes.modifyMetrics
            (fun m => { m with appendEntriesReceived := m.appendEntriesReceived + 1 }) _)
        obtain ⟨hterm', hhint'⟩ := advanceCommit_keeps req v
        refine hreply hcommit (hterm'.trans hz.1) (hhint'.trans hz.2) ?_
        intro resp hresp
        cases hresp
        rfl

/-- A vote is granted where it is free, and replied. -/
theorem Goes.handleRequestVote (req : RequestVoteRequest) (x : NodeTurn σ) :
    Goes fault cfg (.requestVote req) x (x.handleRequestVote req) := by
  unfold NodeTurn.handleRequestVote onRequestVote
  dsimp only
  rw [← NodeTurn.descend]
  have hdown : Goes fault cfg (.requestVote req) x (x.descend req.term none) :=
    Goes.descend rfl rfl x
  have hge := le_descend req.term none x
  generalize x.descend req.term none = y at hdown hge
  split
  · exact hdown.trans (Goes.emit (.vote rfl rfl fun h => by cases h))
  · rename_i hle
    have hterm : req.term = y.sm.currentTerm := Nat.le_antisymm hge (Nat.le_of_not_lt hle)
    split
    · exact hdown.trans (Goes.emit (.vote rfl rfl fun h => by cases h))
    · rename_i hfree
      have hreads := hdown.trans ((Goes.lastIndexOr0 y).trans (Goes.termOr0 y.lastIndexOr0.1 _))
      have hvol : (y.lastIndexOr0.2.termOr0 y.lastIndexOr0.1).2.volatile = y.volatile := by
        rw [termOr0_volatile, lastIndexOr0_volatile]
      generalize y.lastIndexOr0.2.termOr0 y.lastIndexOr0.1 = z at hreads hvol
      have hsm : z.2.sm = y.sm := congrArg Volatile.sm hvol
      rw [← hsm] at hterm hfree
      split
      · have hgrant : Goes fault cfg (.requestVote req) x
            (z.2.modifySm fun sm => { sm with votedFor := some req.candidateId }) :=
          hreads.trans (.silent rfl (.grant z.2.volatile rfl hterm (Bool.eq_false_iff.mpr hfree)))
        refine Goes.trans ?_ (Goes.emit (.vote rfl rfl fun _ => ⟨hterm, rfl⟩))
        exact (hgrant.trans (Goes.saveHardState _)).trans (Goes.modifyMetrics _ _)
      · exact hreads.trans (Goes.emit (.vote rfl rfl fun h => by cases h))

/-- A snapshot is installed in the term of its leader, with a receipt. -/
theorem Goes.handleInstallSnapshot (req : InstallSnapshotRequest) (x : NodeTurn σ) :
    Goes fault cfg (.installSnapshot req) x (x.handleInstallSnapshot req) := by
  unfold NodeTurn.handleInstallSnapshot onInstallSnapshot
  dsimp only
  rw [← NodeTurn.descend]
  have hdown : Goes fault cfg (.installSnapshot req) x (x.descend req.term (some req.leaderId)) :=
    Goes.descend rfl rfl x
  have hge := le_descend req.term (some req.leaderId) x
  generalize x.descend req.term (some req.leaderId) = y at hdown hge
  have hreply {z : NodeTurn σ} {result : Except RaftError InstallSnapshotResponse}
      (hgo : Goes fault cfg (.installSnapshot req) x z)
      (hresult : ∀ resp, result = .ok resp → resp.term = z.sm.currentTerm) :
      Goes fault cfg (.installSnapshot req) x (z.effect (.replied (.installSnapshot req result))) :=
    hgo.trans (Goes.emit (.receipt rfl hresult))
  have hok {z : NodeTurn σ} (resp : InstallSnapshotResponse)
      (h : (.ok ⟨z.sm.currentTerm⟩ : Except RaftError InstallSnapshotResponse) = .ok resp) :
      resp.term = z.sm.currentTerm := by
    cases h
    rfl
  split
  · exact hreply hdown hok
  · rename_i hle
    have hterm : req.term = y.sm.currentTerm := Nat.le_antisymm hge (Nat.le_of_not_lt hle)
    split
    · generalize hwritten : (NodeTurn.write _ _ : Except RaftError Unit × NodeTurn σ) = written
      have hwrite : Goes fault cfg (.installSnapshot req) x written.2 := by
        rw [← hwritten]
        exact hdown.trans ((Goes.same rfl rfl).trans (Goes.write _ _))
      have hsm : written.2.sm = y.sm := by
        rw [← hwritten]
        rfl
      obtain ⟨result, z⟩ := written
      cases result with
      | error e => exact hreply hwrite fun _ h => by cases h
      | ok u =>
        have hz : req.term = z.sm.currentTerm := by
          rw [show z.sm = y.sm from hsm]
          exact hterm
        have hinstall := hwrite.trans (Goes.silent (y := z.modifySm fun sm => { sm with
          commitIndex := max sm.commitIndex req.lastIncludedIndex,
          lastApplied := max sm.lastApplied req.lastIncludedIndex }) rfl
          (.install z.volatile rfl hz))
        refine hreply (Goes.trans ?_ (Goes.modifyMetrics _ _)) hok
        refine hinstall.trans (Goes.trans ?_ (Goes.saveHardState _))
        exact .same rfl rfl
    · exact hreply (hdown.trans (.same rfl rfl)) hok

/-- A granted vote counts, and a quorum of them leads. -/
theorem Goes.handleVoteResponse (peer : NodeId) (resp : RequestVoteResponse) (x : NodeTurn σ) :
    Goes fault cfg (.message (.voteResponse peer resp)) x (x.handleVoteResponse cfg peer resp) := by
  unfold NodeTurn.handleVoteResponse
  split
  · rename_i hlt
    have hdown : Goes fault cfg (.message (.voteResponse peer resp)) x
        (x.stepDown resp.term none) := Goes.stepDown rfl hlt
    exact hdown
  · rename_i hle
    split
    · rename_i hvote
      have hcount : Goes fault cfg (.message (.voteResponse peer resp)) x (x.modifySm fun sm =>
          { sm with votesReceived := insert peer sm.votesReceived }) :=
        .silent rfl (.count x.volatile rfl hvote.1 (Nat.le_of_not_lt hle) hvote.2)
      dsimp only
      split
      · rename_i hquorum
        exact hcount.trans (Goes.takeLeadership hvote.2 hquorum)
      · exact hcount
    · exact .refl x

/-- A report reaches a leader, who may commit. -/
theorem Goes.handleResponse {peer : NodeId} {f : Progress → Progress} {term : ℕ}
    (hterm : input.term? = some term) (hleader : input.leader? = none)
    (hreport : input.report? = some (peer, f)) (x : NodeTurn σ) :
    Goes fault cfg input x (x.handleResponse cfg peer f term) := by
  obtain heq | ⟨-, hlead, heq⟩ := handleResponse_cases cfg peer f term x
  · rw [heq]
    exact Goes.descend hterm hleader x
  · rw [heq]
    have hmove : Goes fault cfg input x (x.modifySm (updateProgress peer f)) :=
      .silent rfl (.report x.volatile hreport hlead)
    exact hmove.trans (Goes.maybeAdvanceCommit _)

/-- A leader accepts a proposal or reports the fault of its storage; others refuse. -/
theorem Goes.onProposal (proposal : Proposal) (x : NodeTurn σ) :
    Goes (StorageFault σ) cfg (.message (.propose proposal)) x (x.onProposal cfg proposal) := by
  obtain ⟨data, tx⟩ := proposal
  unfold NodeTurn.onProposal
  dsimp only
  split
  · rename_i hrole
    cases tx with
    | none => exact .refl x
    | some tx => exact Goes.emit (.refuse rfl hrole)
  · rename_i hrole
    have hlead : x.sm.role = .leader := Decidable.not_not.mp hrole
    generalize hwritten : (NodeTurn.write _ _ : Except RaftError Unit × NodeTurn σ) = written
    have hwrite : Goes (StorageFault σ) cfg (.message (.propose ⟨data, tx⟩)) x written.2 := by
      rw [← hwritten]
      exact (Goes.lastIndexOr0 x).trans (Goes.write _ _)
    have hsm : written.2.sm = x.sm := by
      rw [← hwritten]
      rfl
    obtain ⟨result, y⟩ := written
    have hy : y.sm.role = .leader := by
      rw [show y.sm = x.sm from hsm]
      exact hlead
    cases result with
    | error e =>
      have hfault : StorageFault σ e := ⟨_, _, congrArg Prod.fst hwritten⟩
      cases tx with
      | none => exact hwrite
      | some tx => exact hwrite.trans (Goes.emit (.fail rfl hy hfault))
    | ok u =>
      cases tx with
      | none => exact hwrite.trans (Goes.replicateAll y)
      | some tx =>
        refine (hwrite.trans ?_).trans (Goes.replicateAll _)
        have haccept : Act (StorageFault σ) cfg (.message (.propose ⟨data, some tx⟩)) y.volatile
            (some (.accepted tx ⟨x.sm.currentTerm, x.lastIndexOr0.1 + 1, data, .normal⟩))
            { y.volatile with pending := y.volatile.pending ++ [(x.lastIndexOr0.1 + 1, tx)] } :=
          .accept y.volatile rfl hy (congrArg RaftStateMachine.currentTerm hsm).symm
        exact ⟨[_], Turn.emit_effects _ _, .shown haccept⟩

/-- The timer starts an election, or replicates, commits and applies. -/
theorem Goes.timerBranch (electionDue heartbeatDue : Bool) (x : NodeTurn σ) :
    Goes fault cfg (.timer electionDue heartbeatDue) x
      (x.timerBranch cfg electionDue heartbeatDue) := by
  unfold NodeTurn.timerBranch
  split
  · rename_i hdue
    obtain rfl : electionDue = true := hdue.1
    exact Goes.startElection rfl hdue.2
  · split
    · rename_i hdue
      obtain rfl : heartbeatDue = true := hdue.1
      have hsent : Goes fault cfg (.timer electionDue true) x
          ((x.replicateAll cfg).maybeAdvanceCommit cfg) :=
        (Goes.replicateAll x).trans (Goes.maybeAdvanceCommit _)
      refine hsent.trans (Goes.applyCommitted rfl ?_)
      rw [maybeAdvanceCommit_role,
        show (x.replicateAll cfg).sm = x.sm from congrArg Volatile.sm (replicateAll_volatile x)]
      exact hdue.2
    · exact .refl x

/-- Every message of the event loop is a walk. -/
theorem Goes.handleMessage (msg : RaftMessage) (x : NodeTurn σ) :
    Goes (StorageFault σ) cfg (.message msg) x (x.handleMessage cfg msg) := by
  cases msg with
  | voteResponse peer resp => exact Goes.handleVoteResponse peer resp x
  | appendResponse peer last resp => exact Goes.handleResponse rfl rfl rfl x
  | snapshotResponse peer last resp => exact Goes.handleResponse rfl rfl rfl x
  | propose proposal => exact Goes.onProposal proposal x
  | readIndex tx => exact Goes.emit (.readIndex rfl)
  | getLeader tx => exact Goes.emit (.leader rfl)
  | getTerm tx => exact Goes.emit (.term rfl)
  | _ => exact .refl x

/-- A turn is a walk of the machine. -/
theorem run_goes (cfg : RaftConfig) (input : Input) (x : NodeTurn σ) :
    Goes (StorageFault σ) cfg input x (NodeTurn.run cfg input x) := by
  cases input with
  | appendEntries req => exact Goes.handleAppendEntries req x
  | requestVote req => exact Goes.handleRequestVote req x
  | installSnapshot req => exact Goes.handleInstallSnapshot req x
  | message msg => exact Goes.handleMessage msg x
  | timer electionDue heartbeatDue => exact Goes.timerBranch electionDue heartbeatDue x

end NodeTurn

namespace Process

variable {σ : Type} [Storage σ]

/-- The whole turn is a walk from the memory before to the memory behind it. -/
theorem turn_walk (cfg : RaftConfig) (input : Input) (p : Process σ) :
    Walk (Act (StorageFault σ) cfg input) p.node.volatile (p.turn cfg input).effects
      (p.turn cfg input).node.volatile := by
  obtain ⟨es, he, hwalk⟩ := NodeTurn.run_goes cfg input (Turn.start p.node)
  rw [Turn.start_effects, List.nil_append] at he
  rw [turn, he]
  exact hwalk

/-- What a crash leaves of a turn is a walk, too. -/
theorem emitted_walk (cfg : RaftConfig) (input : Input) (crashAt : Option ℕ) (p : Process σ) :
    ∃ m, Walk (Act (StorageFault σ) cfg input) p.node.volatile (p.emitted cfg input crashAt) m := by
  have hwalk := p.turn_walk cfg input
  cases crashAt with
  | none => exact ⟨_, hwalk⟩
  | some k =>
    rw [emitted, Turn.cutEffects, List.map_take]
    exact hwalk.cut k

end Process

/-- **The code refines the machine.**  Whatever the storage does, a turn moves the memory of
the node and shows effects as the machine may, and so does what is left of it when the node
crashes on the way.
SRCLINE: iceraft-node/src/node.rs:209-289, 302-832 -/
theorem turn_refines_machine {σ : Type} [Storage σ] (cfg : RaftConfig) (input : Input)
    (n : RaftNodeInner σ) :
    Walk (Act (StorageFault σ) cfg input) n.volatile (NodeTurn.run cfg input (Turn.start n)).effects
        (NodeTurn.run cfg input (Turn.start n)).node.volatile ∧
      ∀ k, ∃ m, Walk (Act (StorageFault σ) cfg input) n.volatile
        ((NodeTurn.run cfg input (Turn.start n)).cutEffects k) m :=
  ⟨Process.turn_walk cfg input ⟨n, true, []⟩,
    fun k => Process.emitted_walk cfg input (some k) ⟨n, true, []⟩⟩

end IceRaft
