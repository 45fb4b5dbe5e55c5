import IceRaft.Analysis.LeaderTurns
import IceRaft.Analysis.ReplicationState
import IceRaft.Analysis.VoteFrame

/-!
# The turns of a replica

Each piece of a handler is followed by the steps of the replicated log: a step down
raises the term, an election stands and elects, a proposal extends, an accepted batch is
accepted and acknowledged, a granted vote is promised.
-/

set_option autoImplicit false

namespace IceRaft

open ReplicatedLog Cluster Abstraction

variable {cc : ClusterConfig} {p : Prop} {a b : Ghost} {i : NodeId} {h H : List Effect}

/-! ## Disk and memory -/

/-- An effect that applies nothing. -/
theorem Disk.append {s : MemStorage} (hd : Disk cc p a i H s) {e : Effect}
    (he : ∀ e', e ≠ .applied e') : Disk cc p a i (H ++ [e]) s where
  entries := hd.entries
  snapshot := hd.snapshot
  term := hd.term
  led T hT := List.mem_append_left _ (hd.led T hT)
  commit := hd.commit
  applied hp e' hm := by
    rcases List.mem_append.mp hm with hm | hm
    · exact hd.applied hp e' hm
    · exact absurd (List.mem_singleton.mp hm).symm (he e')

/-- An effect that applies nothing keeps the replica. -/
theorem Replica.append {n : RaftNodeInner MemStorage} (hr : Replica cc p a i H n) {e : Effect}
    (he : ∀ e', e ≠ .applied e') : Replica cc p a i (H ++ [e]) n :=
  ⟨hr.disk.append he, hr.memory⟩

/-- A new hard state, after moves that leave the log of the node and its ownerships as
they are. -/
theorem Disk.resave {s : MemStorage} (hd : Disk cc p a i H s) (hg : Grows a b)
    (hlog : b.log i = a.log i) (howner : ∀ T, b.owner T = some i → a.owner T = some i)
    {hs : HardState} (hterm : hs.term = b.term i)
    (hcommit : p → Settled (clusterRules cc p) b i hs.commit) :
    Disk cc p b i (H ++ [.wrote]) { s with hardState := hs } where
  entries := by rw [hlog]; exact hd.entries
  snapshot := hd.snapshot
  term := hterm
  led T hT := List.mem_append_left _ (hd.led T (howner T hT))
  commit := hcommit
  applied hp e hm := by
    rcases List.mem_append.mp hm with hm | hm
    · exact (hd.applied hp e hm).grows hg
    · cases List.mem_singleton.mp hm

/-- New entries, written by a move that leaves the term of the node and the ownerships as
they are. -/
theorem Replica.rewrite {n : RaftNodeInner MemStorage} (hr : Replica cc p a i H n)
    (hgood : GoodGhost cc p a) (hstep : Step (clusterRules cc p) i a b)
    (hterm : b.term i = a.term i) (howner : ∀ T, b.owner T = some i → a.owner T = some i)
    {es : List LogEntry} (hlog : (n.storage.appendEntries es).entries = b.log i) :
    Replica cc p b i (H ++ [.wrote]) { n with storage := n.storage.appendEntries es } := by
  have hg := hstep.grows hgood.1
  refine ⟨⟨hlog, ?_, ?_, ?_, ?_, ?_⟩, ?_⟩
  · exact (n.storage.appendEntries_snapshot es).trans hr.disk.snapshot
  · dsimp only
    rw [MemStorage.appendEntries_hardState, hterm]
    exact hr.disk.term
  · exact fun T hT => List.mem_append_left _ (hr.disk.led T (howner T hT))
  · dsimp only
    rw [MemStorage.appendEntries_hardState]
    exact fun hp => hgood.settled hstep hp (hr.disk.commit hp)
  · intro hp e he
    rcases List.mem_append.mp he with he | he
    · exact (hr.disk.applied hp e he).grows hg
    · cases List.mem_singleton.mp he
  · exact hr.memory.grows hg hterm howner
      fun hp => hgood.settled hstep hp (hr.memory.commit hp)

/-- The memory of a follower in a term it has just reached. -/
theorem Memory.becomeFollower {sm : RaftStateMachine} (hm : Memory cc p a i sm)
    (hgood : GoodGhost cc p a) {T : ℕ} (hlt : sm.currentTerm < T) (leaderId : Option NodeId) :
    Memory cc p (a.raise i T) i (sm.becomeFollower T leaderId) := by
  have hstep : Step (clusterRules cc p) i a (a.raise i T) :=
    .raise a T (by rw [← hm.term]; exact Nat.le_of_lt hlt)
  refine ⟨?_, nofun, nofun, ?_, nofun, nofun, fun hp => hgood.settled hstep hp (hm.commit hp)⟩
  · simp [RaftStateMachine.becomeFollower, State.raise]
  · intro j pr hpr
    simp [RaftStateMachine.becomeFollower] at hpr

/-- The memory of a candidate. -/
theorem Memory.becomeCandidate {sm : RaftStateMachine} (hm : Memory cc p a i sm)
    (hgood : GoodGhost cc p a) (hi : i ∈ cc.members) :
    Step (clusterRules cc p) i a (a.stand i (sm.currentTerm + 1)) ∧
      Memory cc p (a.stand i (sm.currentTerm + 1)) i (sm.becomeCandidate i) := by
  have hlt : a.term i < sm.currentTerm + 1 := by rw [hm.term]; exact Nat.lt_succ_self _
  have hstep : Step (clusterRules cc p) i a (a.stand i (sm.currentTerm + 1)) := .stand a _ hlt
  have hself : (a.stand i (sm.currentTerm + 1)).term i = sm.currentTerm + 1 := by
    simp [State.stand]
  refine ⟨hstep, hself.symm, ?_, ?_, hm.progress, ?_, ?_,
    fun hp => hgood.settled hstep hp (hm.commit hp)⟩
  · intro h
    cases h
  · intro _
    rw [hself]
    refine ⟨?_, Nat.succ_pos _, a.log i, by simp [State.stand]⟩
    intro howner
    have := hgood.1.owner_le _ _ howner
    omega
  · intro _ _
    rw [hself]
    refine ⟨?_, ?_⟩
    · intro v hv
      rw [Finset.mem_singleton.mp hv]
      exact hi
    · intro v hv
      rw [Finset.mem_singleton.mp hv]
      exact .inl (.inr ⟨rfl, rfl, rfl⟩)
  · intro _ h
    cases h

/-- A change that leaves term, role, progress and votes as they are. -/
theorem Memory.congr {sm sm' : RaftStateMachine} (hm : Memory cc p a i sm)
    (hs : SameVote sm sm') (hprog : sm'.progress = sm.progress)
    (hcommit : p → Settled (clusterRules cc p) a i sm'.commitIndex) : Memory cc p a i sm' where
  term := hs.currentTerm.trans hm.term
  leader hl := hm.leader (hs.role ▸ hl)
  candidate hc := hm.candidate (hs.role ▸ hc)
  progress := by rw [hprog]; exact hm.progress
  votes hp hc := by rw [hs.votesReceived]; exact hm.votes hp (hs.role ▸ hc)
  matched hp hl := by rw [hprog]; exact hm.matched hp (hs.role ▸ hl)
  commit := hcommit

/-- What a leader sends, built from its own log. -/
theorem Replica.appendOk {n : RaftNodeInner MemStorage} (hr : Replica cc p a i H n)
    (hgood : GoodGhost cc p a) (hi : i ∈ cc.members) (hlead : n.sm.role = .leader)
    {peer : NodeId} (hpeer : peer ∈ (cc.config i).peers) {prev prevTerm : ℕ}
    {es : List LogEntry} (hterm : prevTerm = TermLog.termAt LogEntry.term n.storage.entries prev)
    (hes : (prev ≤ n.storage.entries.length ∧
        n.storage.entries.take prev ++ es <+: n.storage.entries) ∨
      (es = [] ∧ n.storage.entries.length < prev))
    (hnil : es = [] → n.storage.entries.length ≤ prev) :
    AppendOk cc p a i peer (prev + (es.map logEntryToProtoEntry).length)
      ⟨n.sm.currentTerm, (cc.config i).id, prev, prevTerm, es.map logEntryToProtoEntry,
        n.sm.commitIndex⟩ := by
  have hT : n.sm.currentTerm = a.term i := hr.memory.term
  have howner : a.owner n.sm.currentTerm = some i := by rw [hT]; exact hr.memory.leader hlead
  have hlog : n.storage.entries = a.canon n.sm.currentTerm := by
    rw [hr.disk.entries]
    exact hgood.1.owner_log _ i howner hT.symm
  refine ⟨?_, howner, rfl, ?_, ?_, ?_⟩
  · rintro rfl
    exact cc.config_peers peer hi hpeer
  · dsimp only
    rw [map_protoEntryToLogEntry]
    rcases hes with ⟨hle, hpre⟩ | ⟨rfl, hlt⟩
    · exact .inl ⟨by rw [← hlog]; exact hle, by rw [← hlog]; exact hpre,
        by rw [← hlog]; exact hterm⟩
    · refine .inr ⟨rfl, by omega, ?_⟩
      rw [hterm]
      unfold TermLog.termAt
      rw [if_neg (by omega), List.getElem?_eq_none (by omega)]
      rfl
  · intro hp
    refine (hr.memory.commit hp).imp_right ?_
    rintro ⟨T, m, hcom, hle, hm, -⟩
    exact ⟨T, m, hcom, by rw [hT]; exact hle, hm⟩
  · intro hp hempty
    have hes' : es = [] := List.map_eq_nil_iff.mp hempty
    have hsettled := (hr.memory.commit hp).le_length
    rw [← hr.disk.entries] at hsettled
    exact Nat.le_trans hsettled (hnil hes')

section Turn

variable {a₀ : Ghost} {asker : Option (NodeId × RpcTask)} {n₀ : RaftNodeInner MemStorage}
  {Q : Ghost → List Effect → RaftNodeInner MemStorage → Prop} {x y : NodeTurn MemStorage}

/-- The turn has been followed so far, and `Q` holds. -/
abbrev RepFollows (cc : ClusterConfig) (p : Prop) (a₀ : Ghost) (i : NodeId) (h : List Effect)
    (asker : Option (NodeId × RpcTask)) (n₀ : RaftNodeInner MemStorage)
    (Q : Ghost → List Effect → RaftNodeInner MemStorage → Prop) (x : NodeTurn MemStorage) : Prop :=
  (replication cc p).Follows a₀ i h asker n₀ Q x

/-- What is followed when nothing but the replica itself is remembered. -/
abbrev Rep (cc : ClusterConfig) (p : Prop) (i : NodeId) :
    Ghost → List Effect → RaftNodeInner MemStorage → Prop :=
  fun a H n => Replica cc p a i H n

/-- Counting in the metrics forgets nothing. -/
theorem RepFollows.count {E : Ghost → Prop}
    (hx : RepFollows cc p a₀ i h asker n₀ (fun a H n => E a ∧ Replica cc p a i H n) x)
    (f : RaftMetrics → RaftMetrics) :
    RepFollows cc p a₀ i h asker n₀ (fun a H n => E a ∧ Replica cc p a i H n)
      (x.modifyMetrics f) := by
  apply Follows.modifyMetrics hx
  intro _ _ _ hq
  exact ⟨hq.1, hq.2.disk, hq.2.memory⟩

/-- A change of the Raft state that is saved at once; `E` is remembered of the moves made
for it. -/
theorem RepFollows.saveSmAnd (hx : RepFollows cc p a₀ i h asker n₀ Q x) {E : Ghost → Prop}
    {f : RaftStateMachine → RaftStateMachine}
    (hQ : ∀ a H, GoodGhost cc p a → Q a H x.node → ∃ b,
      Relation.ReflTransGen (Step (clusterRules cc p) i) a b ∧ E b ∧
      Disk cc p b i (H ++ [.wrote]) { x.node.storage with
        hardState := ⟨(f x.sm).currentTerm, (f x.sm).votedFor.getD 0, (f x.sm).commitIndex⟩ } ∧
      Memory cc p b i (f x.sm)) :
    RepFollows cc p a₀ i h asker n₀ (fun a H n => E a ∧ Replica cc p a i H n)
      (x.modifySm f).saveHardState := by
  have hmod : RepFollows cc p a₀ i h asker n₀ (fun a H _ => Q a H x.node) (x.modifySm f) :=
    Follows.modifySm hx fun _ _ _ hq => hq
  have hstored : RepFollows cc p a₀ i h asker n₀ (fun a H _ => Q a H x.node)
      ((x.modifySm f).update fun n => { n with
        storage := (Storage.saveHardState (x.modifySm f).node.hardState n.storage).2 }) :=
    Follows.update hmod _ fun _ _ _ hq => hq
  have hwrote : RepFollows cc p a₀ i h asker n₀ (fun a H n => E a ∧ Replica cc p a i H n)
      (((x.modifySm f).update fun n => { n with
        storage := (Storage.saveHardState (x.modifySm f).node.hardState n.storage).2 }).effect
          .wrote) := by
    apply Follows.effect hstored .wrote
    intro a H _ hgood hq
    obtain ⟨b, hab, hE, hd, hm⟩ := hQ a H hgood hq
    exact ⟨b, hab, hd, nofun, hE, hd, hm⟩
  exact hwrote.count _

/-- A change of the Raft state that is saved at once. -/
theorem RepFollows.saveSm (hx : RepFollows cc p a₀ i h asker n₀ Q x)
    {f : RaftStateMachine → RaftStateMachine}
    (hQ : ∀ a H, GoodGhost cc p a → Q a H x.node → ∃ b,
      Relation.ReflTransGen (Step (clusterRules cc p) i) a b ∧
      Disk cc p b i (H ++ [.wrote]) { x.node.storage with
        hardState := ⟨(f x.sm).currentTerm, (f x.sm).votedFor.getD 0, (f x.sm).commitIndex⟩ } ∧
      Memory cc p b i (f x.sm)) :
    RepFollows cc p a₀ i h asker n₀ (Rep cc p i) (x.modifySm f).saveHardState := by
  have hsaved := hx.saveSmAnd (E := fun _ => True) (f := f) fun a H hgood hq => by
    obtain ⟨b, hab, hd, hm⟩ := hQ a H hgood hq
    exact ⟨b, hab, trivial, hd, hm⟩
  exact Follows.mono hsaved fun _ _ _ hr => hr.2

/-- Stepping down is a later term of the replica. -/
theorem RepFollows.descend (hx : RepFollows cc p a₀ i h asker n₀ (Rep cc p i) x) (T : ℕ)
    (leaderId : Option NodeId) :
    RepFollows cc p a₀ i h asker n₀ (Rep cc p i) (x.descend T leaderId) := by
  unfold NodeTurn.descend
  split
  · rename_i hlt
    unfold NodeTurn.stepDown
    apply hx.saveSm
    intro a H hgood hr
    have hstep : Step (clusterRules cc p) i a (a.raise i T) :=
      .raise a T (by rw [← hr.memory.term]; exact Nat.le_of_lt hlt)
    have hm := hr.memory.becomeFollower hgood hlt leaderId
    refine ⟨_, .single hstep, ?_, hm⟩
    exact hr.disk.resave (hstep.grows hgood.1) rfl (fun _ h => h) hm.term hm.commit
  · exact hx

/-- An effect that applies nothing and announces no leadership. -/
theorem RepFollows.plain (hx : RepFollows cc p a₀ i h asker n₀ (Rep cc p i) x) {e : Effect}
    (he : ∀ e', e ≠ .applied e')
    (hpacket : ∀ a H, GoodGhost cc p a → Replica cc p a i H x.node →
      (replication cc p).effect a i asker e) :
    RepFollows cc p a₀ i h asker n₀ (Rep cc p i) (x.effect e) :=
  Follows.effect hx e fun a H _ hgood hr =>
    ⟨a, .refl, (hr.append he).disk, hpacket a H hgood hr, hr.append he⟩

/-! ## Replication -/

/-- The previous term that `replicate_to` computes. -/
theorem prevLogTerm_eq {s : MemStorage} (hpl : s.Plain) (prev : ℕ) :
    (if prev > 0 then unwrapOr (s.term prev) 0 else 0) =
      TermLog.termAt LogEntry.term s.entries prev := by
  split
  · exact hpl.unwrapOr_term prev
  · rename_i h
    obtain rfl : prev = 0 := by omega
    rfl

/-- A message with entries, or an empty one, of a leader. -/
theorem RepFollows.sendAppend (hi : i ∈ cc.members)
    (hx : RepFollows cc p a₀ i h asker n₀ (Rep cc p i) x) (hlead : x.sm.role = .leader)
    {peer : NodeId} (hpeer : peer ∈ (cc.config i).peers) {prev prevTerm : ℕ}
    (es : List LogEntry)
    (hterm : prevTerm = TermLog.termAt LogEntry.term x.node.storage.entries prev)
    (hes : (prev ≤ x.node.storage.entries.length ∧
        x.node.storage.entries.take prev ++ es <+: x.node.storage.entries) ∨
      (es = [] ∧ x.node.storage.entries.length < prev))
    (hnil : es = [] → x.node.storage.entries.length ≤ prev) :
    RepFollows cc p a₀ i h asker n₀ (Rep cc p i)
      (x.sendAppend (cc.config i) peer prev prevTerm (es.map logEntryToProtoEntry)) := by
  unfold NodeTurn.sendAppend
  refine hx.plain nofun ?_
  intro a H hgood hr packet hpacket
  cases hpacket
  have hok := hr.appendOk hgood hi hlead hpeer hterm hes hnil
  exact ⟨nofun, fun _ _ _ _ _ he => by cases he; exact hok, nofun, nofun, nofun, nofun⟩

/-- What a leader sends is a piece of its log. -/
theorem RepFollows.replicateTo (hi : i ∈ cc.members)
    (hx : RepFollows cc p a₀ i h asker n₀ (Rep cc p i) x) (hlead : x.sm.role = .leader)
    {peer : NodeId} (hpeer : peer ∈ (cc.config i).peers) :
    RepFollows cc p a₀ i h asker n₀ (Rep cc p i) (x.replicateTo (cc.config i) peer) := by
  refine Follows.assume hx (C := x.node.storage.Plain ∧
    ∀ pr, x.sm.progress.lookup peer = some pr → 1 ≤ pr.nextIndex) ?_
    (indifferent_true.replicateTo peer x) ?_
  · intro a H hgood hr
    exact ⟨hr.disk.plain hgood, fun pr hpr => (hr.memory.progress peer pr hpr).2⟩
  rintro ⟨hpl, hnext⟩
  unfold NodeTurn.replicateTo
  split
  · exact hx
  · rename_i progress hprogress
    have hone : 1 ≤ progress.nextIndex := hnext progress hprogress
    have hlast : x.node.storage.lastIndex = x.node.storage.entries.length := hpl.lastIndex
    have hterm := prevLogTerm_eq hpl (progress.nextIndex - 1)
    dsimp only
    rw [NodeTurn.termOr0_eq, u64Sub_of_le hone]
    dsimp only
    rw [NodeTurn.lastIndexOr0_eq]
    dsimp only
    split
    · rename_i hge
      have hlo : x.node.storage.firstIndex ≤ progress.nextIndex := by
        rw [hpl.firstIndex]; exact hone
      obtain ⟨k, hk, hread⟩ := hpl.aligned.readEntries_some hlo hge
        ((cc.config i).maxAppendEntries * 4096)
      rw [hpl.firstIndex] at hread
      rw [NodeTurn.read_entries, hread]
      dsimp only
      refine hx.sendAppend hi hlead hpeer _ hterm (.inl ⟨by omega, ?_⟩) ?_
      · -- the entries sent are the next ones of the log
        have hsplit := List.take_append_drop (progress.nextIndex - 1) x.node.storage.entries
        conv_rhs => rw [← hsplit]
        exact (List.prefix_append_right_inj _).mpr (List.take_prefix _ _)
      · intro hnil
        have := congrArg List.length hnil
        rw [List.length_take, List.length_drop, List.length_nil] at this
        omega
    · rename_i hlt
      refine hx.sendAppend hi hlead hpeer [] hterm ?_ (fun _ => by omega)
      by_cases hle : progress.nextIndex - 1 ≤ x.node.storage.entries.length
      · refine .inl ⟨hle, ?_⟩
        rw [List.append_nil]
        exact List.take_prefix _ _
      · exact .inr ⟨rfl, by omega⟩

/-- So it is with what it sends to all. -/
theorem RepFollows.replicateAll (hi : i ∈ cc.members)
    (hx : RepFollows cc p a₀ i h asker n₀ (Rep cc p i) x) :
    RepFollows cc p a₀ i h asker n₀ (Rep cc p i) (x.replicateAll (cc.config i)) := by
  unfold NodeTurn.replicateAll
  split
  · exact hx
  · rename_i hrole
    have hlead : x.sm.role = .leader := not_not.mp hrole
    have hloop : ∀ (peers : List NodeId) (y : NodeTurn MemStorage),
        (∀ peer ∈ peers, peer ∈ (cc.config i).peers) → y.sm.role = .leader →
        RepFollows cc p a₀ i h asker n₀ (Rep cc p i) y →
        RepFollows cc p a₀ i h asker n₀ (Rep cc p i)
          (peers.foldl (fun x peer => x.replicateTo (cc.config i) peer) y) := by
      intro peers
      induction peers with
      | nil => exact fun y _ _ hy => hy
      | cons peer peers ih =>
        intro y hpeers hy hfollow
        refine ih _ (fun k hk => hpeers k (List.mem_cons_of_mem _ hk)) ?_
          (hfollow.replicateTo hi hy (hpeers peer List.mem_cons_self))
        rw [NodeTurn.sm, NodeTurn.replicateTo_node]
        exact hy
    exact hloop _ x (fun _ hk => hk) hlead hx

/-! ## Elections -/

/-- The moves of `i` make nobody else an owner. -/
theorem RepFollows.owners (hg : GoodGhost cc p a₀) (hx : RepFollows cc p a₀ i h asker n₀ Q x) :
    RepFollows cc p a₀ i h asker n₀ (fun a H n =>
      (∀ T j, j ≠ i → a.owner T = some j → a₀.owner T = some j) ∧ Q a H n) x := by
  refine Follows.carry hx hg (fun _ _ _ h => h) ?_
  intro a b hs _ hE T j hj ho
  exact hE T j hj ((hs.other hj).2.2 T ho)

/-- A leader is elected the owner of its term. -/
theorem RepFollows.takeLeadership (hi : i ∈ cc.members) (hg : GoodGhost cc p a₀)
    (hx : RepFollows cc p a₀ i h asker n₀ (Rep cc p i) x) (hr : x.sm.role = .candidate)
    (hcard : (cc.config i).quorum ≤ x.sm.votesReceived.card) :
    RepFollows cc p a₀ i h asker n₀ (Rep cc p i) (x.takeLeadership (cc.config i)) := by
  unfold NodeTurn.takeLeadership
  rw [NodeTurn.lastIndexOr0_eq]
  dsimp only
  refine RepFollows.replicateAll hi (Follows.modifyMetrics (Q := Rep cc p i) ?_
    fun _ _ _ hr => ⟨hr.disk, hr.memory⟩)
  have hlead : RepFollows cc p a₀ i h asker n₀ (fun a H _ =>
      (∀ T j, j ≠ i → a.owner T = some j → a₀.owner T = some j) ∧ Replica cc p a i H x.node)
      (x.modifySm (.becomeLeader (cc.config i).id x.node.storage.lastIndex
        (cc.config i).peers)) :=
    Follows.modifySm (hx.owners hg) fun _ _ _ hq => hq
  apply Follows.effect hlead _
  intro a H hlegal hgood hq
  obtain ⟨howners, hd, hm⟩ := hq
  have hT : x.sm.currentTerm = a.term i := hm.term
  obtain ⟨hnot, hpos, l, hl⟩ := hm.candidate hr
  -- nobody owns the term: not the node itself, and not another one by assumption
  have hnone : a.owner (a.term i) = none := by
    cases ho : a.owner (a.term i) with
    | none => rfl
    | some j =>
      exfalso
      by_cases hj : j = i
      · subst hj; exact hnot ho
      · exact hlegal (a.term i) (by rw [← hT]; rfl) j hj (howners _ _ hj ho)
  have hstep : Step (clusterRules cc p) i a (a.elect i) := by
    refine .elect a hi hpos hnone ?_
    intro hp
    obtain ⟨hsub, hv⟩ := hm.votes hp hr
    refine ⟨⟨l, hl⟩, x.sm.votesReceived, ⟨hsub, i, hi, hcard⟩, ?_⟩
    intro v hvr
    rcases hv v hvr with hpr | hown
    · exact hpr
    · exact absurd hnone hown
  have hgr := hstep.grows hgood.1
  have howner : (a.elect i).owner (a.term i) = some i := by simp [State.elect]
  have hdisk : Disk cc p (a.elect i) i
      (H ++ [.becameLeader x.sm.currentTerm]) x.node.storage := by
    refine { hd with
      led := fun T hT' => ?_, commit := fun hp => hgood.settled hstep hp (hd.commit hp),
      applied := fun hp e he => ?_ }
    · by_cases hTT : T = a.term i
      · rw [hTT, ← hT]
        exact List.mem_append_right _ (List.mem_singleton_self _)
      · refine List.mem_append_left _ (hd.led T ?_)
        simpa [State.elect, hTT] using hT'
    · rcases List.mem_append.mp he with he | he
      · exact (hd.applied hp e he).grows hgr
      · cases List.mem_singleton.mp he
  refine ⟨_, .single hstep, hdisk, fun _ h => ?_, hdisk, ?_⟩
  · cases h
  refine ⟨hT, fun _ => howner, fun h => ?_, ?_, fun _ h => ?_, ?_,
    fun hp => hgood.settled hstep hp (hm.commit hp)⟩
  · cases h
  · intro j pr hpr
    obtain ⟨hj, rfl⟩ := RaftStateMachine.freshProgress_lookup hpr
    exact ⟨hj, Nat.succ_le_succ (Nat.zero_le _)⟩
  · cases h
  · intro _ _ j pr hpr
    obtain ⟨-, rfl⟩ := RaftStateMachine.freshProgress_lookup hpr
    exact .inl rfl

/-- The requests for votes carry the log the candidate stands with. -/
theorem RepFollows.fanOut {req : RequestVoteRequest}
    (hx : RepFollows cc p a₀ i h asker n₀ (fun a H n => PacketOk cc p a
      (.request i true (.requestVote 0 req)) ∧ Replica cc p a i H n) x) (peers : List NodeId) :
    RepFollows cc p a₀ i h asker n₀ (Rep cc p i)
      (peers.foldl (fun x peer => x.effect (.spawned (.requestVote peer req))) x) := by
  have hloop := Follows.foldl (fun y peer => y.effect (.spawned (.requestVote peer req))) peers
    (fun y peer _ hy => ?_) hx
  · exact Follows.mono hloop fun _ _ _ hq => hq.2
  apply Follows.effect hy (.spawned (.requestVote peer req))
  intro a H _ _ hq
  obtain ⟨hpacket, hr⟩ := hq
  have hr' : Replica cc p a i (H ++ [.spawned (.requestVote peer req)]) y.node := hr.append nofun
  refine ⟨a, .refl, hr'.disk, ?_, hpacket, hr'⟩
  intro packet he
  cases he
  refine ⟨fun _ _ _ _ he => ?_, nofun, nofun, nofun, nofun, nofun⟩
  cases he
  exact hpacket.vote i true 0 req rfl

/-- What a candidate asks with is the log it stands with. -/
theorem Replica.voteOk {n : RaftNodeInner MemStorage} (hr : Replica cc p a i H n)
    (hgood : GoodGhost cc p a) (hcand : a.cand i n.sm.currentTerm = some n.storage.entries) :
    PacketOk cc p a (.request i true (.requestVote 0 ⟨n.sm.currentTerm, i, n.storage.lastIndex,
      if n.storage.lastIndex > 0 then unwrapOr (n.storage.term n.storage.lastIndex) 0 else 0,
      false⟩)) := by
  have hpl := hr.disk.plain hgood
  refine ⟨fun _ _ _ _ he => ?_, nofun, nofun, nofun, nofun, nofun⟩
  cases he
  refine ⟨rfl, n.storage.entries, hcand, hpl.lastIndex.symm, ?_⟩
  dsimp only
  rw [prevLogTerm_eq hpl, hpl.lastIndex, TermLog.termAt_length]

/-- A candidate stands with its own log. -/
theorem RepFollows.startElection (hi : i ∈ cc.members) (hg : GoodGhost cc p a₀)
    (hx : RepFollows cc p a₀ i h asker n₀ (Rep cc p i) x) :
    RepFollows cc p a₀ i h asker n₀ (Rep cc p i) (x.startElection (cc.config i)) := by
  have hid : (cc.config i).id = i := cc.config_id i hi
  have hsaved := hx.saveSmAnd (f := .becomeCandidate (cc.config i).id)
    (E := fun b => b.cand i (x.sm.currentTerm + 1) = some x.node.storage.entries) <| by
      intro a H hgood hr
      rw [hid]
      obtain ⟨hstep, hm⟩ := hr.memory.becomeCandidate hgood hi
      refine ⟨_, .single hstep, ?_, ?_, hm⟩
      · rw [hr.disk.entries]
        simp [State.stand]
      · exact hr.disk.resave (hstep.grows hgood.1) rfl (fun _ ho => ho) hm.term hm.commit
  unfold NodeTurn.startElection
  dsimp only
  generalize hy : (x.modifySm (.becomeCandidate (cc.config i).id)).saveHardState = y at hsaved ⊢
  have hterm : y.sm.currentTerm = x.sm.currentTerm + 1 := by rw [← hy]; rfl
  have hentries : y.node.storage.entries = x.node.storage.entries := by rw [← hy]; rfl
  rw [NodeTurn.lastIndexOr0_eq, NodeTurn.termOr0_eq]
  dsimp only
  generalize ht : (if y.node.storage.lastIndex > 0 then
    unwrapOr (y.node.storage.term y.node.storage.lastIndex) 0 else 0) = t
  have hstarted : RepFollows cc p a₀ i h asker n₀ (fun a H n => PacketOk cc p a
      (.request i true (.requestVote 0 ⟨y.sm.currentTerm, i, y.node.storage.lastIndex, t, false⟩)) ∧
      Replica cc p a i H n) (y.effect (.electionStarted y.sm.currentTerm)) := by
    apply Follows.effect hsaved _
    intro a H _ hgood hq
    obtain ⟨hcand, hr⟩ := hq
    have hr' : Replica cc p a i (H ++ [.electionStarted y.sm.currentTerm]) y.node :=
      hr.append fun _ h => by cases h
    refine ⟨a, .refl, hr'.disk, (fun _ h => by cases h), ?_, hr'⟩
    rw [← ht]
    refine hr.voteOk hgood ?_
    rw [hentries]
    exact hterm ▸ hcand
  have hcounted := hstarted.count fun m => { m with electionsStarted := m.electionsStarted + 1 }
  have hfan := RepFollows.fanOut hcounted (cc.config i).peers
  rw [hid]
  split
  · rename_i hwon
    exact RepFollows.takeLeadership hi hg hfan hwon.2 hwon.1
  · exact hfan

end Turn

end IceRaft
