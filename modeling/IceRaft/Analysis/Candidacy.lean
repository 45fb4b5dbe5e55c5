import IceRaft.Analysis.Transitions
import IceRaft.Interface.Observations

/-!
# Candidates and the leaders they hear of

A node that names another node as its leader should be a follower.  All code that changes the
role keeps to this; the equal-term path of `on_append_entries` names the leader and leaves the
role alone, so a candidate, or a leader, may name another node and go on.
-/

set_option autoImplicit false

namespace IceRaft

variable {σ : Type} [Storage σ] {cfg : RaftConfig} {n : RaftNodeInner σ}

/-- A node that names another node as its leader is a follower. -/
def FollowsNamed (cfg : RaftConfig) (sm : RaftStateMachine) : Prop :=
  ∀ l, sm.leaderId = some l → l ≠ cfg.id → sm.role = .follower

/-- Term and sender of a request that only a leader sends. -/
def Input.leaderRequest? : Input → Option (ℕ × NodeId)
  | .appendEntries req => some (req.term, req.leaderId)
  | .installSnapshot req => some (req.term, req.leaderId)
  | _ => none

/-- The input is a request by another node as leader of our term. -/
def RivalLeads (cfg : RaftConfig) (n : RaftNodeInner σ) (input : Input) : Prop :=
  ∃ l ≠ cfg.id, input.leaderRequest? = some (n.sm.currentTerm, l)

/-- No step but that of a request of the same term breaks the rule. -/
theorem fullFrame_followsNamed (cfg : RaftConfig) : FullFrame cfg
    (fun n n' : RaftNodeInner σ => FollowsNamed cfg n.sm → FollowsNamed cfg n'.sm)
    fun _ => True where
  refl _ h := h
  trans h h' hn := h' (h hn)
  routine _ _ := trivial
  unapplied _ _ := trivial
  rest _ _ _ _ h := h
  progress _ _ h := h
  count _ _ h := h
  grant _ _ h := h
  indices _ _ _ _ h := h
  stepDown _ _ _ _ _ _ _ := rfl
  stand _ _ := nofun
  lead _ _ _ _ hl hne := absurd (Option.some.inj hl).symm hne
  firstIndex _ h := h
  lastIndex _ h := h
  term _ _ h := h
  entries _ _ _ _ h := h
  snapshot _ h := h
  appendEntries _ _ h := h
  applySnapshot _ _ h := h

/-- Same role, same leader named. -/
structure SameSeat (n n' : RaftNodeInner σ) : Prop where
  role : n'.sm.role = n.sm.role
  leaderId : n'.sm.leaderId = n.sm.leaderId

/-- Ordinary work keeps both. -/
theorem frame_sameSeat : Frame (SameSeat (σ := σ)) fun _ => True where
  refl _ := ⟨rfl, rfl⟩
  trans h h' := ⟨h'.role.trans h.role, h'.leaderId.trans h.leaderId⟩
  routine _ _ := trivial
  rest _ _ _ _ := ⟨rfl, rfl⟩
  progress _ _ := ⟨rfl, rfl⟩
  indices _ _ _ _ := ⟨rfl, rfl⟩
  firstIndex _ := ⟨rfl, rfl⟩
  lastIndex _ := ⟨rfl, rfl⟩
  term _ _ := ⟨rfl, rfl⟩
  entries _ _ _ _ := ⟨rfl, rfl⟩
  snapshot _ := ⟨rfl, rfl⟩
  appendEntries _ _ := ⟨rfl, rfl⟩
  applySnapshot _ _ := ⟨rfl, rfl⟩

/-! ## One activation -/

/-- The activation keeps the rule, and makes a follower of a candidate that is asked by a
leader of its term. -/
def Recognises (cfg : RaftConfig) (p : Process σ) (e : Input × Option ℕ) : Prop :=
  FollowsNamed cfg (p.act cfg e.1 e.2).node.sm ∧
    (e.2 = none → RivalLeads cfg p.node e.1 → p.node.sm.role = .candidate →
      (p.act cfg e.1 e.2).node.sm.role = .follower)

/-- No leader of our term asks a candidate, and none asks a leader to append. -/
def MeetsNoRival (cfg : RaftConfig) (p : Process σ) (e : Input × Option ℕ) : Prop :=
  e.2 = none → RivalLeads cfg p.node e.1 → p.node.sm.role ≠ .candidate ∧
    ∀ req, e.1 = .appendEntries req → p.node.sm.role = .follower

/-- A restarted process names nobody. -/
theorem followsNamed_boot (s : σ) : FollowsNamed cfg (Process.boot s).node.sm := by
  obtain ⟨term, vote, commit, hmem⟩ := Process.boot_volatile s
  intro l hl
  rw [show (Process.boot s).node.sm = _ from congrArg Volatile.sm hmem] at hl
  cases hl

/-- A request of our own term names its leader and leaves the role alone. -/
theorem heed_equal {req : AppendEntriesRequest} {x : NodeTurn σ}
    (hterm : req.term = x.sm.currentTerm) :
    (x.heed req).sm = { x.sm with leaderId := some req.leaderId } := by
  unfold NodeTurn.heed NodeTurn.descend
  rw [if_neg (Nat.not_lt.mpr hterm.ge), if_neg (Nat.not_lt.mpr hterm.le)]
  rfl

/-- A request of another term keeps the rule. -/
theorem heed_follows {req : AppendEntriesRequest} {x : NodeTurn σ} (h : FollowsNamed cfg x.sm)
    (hterm : req.term ≠ x.sm.currentTerm) : FollowsNamed cfg (x.heed req).sm := by
  unfold NodeTurn.heed
  split
  · exact h
  · rename_i hle
    have hlt : req.term > x.sm.currentTerm := by omega
    rw [NodeTurn.descend_of_lt hlt]
    intro _ _ _
    rfl

/-- Behind the check on its term and leader, a batch leaves term, role and hint alone. -/
theorem appendEntries_seat (cfg : RaftConfig) (req : AppendEntriesRequest) :
    SameSeat (NodeTurn.heed req (Turn.start n)).node
      (NodeTurn.run cfg (.appendEntries req) (Turn.start n)).node :=
  (frame_sameSeat.handleAppendEntries req (Turn.start n)).node

/-- A snapshot of our own term changes neither role nor leader. -/
theorem installSnapshot_seat (cfg : RaftConfig) {req : InstallSnapshotRequest}
    (hterm : req.term = n.sm.currentTerm) :
    SameSeat n (NodeTurn.run cfg (.installSnapshot req) (Turn.start n)).node := by
  have hseat := (frame_sameSeat.handleInstallSnapshot req (Turn.start n)).node
  have hsame : NodeTurn.descend req.term (some req.leaderId) (Turn.start n) = Turn.start n :=
    if_neg (Nat.not_lt.mpr hterm.le)
  rw [hsame] at hseat
  exact hseat

/-- Any other input keeps the rule. -/
theorem run_follows (h : FollowsNamed cfg n.sm) {input : Input}
    (hother : ∀ req, input ≠ .appendEntries req) :
    FollowsNamed cfg (NodeTurn.run cfg input (Turn.start n)).sm := by
  have hF := fullFrame_followsNamed (σ := σ) cfg
  obtain ⟨y, hy, heq | heq⟩ := hF.run_or_apply input (Turn.start n)
    fun req hreq => absurd hreq (hother req)
  · rw [heq]
    exact hy.node h
  · rw [heq]
    have happly := hF.applyCommitted (fun _ _ h => h) (fun _ => trivial) y
    exact happly.node (hy.node h)

omit [Storage σ] in
/-- The rule carries over to a node with the same role and leader. -/
theorem FollowsNamed.seat {n' : RaftNodeInner σ} (hseat : SameSeat n n') :
    FollowsNamed cfg n'.sm ↔ FollowsNamed cfg n.sm := by
  unfold FollowsNamed
  rw [hseat.role, hseat.leaderId]

omit [Storage σ] in
/-- A rival leads if a request of the current term is in another's name. -/
theorem rivalLeads_iff {input : Input} {term : ℕ} {l : NodeId}
    (hinput : input.leaderRequest? = some (term, l)) :
    RivalLeads cfg n input ↔ term = n.sm.currentTerm ∧ l ≠ cfg.id := by
  unfold RivalLeads
  rw [hinput]
  constructor
  · rintro ⟨l', hne, hl⟩
    obtain ⟨rfl, rfl⟩ := Prod.mk.inj (Option.some.inj hl)
    exact ⟨rfl, hne⟩
  · rintro ⟨rfl, hne⟩
    exact ⟨l, hne, rfl⟩

/-- An AppendEntries request of our own term keeps the rule exactly when we are a follower or
it is our own. -/
theorem appendEntries_follows_iff {req : AppendEntriesRequest}
    (hterm : req.term = n.sm.currentTerm) :
    FollowsNamed cfg (NodeTurn.run cfg (.appendEntries req) (Turn.start n)).sm ↔
      (req.leaderId ≠ cfg.id → n.sm.role = .follower) := by
  have hheed := heed_equal (x := Turn.start n) hterm
  rw [FollowsNamed.seat (appendEntries_seat cfg req)]
  unfold FollowsNamed
  rw [show (NodeTurn.heed req (Turn.start n)).node.sm = _ from hheed]
  constructor
  · intro h hne
    exact h req.leaderId rfl hne
  · intro h l hl hne
    obtain rfl := Option.some.inj hl
    exact h hne

/-- A batch is recognised where no rival leads and the node follows. -/
theorem appendEntries_recognises_iff (p : Process σ) (req : AppendEntriesRequest)
    (h : FollowsNamed cfg p.node.sm) :
    Recognises cfg p (.appendEntries req, none) ↔
      MeetsNoRival cfg p (.appendEntries req, none) := by
  unfold Recognises MeetsNoRival
  rw [rivalLeads_iff (show (Input.appendEntries req).leaderRequest? = _ from rfl)]
  by_cases hterm : req.term = p.node.sm.currentTerm
  · have hiff : FollowsNamed cfg (p.act cfg (.appendEntries req) none).node.sm ↔
        (req.leaderId ≠ cfg.id → p.node.sm.role = .follower) := appendEntries_follows_iff hterm
    constructor
    · rintro ⟨hfollows, -⟩ - ⟨-, hne⟩
      have hrole := hiff.mp hfollows hne
      exact ⟨by rw [hrole]; exact RaftRole.noConfusion, fun _ _ => hrole⟩
    · intro hmeets
      refine ⟨hiff.mpr fun hne => (hmeets rfl ⟨hterm, hne⟩).2 req rfl, ?_⟩
      intro _ hrival hcand
      exact absurd hcand (hmeets rfl hrival).1
  · have hseat : SameSeat (NodeTurn.heed req (Turn.start p.node)).node
        (p.act cfg (.appendEntries req) none).node := appendEntries_seat cfg req
    refine iff_of_true ⟨(FollowsNamed.seat hseat).mpr (heed_follows h hterm), ?_⟩ ?_
    · exact fun _ hrival => absurd hrival.1 hterm
    · exact fun _ hrival => absurd hrival.1 hterm

/-- A snapshot is recognised where no rival leads against a candidate. -/
theorem installSnapshot_recognises_iff (p : Process σ) (req : InstallSnapshotRequest)
    (h : FollowsNamed cfg p.node.sm) : Recognises cfg p (.installSnapshot req, none) ↔
      MeetsNoRival cfg p (.installSnapshot req, none) := by
  have hfollows : FollowsNamed cfg (p.act cfg (.installSnapshot req) none).node.sm :=
    run_follows h fun _ => Input.noConfusion
  unfold Recognises MeetsNoRival
  rw [rivalLeads_iff (show (Input.installSnapshot req).leaderRequest? = _ from rfl)]
  constructor
  · rintro ⟨-, hyields⟩ - hrival
    refine ⟨fun hcand => ?_, fun _ => Input.noConfusion⟩
    -- the snapshot handler leaves the candidate what it is
    have hseat : SameSeat p.node (p.act cfg (.installSnapshot req) none).node :=
      installSnapshot_seat cfg hrival.1
    have hrole := hyields rfl hrival hcand
    rw [hseat.role, hcand] at hrole
    cases hrole
  · intro hmeets
    exact ⟨hfollows, fun _ hrival hcand => absurd hcand (hmeets rfl hrival).1⟩

/-- One activation keeps the rule, and ends a candidacy, exactly when no rival is met. -/
theorem recognises_iff (p : Process σ) (e : Input × Option ℕ) (h : FollowsNamed cfg p.node.sm) :
    Recognises cfg p e ↔ MeetsNoRival cfg p e := by
  obtain ⟨input, crashAt⟩ := e
  cases crashAt with
  | some k => exact iff_of_true ⟨followsNamed_boot _, nofun⟩ nofun
  | none =>
    cases input with
    | appendEntries req => exact appendEntries_recognises_iff p req h
    | installSnapshot req => exact installSnapshot_recognises_iff p req h
    | _ =>
      refine iff_of_true ⟨run_follows h fun _ => Input.noConfusion, ?_⟩ ?_
      · rintro - ⟨l, -, hl⟩
        cases hl
      · rintro - ⟨l, -, hl⟩
        cases hl

/-! ## Whole runs -/

/-- In a later term, or a follower still. -/
def PastOrFollower (term : ℕ) (m : Volatile) : Prop :=
  term < m.sm.currentTerm ∨ (m.sm.currentTerm = term ∧ m.sm.role = .follower)

/-- A follower of a term does not stand in it; it passes it by. -/
theorem PastOrFollower.move {input : Input} {term : ℕ} {m m' : Volatile}
    (hmove : Move cfg input m m') (h : PastOrFollower term m) : PastOrFollower term m' := by
  have hkept {sm : RaftStateMachine} {pending : List (ℕ × Sender)}
      (hterm : sm.currentTerm = m.sm.currentTerm) (hrole : sm.role = m.sm.role) :
      PastOrFollower term ⟨sm, pending⟩ := by
    unfold PastOrFollower
    rw [hterm, hrole]
    exact h
  cases hmove with
  | stepDown leader hinput hlt =>
    left
    rcases h with hpast | ⟨heq, -⟩
    · exact hpast.trans hlt
    · exact heq.symm.trans_lt hlt
  | stand hinput hrole =>
    left
    rcases h with hpast | ⟨heq, -⟩
    · exact hpast.trans (Nat.lt_succ_self _)
    · exact heq.symm.trans_lt (Nat.lt_succ_self _)
  | lead last hrole hquorum =>
    rcases h with hpast | ⟨-, hfollower⟩
    · exact .inl hpast
    · rw [hrole] at hfollower
      cases hfollower
  | progress peer f hrole hf =>
    obtain ⟨progress, hsm⟩ := NodeTurn.updateProgress_eq peer f m.sm
    rw [hsm]
    exact hkept rfl rfl
  | _ => exact hkept rfl rfl

/-- A follower that stays in its term stays a follower, and so counts no vote. -/
theorem stays_follower (es : List (Input × Option ℕ)) {p : Process σ} {term : ℕ}
    (hrole : p.node.sm.role = .follower) (hterm : p.node.sm.currentTerm = term)
    (hes : Runs.Within (fun q e => q.act cfg e.1 e.2)
      (fun q e => (q.act cfg e.1 e.2).node.sm.currentTerm = term) p es) :
    (p.exec cfg es).node.sm.role = .follower := by
  induction es generalizing p with
  | nil => exact hrole
  | cons e es ih =>
    obtain ⟨input, crashAt⟩ := e
    refine ih ?_ hes.1 hes.2
    cases crashAt with
    | some k =>
      obtain ⟨_, _, _, hmem⟩ := Process.boot_volatile
        ((p.turn cfg input).cutNode p.node k).storage
      exact congrArg (fun m => m.sm.role) hmem
    | none =>
      have hstart : PastOrFollower term p.node.volatile := .inr ⟨hterm, hrole⟩
      have hend : PastOrFollower term (p.turn cfg input).node.volatile :=
        Process.turn_keeps (fun _ _ => PastOrFollower.move) hstart
      rcases hend with hpast | ⟨-, hfollower⟩
      · exact absurd hes.1 (Nat.ne_of_gt hpast)
      · exact hfollower

/-- Nobody leads in term zero. -/
theorem one_le_term_of_leader (s : σ) (es : List (Input × Option ℕ))
    (hrole : ((Process.boot s).exec cfg es).node.sm.role = .leader) :
    1 ≤ ((Process.boot s).exec cfg es).node.sm.currentTerm := by
  have hboot (s : σ) : PastOrFollower 0 (Process.boot s).node.volatile := by
    obtain ⟨term, vote, commit, hmem⟩ := Process.boot_volatile s
    rw [hmem]
    rcases Nat.eq_zero_or_pos term with hzero | hpos
    · exact .inr ⟨hzero, rfl⟩
    · exact .inl hpos
  have hrun : PastOrFollower 0 ((Process.boot s).exec cfg es).node.volatile :=
    Process.invariant_of_moves hboot (fun _ _ _ (_ : True) hmove h => h.move hmove) s es
      fun _ _ => trivial
  rcases hrun with hpos | ⟨-, hfollower⟩
  · exact hpos
  · rw [show ((Process.boot s).exec cfg es).node.volatile.sm.role = _ from hrole] at hfollower
    cases hfollower

/-- **A candidacy ends with the recognition of a leader, but for requests of the same term.**
In a run of a process, every state that names another node as the leader is that of a follower,
and every candidate asked by a leader of its term becomes one, exactly when no leader of the
node's term asks it while it is a candidate, or to append while it is a leader.  A follower
stays one as long as it stays in its term.
SRCLINE: iceraft-node/src/node.rs:313-325, 418-431, 673-695, iceraft-node/src/state.rs:75-104 -/
theorem leader_recognised_iff (cfg : RaftConfig) (s : σ) (es : List (Input × Option ℕ)) :
    (Runs.Within (fun p e => p.act cfg e.1 e.2) (Recognises cfg) (Process.boot s) es ↔
      Runs.Within (fun p e => p.act cfg e.1 e.2) (MeetsNoRival cfg) (Process.boot s) es) ∧
    ∀ (p : Process σ) (fs : List (Input × Option ℕ)), p.node.sm.role = .follower →
      Runs.Within (fun q e => q.act cfg e.1 e.2)
        (fun q e => (q.act cfg e.1 e.2).node.sm.currentTerm = p.node.sm.currentTerm) p fs →
      (p.exec cfg fs).node.sm.role = .follower := by
  constructor
  · exact Runs.within_congr_of_invariant (fun p => FollowsNamed cfg p.node.sm)
      (fun _ _ _ hkept => hkept.1) (fun p e h => recognises_iff p e h) (followsNamed_boot s) es
  · intro p fs hrole hfs
    exact stays_follower fs hrole rfl hfs

/-- A follower that hears of a leader of term 1, and then of its snapshot. -/
def heardLeader : List (Input × Option ℕ) :=
  [(.appendEntries ⟨1, 2, 0, 0, [], 0⟩, none), (.installSnapshot ⟨1, 2, 3, 1, 0, [], true⟩, none)]

/-- A follower recognises the leader it hears of, by a batch and by a snapshot. -/
theorem leader_recognised_iff_heardLeader :
    (Runs.Within (fun p e => p.act ⟨1, [2, 3], 100, 300, 600, 128⟩ e.1 e.2)
        (Recognises ⟨1, [2, 3], 100, 300, 600, 128⟩) (Process.boot MemStorage.new) heardLeader ↔
      Runs.Within (fun p e => p.act ⟨1, [2, 3], 100, 300, 600, 128⟩ e.1 e.2)
        (MeetsNoRival ⟨1, [2, 3], 100, 300, 600, 128⟩) (Process.boot MemStorage.new) heardLeader) ∧
    ((Process.boot (MemStorage.mk ⟨1, 0, 0⟩ [] none)).exec ⟨1, [2, 3], 100, 300, 600, 128⟩
      heardLeader).node.sm.role = .follower :=
  ⟨(leader_recognised_iff _ MemStorage.new heardLeader).1,
    (leader_recognised_iff ⟨1, [2, 3], 100, 300, 600, 128⟩ MemStorage.new []).2
      (Process.boot (MemStorage.mk ⟨1, 0, 0⟩ [] none)) heardLeader (by decide +kernel)
      (by decide +kernel)⟩

/-- Five nodes. -/
def quintet : ClusterConfig := .ofIds [1, 2, 3, 4, 5] (by decide)

/-- Nodes 1 and 2 stand in term 1, and 2 wins with the votes of 3 and 5; its heartbeat reaches
1, and then the vote of 4 does. -/
def crossedRun : List Event :=
  [⟨.timer 1 true false, none⟩, ⟨.timer 2 true false, none⟩, ⟨.deliver 5, none⟩,
    ⟨.deliver 6, none⟩, ⟨.deliver 6, none⟩, ⟨.deliver 6, none⟩, ⟨.deliver 6, none⟩,
    ⟨.deliver 2, none⟩, ⟨.deliver 9, none⟩]

/-- Node 1 names node 2 as the leader of term 1, stays a candidate and counts a further vote. -/
theorem candidate_outlives_leader :
    let c := Cluster.exec quintet (Cluster.init fun _ => MemStorage.new) crossedRun
    (c.sm 2).role = .leader ∧ (c.sm 2).currentTerm = 1 ∧ (c.sm 1).currentTerm = 1 ∧
      (c.sm 1).leaderId = some 2 ∧ (c.sm 1).role = .candidate ∧
      (c.sm 1).votesReceived = {1, 4} := by
  decide +kernel

end IceRaft
