import IceRaft.Analysis.ElectionSafety
import IceRaft.Model.Timers

/-!
# The election clock

Only an election moves the election deadline.  A request from the leader does not, and
neither does a step down, so an election follows as soon as the old deadline has come.
-/

set_option autoImplicit false

namespace IceRaft

namespace TimedLoop

variable {σ : Type} [Storage σ] {cfg : RaftConfig} {s : TimedLoop σ} {e : LoopEvent}

/-- The event lets a follower or candidate accept a request from the leader, or a leader
step down. -/
def Quiets (cfg : RaftConfig) (s : TimedLoop σ) (e : LoopEvent) : Prop :=
  (s.role ≠ .leader ∧ ∃ req resp, e = .appendEntries req ∧
      s.process.node.sm.currentTerm ≤ req.term ∧
      (NodeTurn.onAppendEntries req (Turn.start s.process.node)).1 = .ok resp ∧
      resp.success = true) ∨
    (s.role = .leader ∧ (s.step cfg e).role ≠ .leader)

/-- When the event is to keep elections off, the election deadline is late enough already,
or there is no loop to wait for it. -/
def Postponed (cfg : RaftConfig) (s : TimedLoop σ) (e : LoopEvent) : Prop :=
  Quiets cfg s e → s.process.looping = true →
    s.now + cfg.electionTimeoutMinMs ≤ max s.now s.electionDeadline

/-- After every event of the run that is to keep elections off, none starts within the
minimal election timeout. -/
def Undisturbed (cfg : RaftConfig) : TimedLoop σ → List LoopEvent → Prop
  | _, [] => True
  | s, e :: es => (Quiets cfg s e → ∀ t ∈ elections cfg (s.step cfg e) es,
      s.now + cfg.electionTimeoutMinMs ≤ t) ∧ Undisturbed cfg (s.step cfg e) es

/-! ## One event -/

omit [Storage σ] in
/-- Arming the heartbeat takes no time. -/
@[simp] theorem rearm_now (s : TimedLoop σ) : s.rearm.now = s.now := rfl

omit [Storage σ] in
/-- It leaves the election deadline alone. -/
@[simp] theorem rearm_electionDeadline (s : TimedLoop σ) :
    s.rearm.electionDeadline = s.electionDeadline := rfl

/-- An input takes no time of its own. -/
@[simp] theorem handle_now (input : Input) : (s.handle cfg input).now = s.now := rfl

/-- No input moves the election deadline. -/
@[simp] theorem handle_electionDeadline (input : Input) :
    (s.handle cfg input).electionDeadline = s.electionDeadline := rfl

/-- The timer branch takes no time of its own. -/
theorem timerFires_now (draw : ℕ) : (s.timerFires cfg draw).now = s.now := by
  unfold timerFires
  dsimp only
  split
  · rfl
  · split
    · rfl
    · rfl

/-- The clock never goes back. -/
theorem le_step_now (e : LoopEvent) : s.now ≤ (s.step cfg e).now := by
  cases e with
  | elapse ms => exact Nat.le_add_right _ _
  | receive msg =>
    simp only [step]
    split
    · exact Nat.le_refl _
    · exact Nat.le_refl _
  | wake draw =>
    simp only [step]
    split
    · rw [rearm_now, timerFires_now]
    · exact Nat.le_refl _
  | _ => exact Nat.le_refl _

/-- Only an election moves the election deadline. -/
theorem step_electionDeadline (h : ¬ s.Elects e) :
    (s.step cfg e).electionDeadline = s.electionDeadline := by
  cases e with
  | receive msg =>
    simp only [step]
    split
    · rfl
    · rfl
  | wake draw =>
    simp only [step]
    split
    · rename_i hfires
      have hnot : ¬ (s.electionDeadline ≤ s.now ∧ s.role ≠ .leader) := fun hdue =>
        h ⟨hfires.1, hfires.2, hdue.1, hdue.2⟩
      unfold timerFires
      rw [rearm_electionDeadline, if_neg hnot]
      split
      · rfl
      · rfl
    · rfl
  | _ => rfl

/-- A loop that has ended stays so. -/
theorem step_looping (h : s.process.looping = false) : (s.step cfg e).process.looping = false := by
  have hnone : ∀ input, (s.handle cfg input).process.looping = false := by
    intro input
    show (s.process.looping && _) = false
    rw [h]
    rfl
  cases e with
  | elapse ms => exact h
  | receive msg =>
    simp only [step, h]
    exact h
  | wake draw =>
    simp only [step, h]
    exact h
  | _ => exact hnone _

/-- An election at `t` or later is all that can follow, once `t` is not behind both the
clock and the election deadline. -/
theorem elections_late {t : ℕ} (es : List LoopEvent) (h : t ≤ max s.now s.electionDeadline) :
    ∀ u ∈ elections cfg s es, t ≤ u := by
  induction es generalizing s with
  | nil => exact fun u hu => absurd hu List.not_mem_nil
  | cons e es ih =>
    intro u hu
    have hmono : s.now ≤ (s.step cfg e).now := le_step_now e
    rcases List.mem_append.mp hu with hu | hu
    · split at hu
      · rename_i helects
        rw [List.mem_singleton.mp hu]
        have hdue : s.electionDeadline ≤ s.now := by
          cases e with
          | wake draw => exact helects.2.2.1
          | _ => exact helects.elim
        omega
      · exact absurd hu List.not_mem_nil
    · refine ih ?_ u hu
      by_cases helects : s.Elects e
      · have hdue : s.electionDeadline ≤ s.now := by
          cases e with
          | wake draw => exact helects.2.2.1
          | _ => exact helects.elim
        omega
      · rw [step_electionDeadline helects]
        omega

/-- A loop that has ended starts no election. -/
theorem elections_ended (es : List LoopEvent) (h : s.process.looping = false) :
    elections cfg s es = [] := by
  induction es generalizing s with
  | nil => rfl
  | cons e es ih =>
    have hnot : ¬ s.Elects e := by
      cases e with
      | wake draw => exact fun helects => Bool.false_ne_true (h.symm.trans helects.1)
      | _ => exact id
    unfold elections
    rw [if_neg hnot, ih (step_looping h)]
    rfl

/-! ## What can follow -/

/-- A node that does not lead does not begin to with a request to append. -/
theorem appendEntries_role (req : AppendEntriesRequest) (h : s.role ≠ .leader) :
    (s.step cfg (.appendEntries req)).role ≠ .leader := by
  have hquiet := (indifferent_sameVote (σ := σ)).handleAppendEntries req
    (Turn.start s.process.node)
  have hrole : (s.step cfg (.appendEntries req)).role =
      (NodeTurn.descend req.term (some req.leaderId) (Turn.start s.process.node)).sm.role :=
    hquiet.node.role
  rw [hrole]
  unfold NodeTurn.descend
  split
  · exact nofun
  · exact h

/-- A quieting request leaves no leader. -/
theorem Quiets.not_leader (h : Quiets cfg s e) : (s.step cfg e).role ≠ .leader := by
  rcases h with ⟨hrole, req, resp, rfl, -⟩ | ⟨-, hdown⟩
  · exact appendEntries_role req hrole
  · exact hdown

/-- An event that keeps elections off is none. -/
theorem Quiets.not_elects (h : Quiets cfg s e) : ¬ s.Elects e := by
  intro helects
  cases e with
  | wake draw =>
    rcases h with ⟨-, req, resp, heq, -⟩ | ⟨hlead, -⟩
    · cases heq
    · exact helects.2.2.2 hlead
  | _ => exact helects.elim

/-- It does not end the loop either. -/
theorem Quiets.looping (h : Quiets cfg s e) (hloop : s.process.looping = true) :
    (s.step cfg e).process.looping = true := by
  have hhandle : ∀ input, input ≠ .message .shutdown →
      (s.handle cfg input).process.looping = true := by
    intro input hne
    show (s.process.looping && !decide (input = .message .shutdown)) = true
    rw [hloop, decide_eq_false hne]
    rfl
  cases e with
  | elapse ms => exact hloop
  | receive msg =>
    simp only [step, if_pos hloop]
    apply hhandle _
    intro heq
    cases heq
    -- `Shutdown` leaves the role alone
    rcases h with ⟨-, req, resp, hreq, -⟩ | ⟨hlead, hdown⟩
    · cases hreq
    · simp only [step, if_pos hloop] at hdown
      exact hdown hlead
  | wake draw =>
    have htimer := hhandle (.timer (decide (s.electionDeadline ≤ s.now))
      (decide (s.heartbeatDeadline ≤ s.now))) nofun
    simp only [step]
    split
    · simp only [timerFires]
      split
      · exact htimer
      · split
        · exact htimer
        · exact htimer
    · exact hloop
  | _ => exact hhandle _ nofun

/-- It takes no time. -/
theorem Quiets.now (h : Quiets cfg s e) : (s.step cfg e).now = s.now := by
  cases e with
  | elapse ms =>
    rcases h with ⟨-, req, resp, heq, -⟩ | ⟨hlead, hdown⟩
    · cases heq
    · exact absurd hlead hdown
  | receive msg =>
    simp only [step]
    split
    · rfl
    · rfl
  | wake draw =>
    simp only [step]
    split
    · rw [rearm_now, timerFires_now]
    · rfl
  | _ => rfl

/-- A message makes the loop choose its deadline anew; when that has come the election
starts. -/
theorem election_follows (hloop : s.process.looping = true) (hrole : s.role ≠ .leader) :
    max s.now s.electionDeadline ∈ elections cfg s
      [.receive (.getTerm 0), .elapse (s.electionDeadline - s.now), .wake 0] := by
  have hasked : s.step cfg (.receive (.getTerm 0)) =
      (s.handle cfg (.message (.getTerm 0))).rearm := by
    simp only [step, if_pos hloop]
  have hnow : max s.now s.electionDeadline = s.now + (s.electionDeadline - s.now) := by omega
  have helects : ((s.handle cfg (.message (.getTerm 0))).rearm.step cfg
      (.elapse (s.electionDeadline - s.now))).Elects (.wake 0) := by
    refine ⟨?_, ?_, ?_, hrole⟩
    · show (s.process.looping && _) = true
      rw [hloop]
      rfl
    · -- the deadline was chosen for a node that does not lead
      show (if s.role = .leader then s.heartbeatDeadline else s.electionDeadline) ≤
        s.now + (s.electionDeadline - s.now)
      rw [if_neg hrole]
      omega
    · show s.electionDeadline ≤ s.now + (s.electionDeadline - s.now)
      omega
  unfold elections
  rw [hasked]
  refine List.mem_append_right _ (List.mem_append_right _ (List.mem_append_left _ ?_))
  rw [if_pos helects, hnow]
  exact List.mem_singleton.mpr rfl

/-- **What keeps elections off.**  In every run in which the election deadline is late enough
whenever a leader is heard or a leader steps down, no election starts within the minimal
election timeout of it; and wherever it is not late enough, an election may follow.
SRCLINE: iceraft-node/src/node.rs:209-295, 302-368 -/
theorem undisturbed_of_postponed (cfg : RaftConfig) (s : TimedLoop σ) :
    (∀ es, Runs.Within (step cfg) (Postponed cfg) s es → Undisturbed cfg s es) ∧
      ∀ e, (∀ es, Undisturbed cfg s (e :: es)) → Postponed cfg s e := by
  constructor
  · intro es
    induction es generalizing s with
    | nil => exact fun _ => trivial
    | cons e es ih =>
      intro h
      refine ⟨fun hquiets => ?_, ih _ h.2⟩
      by_cases hloop : s.process.looping = true
      · refine elections_late es ?_
        rw [hquiets.now, step_electionDeadline hquiets.not_elects]
        exact h.1 hquiets hloop
      · rw [elections_ended es (step_looping (Bool.eq_false_iff.mpr hloop))]
        exact nofun
  · intro e hall hquiets hloop
    have hlate := (hall _).1 hquiets _
      (election_follows (hquiets.looping hloop) hquiets.not_leader)
    rw [hquiets.now, step_electionDeadline hquiets.not_elects] at hlate
    exact hlate

/-- With its election deadline at 600, a follower hears a leader at 100 and at 200 and stands
for election at 600. -/
theorem undisturbed_of_postponed_heartbeats :
    elections { id := 1, peers := [2, 3] } (start { id := 1, peers := [2, 3] } MemStorage.new 0 300)
        [.elapse 100, .appendEntries ⟨1, 2, 0, 0, [], 0⟩, .elapse 100,
          .appendEntries ⟨1, 2, 0, 0, [], 0⟩, .elapse 400, .wake 0] = [600] ∧
      Undisturbed { id := 1, peers := [2, 3] }
        (start { id := 1, peers := [2, 3] } MemStorage.new 0 300)
        [.elapse 100, .appendEntries ⟨1, 2, 0, 0, [], 0⟩, .elapse 100,
          .appendEntries ⟨1, 2, 0, 0, [], 0⟩, .elapse 400, .wake 0] := by
  refine ⟨by decide +kernel, (undisturbed_of_postponed _ _).1 _ ?_⟩
  refine ⟨fun _ _ => ?_, fun _ _ => ?_, fun _ _ => ?_, fun _ _ => ?_, fun h _ => ?_,
    fun h _ => ?_, trivial⟩
  · decide +kernel
  · decide +kernel
  · decide +kernel
  · decide +kernel
  · rcases h with ⟨-, _, _, heq, -⟩ | ⟨hlead, hdown⟩
    · cases heq
    · exact absurd hlead hdown
  · rcases h with ⟨-, _, _, heq, -⟩ | ⟨hlead, -⟩
    · cases heq
    · exact absurd hlead (by decide +kernel)

/-- A follower started at 0 whose election deadline is 300, at 299. -/
def almostDue : TimedLoop MemStorage :=
  exec { id := 1, peers := [2, 3] } (start { id := 1, peers := [2, 3] } .new 0 0) [.elapse 299]

/-- A leader elected at 300 whose election deadline is 600, at 599. -/
def leaderAlmostDue : TimedLoop MemStorage :=
  exec { id := 1, peers := [2, 3] } (start { id := 1, peers := [2, 3] } .new 0 0)
    [.elapse 300, .wake 0, .receive (.voteResponse 2 ⟨1, true⟩), .elapse 299]

/-- Both start an election one millisecond after they accepted a heartbeat, or stepped down. -/
theorem election_after_heartbeat :
    (Quiets { id := 1, peers := [2, 3] } almostDue (.appendEntries ⟨1, 2, 0, 0, [], 0⟩) ∧
        elections { id := 1, peers := [2, 3] } almostDue
          [.appendEntries ⟨1, 2, 0, 0, [], 0⟩, .elapse 1, .wake 0] = [300]) ∧
      (Quiets { id := 1, peers := [2, 3] } leaderAlmostDue (.requestVote ⟨2, 2, 0, 0, false⟩) ∧
        elections { id := 1, peers := [2, 3] } leaderAlmostDue
          [.requestVote ⟨2, 2, 0, 0, false⟩, .elapse 1, .wake 0] = [600]) ∧
      ¬ Undisturbed { id := 1, peers := [2, 3] } almostDue
        [.appendEntries ⟨1, 2, 0, 0, [], 0⟩, .elapse 1, .wake 0] := by
  have hquiets : Quiets { id := 1, peers := [2, 3] } almostDue
      (.appendEntries ⟨1, 2, 0, 0, [], 0⟩) :=
    .inl ⟨by decide +kernel, _, ⟨1, true, 0, 0⟩, rfl, by decide +kernel, rfl, rfl⟩
  refine ⟨⟨hquiets, by decide +kernel⟩, ⟨.inr ⟨by decide +kernel, by decide +kernel⟩,
    by decide +kernel⟩, fun h => ?_⟩
  have hlate := h.1 hquiets 300 (by decide +kernel)
  exact absurd hlate (by decide +kernel)

end TimedLoop

end IceRaft
