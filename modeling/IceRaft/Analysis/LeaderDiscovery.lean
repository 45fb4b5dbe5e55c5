import IceRaft.Model.Client
import IceRaft.Analysis.TurnFrame

/-!
# What the client's search finds

`on_append_entries` returns a reply in every role and term, a refusal included, and the
search takes any reply for acceptance.  So it stops at the first member whose reply gets
back.  The probe has term zero and names leader zero: a node of a later term refuses it and
stays as it was, a node of term zero records the leader.
-/

set_option autoImplicit false

namespace IceRaft

namespace RaftClusterClient

variable {σ : Type} [Storage σ]

/-- Role, term, leader, store and commit index are the same. -/
structure Undisturbed (n n' : RaftNodeInner σ) : Prop where
  role : n'.sm.role = n.sm.role
  currentTerm : n'.sm.currentTerm = n.sm.currentTerm
  leaderId : n'.sm.leaderId = n.sm.leaderId
  storage : n'.storage = n.storage
  commitIndex : n'.sm.commitIndex = n.sm.commitIndex

/-- The member found, which is the last one visited, leads when it answers; and no visit
changes the node. -/
structure Discovers (found : Option NodeId) (made : List (NodeId × Visit σ)) : Prop where
  leads : ∀ m, found = some m →
    ∃ v, made.getLast? = some (m, v) ∧ (pingLeader v).2.sm.role = .leader
  undisturbed : ∀ e ∈ made, Undisturbed e.2.node (pingLeader e.2).2

/-- No reply of an earlier member gets back. -/
def Reached (stops : List (NodeId × Visit σ)) (e : NodeId × Visit σ) : Prop :=
  ∃ before after, stops = before ++ e :: after ∧ ∀ w ∈ before, w.2.fate ≠ .answered

/-- A reply that gets back is a leader's, and a node that gets the probe has left term zero
or names leader zero already. -/
def FindsItLeading (v : Visit σ) : Prop :=
  (v.fate = .answered → v.node.sm.role = .leader) ∧
    (v.fate ≠ .lost → 1 ≤ v.node.sm.currentTerm ∨ v.node.sm.leaderId = some 0)

/-! ## One probe -/

/-- The node after it has handled a probe. -/
def probed (n : RaftNodeInner σ) : RaftNodeInner σ :=
  (NodeTurn.onAppendEntries pingRequest (Turn.start n)).2.node

omit [Storage σ] in
/-- A node that nothing reaches is undisturbed. -/
theorem Undisturbed.refl (n : RaftNodeInner σ) : Undisturbed n n := by
  constructor <;> rfl

/-- A node of a later term refuses the probe. -/
theorem onAppendEntries_ping_of_pos {x : NodeTurn σ} (hterm : 1 ≤ x.sm.currentTerm) :
    x.onAppendEntries pingRequest = (.ok (NodeTurn.reject 0 0 x.sm.currentTerm), x) :=
  NodeTurn.onAppendEntries_stale hterm

/-- A node of term zero takes the probe for a heartbeat of its leader. -/
theorem onAppendEntries_ping_of_zero {x : NodeTurn σ} (hterm : x.sm.currentTerm = 0) :
    x.onAppendEntries pingRequest =
      (.ok ⟨x.sm.currentTerm, true, 0, 0⟩,
        (x.modifySm fun sm => { sm with leaderId := some 0 }).modifyMetrics
          fun m => { m with appendEntriesReceived := m.appendEntriesReceived + 1 }) := by
  have hgt : ¬ pingRequest.term > x.sm.currentTerm := Nat.not_lt_zero _
  have hlt : ¬ pingRequest.term < x.sm.currentTerm := Nat.not_lt.mpr (Nat.le_of_eq hterm)
  unfold NodeTurn.onAppendEntries
  rw [if_neg hgt]
  dsimp only
  rw [if_neg hlt]
  rfl

/-- A ping is answered, and does nothing but that it may name a leader in term zero. -/
theorem handleAppendEntries_ping (x : NodeTurn σ) :
    ∃ resp, x.handleAppendEntries pingRequest =
        x.effect (.replied (.appendEntries pingRequest (.ok resp))) ∨
      x.sm.currentTerm = 0 ∧ x.handleAppendEntries pingRequest =
        ((x.modifySm fun sm => { sm with leaderId := some 0 }).modifyMetrics
          fun m => { m with appendEntriesReceived := m.appendEntriesReceived + 1 }).effect
            (.replied (.appendEntries pingRequest (.ok resp))) := by
  unfold NodeTurn.handleAppendEntries
  rcases Nat.eq_zero_or_pos x.sm.currentTerm with hzero | hpos
  · rw [onAppendEntries_ping_of_zero hzero]
    exact ⟨_, .inr ⟨hzero, rfl⟩⟩
  · rw [onAppendEntries_ping_of_pos hpos]
    exact ⟨_, .inl rfl⟩

/-- A ping gets a reply. -/
theorem onAppendEntries_ping_ok (n : RaftNodeInner σ) :
    ∃ resp, (NodeTurn.onAppendEntries pingRequest (Turn.start n)).1 = .ok resp := by
  rcases Nat.eq_zero_or_pos n.sm.currentTerm with hzero | hpos
  · rw [onAppendEntries_ping_of_zero (x := Turn.start n) hzero]
    exact ⟨_, rfl⟩
  · rw [onAppendEntries_ping_of_pos (x := Turn.start n) hpos]
    exact ⟨_, rfl⟩

/-- Every reply that gets back counts as acceptance. -/
theorem pingLeader_accepts_iff (v : Visit σ) : (pingLeader v).1 = true ↔ v.fate = .answered := by
  obtain ⟨resp, hresp⟩ := onAppendEntries_ping_ok v.node
  obtain ⟨fate, node⟩ := v
  unfold pingLeader
  cases fate with
  | lost => exact ⟨nofun, nofun⟩
  | unanswered => exact ⟨nofun, nofun⟩
  | answered =>
    dsimp only at hresp ⊢
    rw [hresp]
    exact iff_of_true rfl rfl

/-- A lost probe leaves the node alone. -/
theorem pingLeader_node_of_lost {v : Visit σ} (hfate : v.fate = .lost) :
    (pingLeader v).2 = v.node := by
  unfold pingLeader
  rw [hfate]

/-- A probe that arrives is handled, answered or not. -/
theorem pingLeader_node_of_ne_lost {v : Visit σ} (hfate : v.fate ≠ .lost) :
    (pingLeader v).2 = probed v.node := by
  obtain ⟨resp, hresp⟩ := onAppendEntries_ping_ok v.node
  obtain ⟨fate, node⟩ := v
  unfold pingLeader
  cases fate with
  | lost => exact absurd rfl hfate
  | unanswered => rfl
  | answered =>
    dsimp only at hresp ⊢
    rw [hresp]
    rfl

/-- A probe does not change the role, as its term is 0. -/
theorem probed_role (n : RaftNodeInner σ) : (probed n).sm.role = n.sm.role := by
  unfold probed
  rcases Nat.eq_zero_or_pos n.sm.currentTerm with hzero | hpos
  · rw [onAppendEntries_ping_of_zero (x := Turn.start n) hzero]
    rfl
  · rw [onAppendEntries_ping_of_pos (x := Turn.start n) hpos]
    rfl

/-- The probe disturbs a node of term zero that does not name leader zero, and no other. -/
theorem undisturbed_probed_iff (n : RaftNodeInner σ) :
    Undisturbed n (probed n) ↔ 1 ≤ n.sm.currentTerm ∨ n.sm.leaderId = some 0 := by
  unfold probed
  rcases Nat.eq_zero_or_pos n.sm.currentTerm with hzero | hpos
  · rw [onAppendEntries_ping_of_zero (x := Turn.start n) hzero]
    constructor
    · intro h
      exact Or.inr h.leaderId.symm
    · rintro (hpos | hleader)
      · omega
      · exact ⟨rfl, rfl, hleader.symm, rfl, rfl⟩
  · rw [onAppendEntries_ping_of_pos (x := Turn.start n) hpos]
    exact iff_of_true (Undisturbed.refl n) (Or.inl hpos)

/-- So neither does its delivery. -/
theorem pingLeader_role (v : Visit σ) : (pingLeader v).2.sm.role = v.node.sm.role := by
  by_cases hfate : v.fate = .lost
  · rw [pingLeader_node_of_lost hfate]
  · rw [pingLeader_node_of_ne_lost hfate, probed_role]

/-- A probe leaves a node undisturbed above term 0, or where it already names leader 0. -/
theorem pingLeader_undisturbed_iff (v : Visit σ) : Undisturbed v.node (pingLeader v).2 ↔
    (v.fate ≠ .lost → 1 ≤ v.node.sm.currentTerm ∨ v.node.sm.leaderId = some 0) := by
  by_cases hfate : v.fate = .lost
  · rw [pingLeader_node_of_lost hfate]
    exact iff_of_true (Undisturbed.refl _) fun hne => absurd hfate hne
  · rw [pingLeader_node_of_ne_lost hfate, undisturbed_probed_iff]
    exact ⟨fun h _ => h, fun h => h hfate⟩

/-! ## The search -/

omit [Storage σ] in
/-- Nobody is reached among no members. -/
theorem not_reached_nil (e : NodeId × Visit σ) : ¬ Reached [] e := by
  rintro ⟨before, after, hsplit, -⟩
  cases before <;> cases hsplit

omit [Storage σ] in
/-- The first member is reached, and the others if it does not answer. -/
theorem reached_cons_iff (c e : NodeId × Visit σ) (rest : List (NodeId × Visit σ)) :
    Reached (c :: rest) e ↔ e = c ∨ c.2.fate ≠ .answered ∧ Reached rest e := by
  constructor
  · rintro ⟨before, after, hsplit, hnone⟩
    cases before with
    | nil =>
      cases hsplit
      exact Or.inl rfl
    | cons b before =>
      cases hsplit
      exact Or.inr ⟨hnone c (List.mem_cons_self ..), before, after, rfl,
        fun w hw => hnone w (List.mem_cons_of_mem _ hw)⟩
  · rintro (rfl | ⟨hfate, before, after, rfl, hnone⟩)
    · exact ⟨[], rest, rfl, List.forall_mem_nil _⟩
    · exact ⟨c :: before, after, rfl, List.forall_mem_cons.mpr ⟨hfate, hnone⟩⟩

/-- The first answer ends the search. -/
theorem tryMembers_cons_of_answered {m : NodeId} {v : Visit σ}
    (rest : List (NodeId × Visit σ)) (hfate : v.fate = .answered) :
    tryMembers ((m, v) :: rest) = (some m, [(m, v)]) :=
  if_pos ((pingLeader_accepts_iff v).mpr hfate)

/-- Without an answer the search goes on behind this member. -/
theorem tryMembers_cons_of_not {m : NodeId} {v : Visit σ} (rest : List (NodeId × Visit σ))
    (hfate : v.fate ≠ .answered) :
    tryMembers ((m, v) :: rest) =
      ((tryMembers rest).1, (m, v) :: (tryMembers rest).2) :=
  if_neg fun h => hfate ((pingLeader_accepts_iff v).mp h)

/-- The visits made are those that no earlier reply prevents. -/
theorem mem_tryMembers_iff (stops : List (NodeId × Visit σ)) (e : NodeId × Visit σ) :
    e ∈ (tryMembers stops).2 ↔ Reached stops e := by
  induction stops with
  | nil => exact iff_of_false List.not_mem_nil (not_reached_nil e)
  | cons c rest ih =>
    obtain ⟨m, v⟩ := c
    rw [reached_cons_iff]
    by_cases hfate : v.fate = .answered
    · rw [tryMembers_cons_of_answered rest hfate, List.mem_singleton]
      exact ⟨Or.inl, fun h => h.resolve_right fun hne => hne.1 hfate⟩
    · rw [tryMembers_cons_of_not rest hfate, List.mem_cons, ih]
      exact or_congr_right ⟨fun h => ⟨hfate, h⟩, And.right⟩

/-- A member is found by the last visit, and its reply gets back. -/
theorem tryMembers_found {stops : List (NodeId × Visit σ)} {m : NodeId}
    (hfound : (tryMembers stops).1 = some m) :
    ∃ v, (tryMembers stops).2.getLast? = some (m, v) ∧ v.fate = .answered := by
  induction stops with
  | nil => cases hfound
  | cons c rest ih =>
    obtain ⟨m', v'⟩ := c
    by_cases hfate : v'.fate = .answered
    · rw [tryMembers_cons_of_answered rest hfate] at hfound ⊢
      obtain rfl := Option.some.inj hfound
      exact ⟨v', rfl, hfate⟩
    · rw [tryMembers_cons_of_not rest hfate] at hfound ⊢
      obtain ⟨v, hlast, hans⟩ := ih hfound
      refine ⟨v, ?_, hans⟩
      rw [List.getLast?_cons, hlast]
      rfl

/-- The search ends with the first reply that gets back. -/
theorem tryMembers_of_reached {stops : List (NodeId × Visit σ)} {m : NodeId} {v : Visit σ}
    (hreach : Reached stops (m, v)) (hans : v.fate = .answered) :
    (tryMembers stops).1 = some m ∧ (tryMembers stops).2.getLast? = some (m, v) := by
  induction stops with
  | nil => exact absurd hreach (not_reached_nil _)
  | cons c rest ih =>
    obtain ⟨m', v'⟩ := c
    rcases (reached_cons_iff _ _ _).mp hreach with heq | ⟨hfate, hreach⟩
    · cases heq
      rw [tryMembers_cons_of_answered rest hans]
      exact ⟨rfl, rfl⟩
    · obtain ⟨hfound, hlast⟩ := ih hreach
      rw [tryMembers_cons_of_not rest hfate]
      refine ⟨hfound, ?_⟩
      rw [List.getLast?_cons, hlast]
      rfl

/-- For every state in which the probes find the members, and whatever becomes of them: the
search finds a leader and disturbs nobody exactly when no reply but a leader's gets back
before it ends, and no probe gets to a node of term zero that does not name leader zero.
SRCLINE: iceraft-client/src/lib.rs:34-62, iceraft-node/src/node.rs:302-368 -/
theorem find_leader_sound_iff (client : RaftClusterClient) (visits : ℕ → Visit σ) :
    Discovers (client.findLeader visits).1 (client.findLeader visits).2.2 ↔
      ∀ e, Reached (client.tour visits) e → FindsItLeading e.2 := by
  unfold findLeader
  dsimp only
  constructor
  · rintro h ⟨m, v⟩ hreach
    constructor
    · intro hans
      obtain ⟨hfound, hlast⟩ := tryMembers_of_reached hreach hans
      obtain ⟨w, hw, hrole⟩ := h.leads m hfound
      cases hlast.symm.trans hw
      rw [pingLeader_role] at hrole
      exact hrole
    · apply (pingLeader_undisturbed_iff v).mp
      exact h.undisturbed (m, v) ((mem_tryMembers_iff _ _).mpr hreach)
  · intro h
    constructor
    · intro m hfound
      obtain ⟨v, hlast, hans⟩ := tryMembers_found hfound
      have hreach : Reached (client.tour visits) (m, v) :=
        (mem_tryMembers_iff _ _).mp (List.mem_of_getLast? hlast)
      refine ⟨v, hlast, ?_⟩
      rw [pingLeader_role]
      exact (h (m, v) hreach).1 hans
    · intro e hmem
      apply (pingLeader_undisturbed_iff e.2).mpr
      exact (h e ((mem_tryMembers_iff _ _).mp hmem)).2

/-- The probe gets to a follower, and its reply back. -/
def followerVisit (term : ℕ) : Visit MemStorage where
  fate := .answered
  node :=
    { RaftNodeInner.new MemStorage.new with
      sm := { RaftStateMachine.new with currentTerm := term } }

/-- A follower refuses the probe and is taken for the leader; one of term zero names leader
zero afterwards. -/
theorem follower_discovered :
    let client : RaftClusterClient := { members := [4] }
    ((client.findLeader fun _ => followerVisit 3).1 = some 4 ∧
        ¬ Discovers (client.findLeader fun _ => followerVisit 3).1
          (client.findLeader fun _ => followerVisit 3).2.2) ∧
      (probed (followerVisit 0).node).sm.leaderId = some 0 ∧
        ¬ Undisturbed (followerVisit 0).node (probed (followerVisit 0).node) := by
  refine ⟨⟨by decide, ?_⟩, by decide, ?_⟩
  · intro h
    obtain ⟨v, hlast, hrole⟩ := h.leads 4 (by decide)
    have hv : v = followerVisit 3 := (Prod.mk.inj (Option.some.inj hlast)).2.symm
    rw [hv, pingLeader_role] at hrole
    cases hrole
  · intro h
    cases h.leaderId

end RaftClusterClient

end IceRaft
