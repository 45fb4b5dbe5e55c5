import IceRaft.Analysis.CatchUp

/-!
# Where a refusal points to

A follower that refuses a request for a wrong term answers with the first index of the term
it holds there.  The search for it is exact on a log with non-decreasing terms.  Its range
ends at the previous entry of the request, so the leader goes back by at least one entry,
unless that entry is the one of the follower's snapshot.
-/

set_option autoImplicit false

namespace IceRaft

open MemStorage Cluster NodeTurn

/-! ## The search -/

/-- The terms of the log do not decrease. -/
abbrev MemStorage.TermsSorted (s : MemStorage) : Prop := TermLog.Sorted LogEntry.term s.entries

namespace MemStorage

variable {s : MemStorage} {i upper t : ℕ}

/-- Up to an index whose term can be read, the log holds every index. -/
theorem exists_term_of_le (hterm : s.term upper = .ok t) (hlo : s.firstIndex ≤ i)
    (hle : i ≤ upper) : ∃ e, s.entries[i - s.firstIndex]? = some e ∧ s.term i = .ok e.term := by
  have hlen : upper - s.firstIndex < s.entries.length := by
    rw [term_of_firstIndex_le (hlo.trans hle)] at hterm
    unfold termInLog at hterm
    rw [if_neg (Nat.not_lt.mpr (hlo.trans hle))] at hterm
    apply Nat.lt_of_not_le
    intro hend
    rw [List.getElem?_eq_none hend] at hterm
    cases hterm
  have hget := List.getElem?_eq_getElem (l := s.entries) (i := i - s.firstIndex) (by omega)
  refine ⟨_, hget, ?_⟩
  rw [term_of_firstIndex_le hlo]
  unfold termInLog
  rw [if_neg (Nat.not_lt.mpr hlo), hget]

/-- Terms that can be read behind the snapshot do not decrease. -/
theorem TermsSorted.term_le (hsorted : s.TermsSorted) {j u v : ℕ} (hlo : s.firstIndex ≤ i)
    (hij : i ≤ j) (hi : s.term i = .ok u) (hj : s.term j = .ok v) : u ≤ v := by
  obtain ⟨a, ha, hta⟩ := exists_term_of_le hi hlo (Nat.le_refl i)
  obtain ⟨b, hb, htb⟩ := exists_term_of_le hj (hlo.trans hij) (Nat.le_refl j)
  obtain rfl : u = a.term := Except.ok.inj (hi.symm.trans hta)
  obtain rfl : v = b.term := Except.ok.inj (hj.symm.trans htb)
  obtain ⟨hia, rfl⟩ := List.getElem?_eq_some_iff.mp ha
  obtain ⟨hjb, rfl⟩ := List.getElem?_eq_some_iff.mp hb
  rcases Nat.lt_or_eq_of_le hij with hlt | rfl
  · exact List.pairwise_iff_getElem.mp hsorted _ _ hia hjb (by omega)
  · exact Nat.le_refl _

/-- A term that can be read is compared. -/
theorem termBelow_of_term {u : ℕ} (h : s.term i = .ok u) :
    termBelow s t i = decide (u < t) := by
  unfold termBelow
  rw [h]

/-- What lies below the term of an index comes first. -/
theorem TermsSorted.falls (hsorted : s.TermsSorted) (hterm : s.term upper = .ok t) :
    Falls (termBelow s t) s.firstIndex upper := by
  intro i j hlo hij hj hbelow
  obtain ⟨a, -, ha⟩ := exists_term_of_le hterm hlo (hij.trans hj.le)
  obtain ⟨b, -, hb⟩ := exists_term_of_le hterm (hlo.trans hij) hj.le
  have hle := hsorted.term_le hlo hij ha hb
  rw [termBelow_of_term hb, decide_eq_true_eq] at hbelow
  rw [termBelow_of_term ha, decide_eq_true_eq]
  omega

end MemStorage

/-- A follower compacted behind index 4, with two entries of term 2 and two of term 3. -/
def twoTermsFollower : RaftNodeInner MemStorage where
  sm := { currentTerm := 3, leaderId := some 1 }
  storage :=
    { entries := [⟨2, 5, [], .normal⟩, ⟨2, 6, [], .normal⟩, ⟨3, 7, [], .normal⟩,
        ⟨3, 8, [], .normal⟩]
      snapshot := some ⟨[], ⟨4, 1, []⟩⟩ }
  metrics := {}
  pending := []
  snapshotBuf := none

/-- The refusal of a request names an index up to the previous one, and a leader whose next
index for the peer is still the one it sent from goes back. -/
structure RollsBack (req : AppendEntriesRequest) (resp : AppendEntriesResponse) : Prop where
  hint : 1 ≤ resp.conflictIndex ∧ resp.conflictIndex ≤ req.prevLogIndex
  lowers : ∀ (cfg : RaftConfig) (peer : NodeId) (last : ℕ) (leader : RaftNodeInner MemStorage)
    (pr : Progress), leader.sm.role = .leader → resp.term ≤ leader.sm.currentTerm →
    leader.sm.progress.lookup peer = some pr → pr.nextIndex = req.prevLogIndex + 1 →
    ∃ pr', (handleAppendResponse cfg peer last resp (Turn.start leader)).sm.progress.lookup peer =
      some pr' ∧ pr'.nextIndex < pr.nextIndex

/-- The leader sends the requests one after the other, each from its next index, and the
follower refuses them all. -/
def Refusals (cfg : RaftConfig) (peer : NodeId) (leader follower : RaftNodeInner MemStorage) :
    List AppendEntriesRequest → Prop
  | [] => True
  | req :: reqs => ∃ pr resp, leader.sm.role = .leader ∧
    leader.sm.progress.lookup peer = some pr ∧ pr.nextIndex = req.prevLogIndex + 1 ∧
    follower.sm.currentTerm ≤ req.term ∧ req.term ≤ leader.sm.currentTerm ∧
    (onAppendEntries req (Turn.start follower)).1 = .ok resp ∧ resp.success = false ∧
    Refusals cfg peer
      (handleAppendResponse cfg peer (req.prevLogIndex + req.entries.length) resp
        (Turn.start leader)).node
      (onAppendEntries req (Turn.start follower)).2.node reqs

variable {leader follower : RaftNodeInner MemStorage} {req : AppendEntriesRequest}
  {resp : AppendEntriesResponse} {cfg : RaftConfig} {peer : NodeId} {pr : Progress}

/-- What a refusal says, and that the follower is left as it recognises the leader. -/
theorem refusal_eq (hterm : follower.sm.currentTerm ≤ req.term)
    (hresp : (onAppendEntries req (Turn.start follower)).1 = .ok resp)
    (hrefused : resp.success = false) : resp.term = req.term ∧ 1 ≤ resp.conflictIndex ∧
      (resp.conflictIndex ≤ req.prevLogIndex ↔ follower.storage.firstIndex ≤ req.prevLogIndex) ∧
      (onAppendEntries req (Turn.start follower)).2 = recognise req (Turn.start follower) := by
  by_cases hprev : PrevOk follower.storage req
  · have haccepts : Accepts follower req = true := (accepts_iff _ _).mpr ⟨hterm, hprev⟩
    obtain ⟨hok, -⟩ := onAppendEntries_accepted (x := Turn.start follower) haccepts
    obtain rfl := Except.ok.inj (hresp.symm.trans hok)
    cases hrefused
  · obtain ⟨c, t, hpos, -, hiff, hfailed⟩ :=
      onAppendEntries_failed (x := Turn.start follower) hterm hprev
    rw [hfailed] at hresp ⊢
    obtain rfl := Except.ok.inj hresp
    exact ⟨rfl, hpos, hiff, rfl⟩

/-- A hint becomes the next index of the peer. -/
theorem Leading.hinted (cfg : RaftConfig) (hrole : leader.sm.role = .leader)
    (hle : resp.term ≤ leader.sm.currentTerm) (hpr : leader.sm.progress.lookup peer = some pr)
    (hrefused : resp.success = false) (hpos : 1 ≤ resp.conflictIndex) (last : ℕ) :
    Leading leader.storage leader.sm.currentTerm peer { pr with nextIndex := resp.conflictIndex }
      (handleAppendResponse cfg peer last resp (Turn.start leader)).node := by
  have hlead : Leading leader.storage leader.sm.currentTerm peer pr leader :=
    ⟨hrole, rfl, hpr, rfl, rfl⟩
  have hafter : Leading _ _ _ _
      (handleAppendResponse cfg peer last resp (Turn.start leader)).node :=
    Leading.appendResponse cfg hlead hle
  unfold progressAfterAppend at hafter
  rw [if_neg (by rw [hrefused]; exact Bool.false_ne_true),
    if_pos (show resp.conflictIndex > 0 from hpos)] at hafter
  exact hafter

/-- A refusal takes the leader back exactly when the previous entry of the request lies
behind the snapshot of the follower. -/
theorem rollsBack_iff (hterm : follower.sm.currentTerm ≤ req.term)
    (hresp : (onAppendEntries req (Turn.start follower)).1 = .ok resp)
    (hrefused : resp.success = false) :
    RollsBack req resp ↔ follower.storage.firstIndex ≤ req.prevLogIndex := by
  obtain ⟨-, hpos, hiff, -⟩ := refusal_eq hterm hresp hrefused
  constructor
  · intro h
    exact hiff.mp h.hint.2
  · intro hfirst
    have hle := hiff.mpr hfirst
    refine ⟨⟨hpos, hle⟩, ?_⟩
    intro cfg peer last leader pr hrole hterm' hpr hnext
    have hafter := Leading.hinted cfg hrole hterm' hpr hrefused hpos last
    refine ⟨_, hafter.progress, ?_⟩
    rw [hnext]
    exact Nat.lt_succ_of_le hle

/-- A row of refusals is shorter than the next index it begins with. -/
theorem Refusals.length_le {reqs : List AppendEntriesRequest}
    (h : Refusals cfg peer leader follower reqs) (hpr : leader.sm.progress.lookup peer = some pr)
    (hfirst : ∀ req ∈ reqs, follower.storage.firstIndex ≤ req.prevLogIndex) :
    reqs.length ≤ pr.nextIndex - 1 := by
  induction reqs generalizing leader follower pr with
  | nil => exact Nat.zero_le _
  | cons req reqs ih =>
    obtain ⟨pr', resp, hrole, hpr', hnext, hterm, hle, hresp, hrefused, hrest⟩ := h
    obtain rfl : pr = pr' := Option.some.inj (hpr.symm.trans hpr')
    obtain ⟨hresp_term, hpos, hiff, hnode⟩ := refusal_eq hterm hresp hrefused
    have hhint := hiff.mpr (hfirst req List.mem_cons_self)
    have hafter := Leading.hinted cfg hrole (hresp_term.trans_le hle) hpr hrefused hpos
      (req.prevLogIndex + req.entries.length)
    have hsame : (onAppendEntries req (Turn.start follower)).2.node.storage.firstIndex =
        follower.storage.firstIndex := by
      have hz := recognise_contents (x := Turn.start follower) hterm
      rw [hnode, eq_of_log hz.entries hz.snapshot]
      rfl
    have hshort := ih hrest hafter.progress fun r hr => by
      rw [hsame]
      exact hfirst r (List.mem_cons_of_mem _ hr)
    rw [List.length_cons, hnext]
    dsimp only at hshort
    omega

/-- **A refusal takes the leader back, unless it is about the snapshot's own entry.**  The
refusal of a request of the current term or a later one names an index in
`[1, prev_log_index]`, and lowers the next index of a leader that still has the one it sent
from, exactly when `prev_log_index` is not below `first_index`.  A row of refusals of such
requests is bounded by the first of them.
SRCLINE: iceraft-node/src/node.rs:327-342, 711-723, 834-847 -/
theorem refusals_roll_back (follower : RaftNodeInner MemStorage) :
    (∀ (req : AppendEntriesRequest) (resp : AppendEntriesResponse),
      follower.sm.currentTerm ≤ req.term →
      (onAppendEntries req (Turn.start follower)).1 = .ok resp → resp.success = false →
      (RollsBack req resp ↔ follower.storage.firstIndex ≤ req.prevLogIndex)) ∧
    ∀ (cfg : RaftConfig) (peer : NodeId) (leader : RaftNodeInner MemStorage) (pr : Progress)
      (reqs : List AppendEntriesRequest), leader.sm.progress.lookup peer = some pr →
      Refusals cfg peer leader follower reqs →
      (∀ req ∈ reqs, follower.storage.firstIndex ≤ req.prevLogIndex) →
      reqs.length ≤ pr.nextIndex - 1 := by
  constructor
  · intro req resp hterm hresp hrefused
    exact rollsBack_iff hterm hresp hrefused
  · intro cfg peer leader pr reqs hpr h hfirst
    exact h.length_le hpr hfirst

/-- A leader of term 3 whose log has another term at the index of that snapshot; its peers
have the next index `last + 1`. -/
def probingLeader (last : ℕ) : RaftNodeInner MemStorage where
  sm :=
    { currentTerm := 3, role := .leader, leaderId := some 1,
      progress := RaftStateMachine.freshProgress last [3, 2] }
  storage :=
    { entries := [⟨2, 1, [], .normal⟩, ⟨2, 2, [], .normal⟩, ⟨2, 3, [], .normal⟩,
        ⟨2, 4, [], .normal⟩] }
  metrics := {}
  pending := []
  snapshotBuf := none

/-- The hint of this refusal lies below the index asked for, so few refusals suffice. -/
theorem refusals_roll_back_twoTermsFollower :
    (RollsBack ⟨3, 1, 8, 2, [], 0⟩ (reject 7 3 3) ↔ 5 ≤ 8) ∧
      [(⟨3, 1, 8, 2, [], 0⟩ : AppendEntriesRequest)].length ≤ 8 :=
  ⟨(refusals_roll_back twoTermsFollower).1 ⟨3, 1, 8, 2, [], 0⟩ _ (by decide) (by rfl) rfl,
    (refusals_roll_back twoTermsFollower).2 ⟨1, [3, 2], 100, 300, 600, 128⟩ 2 (probingLeader 8)
      ⟨9, 0, false⟩ [⟨3, 1, 8, 2, [], 0⟩] (by decide +kernel)
      ⟨⟨9, 0, false⟩, reject 7 3 3, rfl, by decide +kernel, rfl, by decide, by decide, by rfl, rfl,
        trivial⟩
      (by decide +kernel)⟩

/-- The request about the snapshot's own index is refused with the index behind it, so the
leader sends it again, after every refusal. -/
theorem snapshot_refusal_repeats :
    let req : AppendEntriesRequest := ⟨3, 1, 4, 2, [], 0⟩
    let resp : AppendEntriesResponse := reject 5 1 3
    let round := exchange ⟨1, [3, 2], 100, 300, 600, 128⟩ ⟨2, [1, 3], 100, 300, 600, 128⟩ 2
    twoTermsFollower.storage.Aligned ∧
    (replicateTo ⟨1, [3, 2], 100, 300, 600, 128⟩ 2 (Turn.start (probingLeader 4))).effects =
      [.spawned (.appendEntries 2 4 req)] ∧
    (onAppendEntries req (Turn.start twoTermsFollower)).1 = .ok resp ∧
    ¬ resp.conflictIndex ≤ req.prevLogIndex ∧ ¬ RollsBack req resp ∧
    ∀ k, round^[k] (probingLeader 4, twoTermsFollower) = (probingLeader 4, twoTermsFollower) := by
  refine ⟨by unfold Aligned; decide +kernel, rfl, rfl, by decide, ?_, ?_⟩
  · intro h
    exact absurd h.hint.2 (by decide)
  · intro k
    exact Function.iterate_fixed rfl k

end IceRaft
