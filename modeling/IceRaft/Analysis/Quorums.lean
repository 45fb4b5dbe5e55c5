import IceRaft.Analysis.RoleState
import IceRaft.Model.Cluster

/-!
# Quorums of different nodes

A leader counts the values of its progress map and itself, a candidate counts a set of voters,
and each compares with a threshold that it takes from the length of its own list of peers.
The keys of the progress map are peers, so all of it is about sets of members.
-/

set_option autoImplicit false

namespace IceRaft

/-- Only peers have progress: `become_leader` enters them, and an update enters nobody. -/
def FollowsPeers (cfg : RaftConfig) (sm : RaftStateMachine) : Prop :=
  ∀ j ∈ sm.progress, j ∈ cfg.peers

variable {cfg : RaftConfig} {sm : RaftStateMachine}

/-- The holders of an index are peers. -/
theorem FollowsPeers.mem_peers (h : FollowsPeers cfg sm) {n : ℕ} {j : NodeId}
    (hj : j ∈ sm.holders n) : j ∈ cfg.peers := by
  obtain ⟨pr, hpr, -⟩ := RaftStateMachine.mem_holders_iff.mp hj
  apply h
  rw [← AList.lookup_isSome, hpr]
  rfl

/-- The leader and the holders of an index are members. -/
theorem FollowsPeers.stored_subset (h : FollowsPeers cfg sm) (n : ℕ) :
    insert cfg.id (sm.holders n) ⊆ cfg.members := by
  apply Finset.insert_subset_insert
  intro j hj
  exact List.mem_toFinset.mpr (h.mem_peers hj)

/-- Every move keeps the keys among the peers, whoever sends the responses. -/
theorem FollowsPeers.move {input : Input} {m m' : Volatile} (hmove : Move cfg input m m')
    (h : FollowsPeers cfg m.sm) : FollowsPeers cfg m'.sm := by
  cases hmove with
  | stepDown leader hinput hterm =>
    intro j hj
    exact absurd hj (AList.notMem_empty j)
  | lead last hrole hquorum =>
    intro j hj
    exact (mem_freshProgress last cfg.peers j).mp hj
  | progress peer f hrole hf =>
    intro j hj
    exact h j ((mem_updateProgress peer f m.sm j).mp hj)
  | _ => exact h

variable {σ : Type} [Storage σ]

/-- In every run a node counts its peers and no others. -/
theorem followsPeers_run (cfg : RaftConfig) (s : σ) (es : List (Input × Option ℕ)) :
    FollowsPeers cfg ((Process.boot s).exec cfg es).node.sm := by
  have hboot (s : σ) : FollowsPeers cfg (Process.boot s).node.volatile.sm := by
    obtain ⟨term, vote, commit, hmem⟩ := Process.boot_volatile s
    rw [hmem]
    intro j hj
    exact absurd hj (AList.notMem_empty j)
  exact Process.invariant_of_moves (I := fun m => FollowsPeers cfg m.sm) hboot
    (fun _ _ _ (_ : True) hmove h => h.move hmove) s es fun _ _ => trivial

/-- **Commit and vote quorums intersect.**  For any configurations with the same members, in
which nobody is its own peer: when the count of `maybe_advance_commit` for an index reaches the
quorum of one node, and a set of voters that of another, a voter is that leader or a peer
whose match index has got there.  Only peers have progress in any run of a node.
SRCLINE: iceraft-core/src/lib.rs:83-93, iceraft-node/src/node.rs:679-694, 758-779,
iceraft-node/src/state.rs:95-104 -/
theorem quorums_intersect {ι : Type} {config : ι → RaftConfig}
    (hmembers : ∀ i j, (config i).members = (config j).members)
    (hself : ∀ i, (config i).id ∉ (config i).peers) (i : ι) :
    (∀ j (sm : RaftStateMachine) (n : ℕ) (votesReceived : Finset NodeId),
      FollowsPeers (config i) sm → (config i).quorum ≤ sm.replicated n →
      votesReceived ⊆ (config j).members → (config j).quorum ≤ votesReceived.card →
      ∃ v ∈ votesReceived, v ∈ (config i).members ∧
        (v = (config i).id ∨ ∃ pr, sm.progress.lookup v = some pr ∧ n ≤ pr.matchIndex)) ∧
    ∀ (s : σ) (es : List (Input × Option ℕ)),
      FollowsPeers (config i) ((Process.boot s).exec (config i) es).node.sm := by
  constructor
  · intro j sm n votesReceived hpeers hcommit hvotes hquorum
    have hleader : (config i).id ∉ sm.holders n := fun hmem => hself i (hpeers.mem_peers hmem)
    rw [RaftStateMachine.replicated_eq_card hleader] at hcommit
    obtain ⟨v, hstored, hvote⟩ := RaftConfig.quorum_inter (hmembers i j)
      (hpeers.stored_subset n) hvotes hcommit hquorum
    refine ⟨v, hvote, hpeers.stored_subset n hstored, ?_⟩
    rcases Finset.mem_insert.mp hstored with hself | hholder
    · exact .inl hself
    · exact .inr (RaftStateMachine.mem_holders_iff.mp hholder)
  · exact followsPeers_run (config i)

/-- Three nodes; node 1 lists a peer twice. -/
def repeatedPeers : Fin 3 → RaftConfig
  | 0 => { id := 1, peers := [2, 3, 2] }
  | 1 => { id := 2, peers := [1, 3] }
  | 2 => { id := 3, peers := [2, 1] }

/-- Node 1 leads, and both peers hold index 4. -/
def fullyAcked : RaftStateMachine :=
  let elected := RaftStateMachine.new.becomeLeader 1 4 [2, 3, 2]
  NodeTurn.updateProgress 3 (NodeTurn.progressAfterSnapshot 4)
    (NodeTurn.updateProgress 2 (NodeTurn.progressAfterSnapshot 4) elected)

/-- A peer that is listed twice counts twice for the size, and the quorums meet all the same. -/
theorem quorums_intersect_repeatedPeers :
    (repeatedPeers 0).quorum = 3 ∧ fullyAcked.replicated 4 = 3 ∧
      ∃ v ∈ ({1, 2} : Finset NodeId), v ∈ (repeatedPeers 0).members ∧
        (v = 1 ∨ ∃ pr, fullyAcked.progress.lookup v = some pr ∧ 4 ≤ pr.matchIndex) := by
  have hmembers : ∀ i j, (repeatedPeers i).members = (repeatedPeers j).members := by decide
  refine ⟨by decide, by decide, ?_⟩
  apply (quorums_intersect (σ := MemStorage) hmembers (by decide) 0).1 1
  · unfold FollowsPeers
    decide
  · decide
  · decide
  · decide

end IceRaft
