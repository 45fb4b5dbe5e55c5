import IceRaft.Model.Node

/-!
# The progress map

What a look-up finds after the map was built or updated, which nodes stand behind the
count that `maybe_advance_commit` compares with the quorum, and which proposals it leaves
waiting.
-/

set_option autoImplicit false

namespace IceRaft

namespace RaftStateMachine

/-- The map of a new leader holds the fresh progress of its peers. -/
theorem freshProgress_lookup {last : ℕ} {peers : List NodeId} {j : NodeId} {pr : Progress}
    (h : (freshProgress last peers).lookup j = some pr) :
    j ∈ peers ∧ pr = Progress.new (last + 1) := by
  have hfold : ∀ (l : List NodeId) (m : ProgressMap),
      (∀ pr, m.lookup j = some pr → j ∈ peers ∧ pr = Progress.new (last + 1)) →
      (∀ k ∈ l, k ∈ peers) →
      ∀ pr, (l.foldl (fun m peer => m.insert peer (Progress.new (last + 1))) m).lookup j = some pr →
        j ∈ peers ∧ pr = Progress.new (last + 1) := by
    intro l
    induction l with
    | nil => exact fun m hm _ => hm
    | cons k l ih =>
      intro m hm hl
      refine ih _ ?_ (fun k' hk' => hl k' (List.mem_cons_of_mem _ hk'))
      intro pr hpr
      by_cases hjk : j = k
      · subst hjk
        rw [AList.lookup_insert] at hpr
        exact ⟨hl j List.mem_cons_self, (Option.some.inj hpr).symm⟩
      · rw [AList.lookup_insert_ne hjk] at hpr
        exact hm pr hpr
  exact hfold peers ∅ (by simp) (fun k hk => hk) pr h

/-- The peers that hold index `n`, as the leader knows. -/
def holders (sm : RaftStateMachine) (n : ℕ) : Finset NodeId :=
  ((sm.progress.entries.filter fun e => decide (e.2.matchIndex ≥ n)).map Sigma.fst).toFinset

/-- The holders of an index are the peers that have acknowledged it. -/
theorem mem_holders_iff {sm : RaftStateMachine} {n : ℕ} {j : NodeId} :
    j ∈ sm.holders n ↔ ∃ pr, sm.progress.lookup j = some pr ∧ n ≤ pr.matchIndex := by
  rw [holders, List.mem_toFinset, List.mem_map]
  constructor
  · rintro ⟨e, he, rfl⟩
    obtain ⟨hmem, hn⟩ := List.mem_filter.mp he
    exact ⟨e.2, AList.mem_lookup_iff.mpr hmem, of_decide_eq_true hn⟩
  · rintro ⟨pr, hpr, hn⟩
    refine ⟨⟨j, pr⟩, List.mem_filter.mpr ⟨?_, decide_eq_true hn⟩, rfl⟩
    exact AList.mem_lookup_iff.mp hpr

/-- The count of `maybe_advance_commit` is that of the holders and the leader. -/
theorem replicated_eq (sm : RaftStateMachine) (n : ℕ) :
    sm.replicated n = (sm.holders n).card + 1 := by
  have hnodup : ((sm.progress.entries.filter fun e =>
      decide (e.2.matchIndex ≥ n)).map Sigma.fst).Nodup :=
    List.Nodup.sublist (List.Sublist.map _ List.filter_sublist) sm.progress.nodupKeys
  rw [replicated, holders, List.toFinset_card_of_nodup hnodup, List.length_map,
    ProgressMap.values, List.countP_map, List.countP_eq_length_filter]
  rfl

/-- A leader that is not among them is counted once. -/
theorem replicated_eq_card {sm : RaftStateMachine} {n : ℕ} {i : NodeId}
    (hi : i ∉ sm.holders n) : sm.replicated n = (insert i (sm.holders n)).card := by
  rw [Finset.card_insert_of_notMem hi, replicated_eq]

end RaftStateMachine

namespace NodeTurn

/-- An update moves the progress of its peer alone. -/
theorem updateProgress_lookup {sm : RaftStateMachine} {peer j : NodeId} {f : Progress → Progress}
    {pr : Progress} (h : (updateProgress peer f sm).progress.lookup j = some pr) :
    sm.progress.lookup j = some pr ∨
      (j = peer ∧ ∃ old, sm.progress.lookup j = some old ∧ pr = f old) := by
  unfold updateProgress at h
  cases hp : sm.progress.lookup peer with
  | none =>
    rw [hp] at h
    exact .inl h
  | some old =>
    rw [hp] at h
    dsimp only at h
    by_cases hj : j = peer
    · subst hj
      rw [AList.lookup_insert] at h
      exact .inr ⟨rfl, old, hp, (Option.some.inj h).symm⟩
    · rw [AList.lookup_insert_ne hj] at h
      exact .inl h

/-- An AppendEntries response leaves the next index positive. -/
theorem one_le_progressAfterAppend (last : ℕ) (resp : AppendEntriesResponse) (p : Progress) :
    1 ≤ (progressAfterAppend last resp p).nextIndex := by
  unfold progressAfterAppend
  split
  · exact Nat.succ_le_succ (Nat.zero_le _)
  · split
    · assumption
    · exact Nat.le_max_right _ _

/-- The next index behind a snapshot is positive. -/
theorem one_le_progressAfterSnapshot (last : ℕ) (p : Progress) :
    1 ≤ (progressAfterSnapshot last p).nextIndex := Nat.succ_pos _

/-- Everything but the progress map stays. -/
theorem updateProgress_eq (peer : NodeId) (f : Progress → Progress) (sm : RaftStateMachine) :
    ∃ m, updateProgress peer f sm = { sm with progress := m } := by
  unfold updateProgress
  split
  · exact ⟨_, rfl⟩
  · exact ⟨sm.progress, rfl⟩

/-- Notification keeps those waiting that the commit index has not reached, and changes
nothing else in the node. -/
theorem notifyPending_node {σ : Type} (x : NodeTurn σ) : x.notifyPending.node =
    { x.node with
      pending := x.node.pending.filter fun w => decide (x.sm.commitIndex < w.1) } := by
  have hfold : ∀ (l : List (ℕ × Sender)) (commit : ℕ) (y : NodeTurn σ),
      (l.foldl (notifyOne commit) y).node = { y.node with
        pending := y.node.pending ++ l.filter fun w => decide (commit < w.1) } := by
    intro l commit
    induction l with
    | nil =>
      intro y
      rw [List.filter_nil, List.append_nil]
      rfl
    | cons w l ih =>
      intro y
      rw [List.foldl_cons, ih]
      unfold notifyOne
      split
      · rename_i hle
        rw [List.filter_cons_of_neg (by rw [decide_eq_true_eq]; omega)]
        rfl
      · rename_i hlt
        rw [List.filter_cons_of_pos (by rw [decide_eq_true_eq]; omega), List.append_cons]
        rfl
  exact hfold x.node.pending x.sm.commitIndex (x.update fun n => { n with pending := [] })

end NodeTurn

end IceRaft
