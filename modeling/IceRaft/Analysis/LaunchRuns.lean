import IceRaft.Model.Launch

/-!
# Restores that come first

Where no handler runs before the restore block, the window at the start of an uptime is empty,
and the run is one of a cluster whose processes boot in one step.  What is proved of such
clusters is carried over by this.
-/

set_option autoImplicit false

namespace IceRaft

namespace LaunchedCluster

variable {σ : Type} [Storage σ] {cc : ClusterConfig} {cond : Cluster.Condition σ}

/-- The cluster in which every process has restored. -/
def settled (L : LaunchedCluster σ) : Cluster σ where
  proc := fun i => if L.restored i then L.cluster.proc i else (L.cluster.proc i).restore
  net := L.cluster.net
  nextSender := L.cluster.nextSender

/-- A restored process is there as it is. -/
theorem settled_proc {L : LaunchedCluster σ} {i : NodeId} (h : L.restored i = true) :
    L.settled.proc i = L.cluster.proc i := if_pos h

/-- A start is settled by a boot. -/
theorem settled_init (stores : NodeId → σ) :
    (init stores).settled = Cluster.init stores := rfl

omit [Storage σ] in
/-- Whether an action activates a process is up to the network and to that process. -/
theorem input?_eq {c d : Cluster σ} {a : Action} {i : NodeId} {input : Input}
    (hnet : d.net = c.net) (hsender : d.nextSender = c.nextSender) (hproc : d.proc i = c.proc i)
    (h : c.input? cc a = some (i, input)) : d.input? cc a = some (i, input) := by
  cases a with
  | timer j electionDue heartbeatDue =>
    obtain ⟨hj, heq⟩ := Option.ite_none_right_eq_some.mp h
    cases heq
    unfold Cluster.input?
    dsimp only
    rw [hproc, if_pos hj]
  | client j call =>
    obtain ⟨hj, heq⟩ := Option.ite_none_right_eq_some.mp h
    cases heq
    unfold Cluster.input?
    dsimp only
    rw [hproc, hsender, if_pos hj]
  | ping j => exact h
  | deliver k =>
    unfold Cluster.input? at h ⊢
    rw [hnet]
    dsimp only at h ⊢
    cases hk : c.net[k]? with
    | none =>
      rw [hk] at h
      cases h
    | some p =>
      rw [hk] at h
      cases p with
      | request src waiting task => exact h
      | response dst msg =>
        obtain ⟨hj, heq⟩ := Option.ite_none_right_eq_some.mp h
        cases heq
        dsimp only
        rw [hproc, if_pos hj]
  | duplicate k => cases h
  | lose k => cases h

/-- An event that activates a restored process does the same where all have restored. -/
theorem settled_activate {L : LaunchedCluster σ} {e : Event} {i : NodeId} {input : Input}
    (hrestored : L.restored i = true) :
    (L.activate cc i input e).settled = L.settled.activate cc i input e := by
  have hproc := settled_proc hrestored
  have hadded : L.settled.added cc i input e = L.cluster.added cc i input e := by
    unfold Cluster.added
    rw [hproc]
    rfl
  have hprocs : (L.activate cc i input e).settled.proc =
      (L.settled.activate cc i input e).proc := by
    funext j
    unfold settled activate Cluster.activate
    dsimp only
    by_cases hj : j = i
    · subst hj
      simp only [if_true, hrestored, Bool.true_and]
      cases e.crashAt with
      | none => rfl
      | some k => rfl
    · simp only [hj, if_false]
  unfold Cluster.activate
  rw [hadded]
  show Cluster.mk (L.activate cc i input e).settled.proc _ _ = _
  rw [hprocs]
  rfl

/-- A restore is no event where all processes have restored. -/
theorem settled_restore (L : LaunchedCluster σ) (i : NodeId) :
    (L.step cc (.restore i)).settled = L.settled := by
  unfold step
  dsimp only
  split
  · rfl
  · rename_i hnot
    have hproc : ∀ j, (if (if j = i then true else L.restored j) = true then
        (if j = i then (L.cluster.proc i).restore else L.cluster.proc j)
        else (if j = i then (L.cluster.proc i).restore else L.cluster.proc j).restore) =
        L.settled.proc j := by
      intro j
      by_cases hj : j = i
      · subst hj
        simp only [if_true]
        exact (if_neg hnot).symm
      · simp only [hj, if_false]
        rfl
    exact congrArg (Cluster.mk · L.cluster.net L.cluster.nextSender) (funext hproc)

/-- An event that activates nobody only touches the network. -/
theorem settled_idle {L : LaunchedCluster σ} {e : Event}
    (hin : L.cluster.input? cc e.action = none) : (L.step cc (.event e)).settled =
      { L.settled with net := L.cluster.netAfter e.action } := by
  unfold step
  dsimp only
  rw [hin]
  rfl

/-- One event, and what it is where all processes have restored. -/
theorem settled_step {L : LaunchedCluster σ} {e : LaunchEvent} (h : L.Meets cc cond e) :
    ∃ es, (L.step cc e).settled = Cluster.exec cc L.settled es ∧
      Cluster.Within cc cond L.settled es := by
  cases e with
  | restore i => exact ⟨[], settled_restore L i, trivial⟩
  | event e =>
    cases hin : L.cluster.input? cc e.action with
    | some q =>
      obtain ⟨i, input⟩ := q
      unfold Meets at h
      dsimp only at h
      rw [hin] at h
      obtain ⟨hrestored, hcond⟩ := h
      have hproc := settled_proc hrestored
      have hin' : L.settled.input? cc e.action = some (i, input) :=
        input?_eq (c := L.cluster) rfl rfl hproc hin
      refine ⟨[e], ?_, ?_, trivial⟩
      · show (L.step cc (.event e)).settled = L.settled.step cc e
        unfold step Cluster.step
        dsimp only
        rw [hin, hin']
        exact settled_activate hrestored
      · unfold Cluster.Meets
        rw [hin']
        dsimp only
        rw [hproc]
        exact hcond
    | none =>
      rw [settled_idle hin]
      -- a packet for a process that does not listen yet is lost
      cases ha : e.action with
      | timer j electionDue heartbeatDue => exact ⟨[], rfl, trivial⟩
      | client j call => exact ⟨[], rfl, trivial⟩
      | ping j => exact ⟨[], rfl, trivial⟩
      | deliver k => exact ⟨[⟨.lose k, none⟩], rfl, trivial, trivial⟩
      | duplicate k => exact ⟨[⟨.duplicate k, none⟩], rfl, trivial, trivial⟩
      | lose k => exact ⟨[⟨.lose k, none⟩], rfl, trivial, trivial⟩

/-- **A restore that comes first is part of the start.**  A run in which no handler runs on a
process that has not restored has beside it a run of the cluster whose processes boot at once,
under the same condition; the two end alike, up to the restores that are still to come. -/
theorem settled_run {stores : NodeId → σ} {es : List LaunchEvent}
    (h : Within cc cond (init stores) es) :
    ∃ es', (exec cc (init stores) es).settled = Cluster.exec cc (Cluster.init stores) es' ∧
      Cluster.Within cc cond (Cluster.init stores) es' := by
  rw [← settled_init stores]
  exact h.mirrored settled fun _ _ => settled_step

/-- In such a run a process that has not restored has done nothing. -/
theorem untouched {stores : NodeId → σ} {es : List LaunchEvent}
    (h : Within cc cond (init stores) es) {i : NodeId}
    (hnot : (exec cc (init stores) es).restored i = false) :
    ∃ s, ((exec cc (init stores) es).cluster.proc i).node = .new s := by
  revert i
  refine Runs.invariant (fun L : LaunchedCluster σ => ∀ {i}, L.restored i = false →
    ∃ s, (L.cluster.proc i).node = .new s) ?_ (fun _ => ⟨_, rfl⟩) h
  intro L e hL hmeets i hnot
  cases e with
  | restore j =>
    unfold step at hnot ⊢
    dsimp only at hnot ⊢
    split at hnot
    · rename_i hdone
      rw [if_pos hdone]
      exact hL hnot
    · rename_i hundone
      rw [if_neg hundone]
      dsimp only at hnot ⊢
      split at hnot
      · cases hnot
      · rename_i hij
        rw [if_neg hij]
        exact hL hnot
  | event e =>
    unfold Meets at hmeets
    unfold step at hnot ⊢
    dsimp only at hmeets hnot ⊢
    cases hin : L.cluster.input? cc e.action with
    | none =>
      rw [hin] at hnot
      exact hL hnot
    | some q =>
      obtain ⟨j, input⟩ := q
      rw [hin] at hmeets hnot
      dsimp only [activate] at hmeets hnot ⊢
      split at hnot
      · rename_i hij
        rw [hmeets.1] at hnot
        rw [if_pos hij]
        cases hcrash : e.crashAt with
        | none =>
          rw [hcrash] at hnot
          cases hnot
        | some k => exact ⟨_, rfl⟩
      · rename_i hij
        rw [if_neg hij]
        exact hL hnot

end LaunchedCluster

end IceRaft
