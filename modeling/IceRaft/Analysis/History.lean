import IceRaft.Interface.Observations

/-!
# Histories only grow

An activation adds its effects to the history of its process, and a restart adds those
of booting.  So a run in which no term has two leaders at the end has had none with two
leaders on the way.
-/

set_option autoImplicit false

namespace IceRaft

variable {σ : Type} [Storage σ]

/-- What an activation emits is behind what the history was. -/
theorem Process.history_act (cfg : RaftConfig) (input : Input) (crashAt : Option ℕ)
    (p : Process σ) : p.history ++ p.emitted cfg input crashAt <+:
      (p.act cfg input crashAt).history := by
  cases crashAt with
  | none => exact List.prefix_refl _
  | some k => exact List.prefix_append _ _

/-- Booting leaves one line in the history. -/
theorem Process.boot_history (s : σ) : ∃ commit, (Process.boot s).history = [.restored commit] := by
  have hread : (NodeTurn.read Storage.loadHardState
      (Turn.start (RaftNodeInner.new s))).2.effects = [] := rfl
  unfold Process.boot NodeTurn.restore
  dsimp only
  split
  · rename_i hs y heq
    rw [heq] at hread
    exact ⟨_, (Turn.emit_effects _ _).trans (congrArg (· ++ _) hread)⟩
  · rename_i e y heq
    rw [heq] at hread
    exact ⟨_, (Turn.emit_effects _ _).trans (congrArg (· ++ _) hread)⟩

/-- What a history has after an activation it had before, or the activation or a restart added it.
-/
theorem Process.mem_history_act {cfg : RaftConfig} {input : Input} {crashAt : Option ℕ}
    {p : Process σ} {eff : Effect} (h : eff ∈ (p.act cfg input crashAt).history) :
    eff ∈ p.history ∨ eff ∈ p.emitted cfg input crashAt ∨ ∃ commit, eff = .restored commit := by
  cases crashAt with
  | none => exact (List.mem_append.mp h).imp_right .inl
  | some k =>
    obtain ⟨commit, hboot⟩ := Process.boot_history ((p.turn cfg input).cutNode p.node k).storage
    have hhistory : (p.act cfg input (some k)).history =
        p.history ++ p.emitted cfg input (some k) ++ [.restored commit] := by
      rw [← hboot]
      rfl
    rw [hhistory] at h
    rcases List.mem_append.mp h with h | h
    · exact (List.mem_append.mp h).imp_right .inl
    · exact .inr (.inr ⟨commit, List.mem_singleton.mp h⟩)

namespace Cluster

variable {cc : ClusterConfig}

omit [Storage σ] in
/-- Only members are activated. -/
theorem mem_of_input {c : Cluster σ} {e : Action} {i : NodeId} {input : Input}
    (hin : c.input? cc e = some (i, input)) : i ∈ cc.members := by
  cases e with
  | timer j electionDue heartbeatDue =>
    obtain ⟨⟨hj, -⟩, heq⟩ := Option.ite_none_right_eq_some.mp hin
    cases heq
    exact hj
  | client j call =>
    obtain ⟨⟨hj, -⟩, heq⟩ := Option.ite_none_right_eq_some.mp hin
    cases heq
    exact hj
  | ping j =>
    obtain ⟨hj, heq⟩ := Option.ite_none_right_eq_some.mp hin
    cases heq
    exact hj
  | deliver k =>
    unfold input? at hin
    dsimp only at hin
    split at hin
    · obtain ⟨hj, heq⟩ := Option.ite_none_right_eq_some.mp hin
      cases heq
      exact hj
    · obtain ⟨⟨hj, -⟩, heq⟩ := Option.ite_none_right_eq_some.mp hin
      cases heq
      exact hj
    · cases hin
  | duplicate k => cases hin
  | lose k => cases hin

/-- The activated process runs its input. -/
theorem proc_step {c : Cluster σ} {e : Event} {i : NodeId} {input : Input}
    (hin : c.input? cc e.action = some (i, input)) :
    (c.step cc e).proc i = (c.proc i).act (cc.config i) input e.crashAt := by
  unfold step
  rw [hin]
  exact if_pos rfl

/-- Any other process stays as it is. -/
theorem proc_of_idle {c : Cluster σ} {e : Event} {i : NodeId}
    (hidle : ∀ input, c.input? cc e.action ≠ some (i, input)) :
    (c.step cc e).proc i = c.proc i := by
  unfold step
  split
  · rename_i j input hin
    refine if_neg ?_
    rintro rfl
    exact hidle input hin
  · rfl

/-- An event adds to a history. -/
theorem history_step (cc : ClusterConfig) (c : Cluster σ) (e : Event) (i : NodeId) :
    (c.proc i).history <+: ((c.step cc e).proc i).history := by
  unfold step
  cases c.input? cc e.action with
  | none => exact List.prefix_refl _
  | some q =>
    obtain ⟨j, input⟩ := q
    dsimp only [activate]
    split
    · rename_i hij
      subst hij
      exact (List.prefix_append _ _).trans (Process.history_act _ _ _ _)
    · exact List.prefix_refl _

/-- What the activated process emits is part of its history afterwards. -/
theorem mem_history_step {c : Cluster σ} {e : Event} {i : NodeId} {input : Input}
    (hin : c.input? cc e.action = some (i, input)) {eff : Effect}
    (heff : eff ∈ (c.proc i).emitted (cc.config i) input e.crashAt) :
    eff ∈ ((c.step cc e).proc i).history := by
  unfold step
  rw [hin]
  dsimp only [activate]
  rw [if_pos rfl]
  exact (Process.history_act _ _ _ _).subset (List.mem_append_right _ heff)

/-- So does a run. -/
theorem history_exec (cc : ClusterConfig) (c : Cluster σ) (es : List Event) (i : NodeId) :
    (c.proc i).history <+: ((exec cc c es).proc i).history := by
  induction es generalizing c with
  | nil => exact List.prefix_refl _
  | cons e es ih => exact (history_step cc c e i).trans (ih (c.step cc e))

/-- What a history has after an event it had before, or the activation emitted it, or a restart
added it. -/
theorem mem_history_of_step {c : Cluster σ} {e : Event} {i : NodeId} {eff : Effect}
    (h : eff ∈ ((c.step cc e).proc i).history) :
    eff ∈ (c.proc i).history ∨
      (∃ input, c.input? cc e.action = some (i, input) ∧
        eff ∈ (c.proc i).emitted (cc.config i) input e.crashAt) ∨
      ∃ commit, eff = .restored commit := by
  cases hin : c.input? cc e.action with
  | none =>
    unfold step at h
    rw [hin] at h
    exact .inl h
  | some q =>
    obtain ⟨j, input⟩ := q
    by_cases hij : i = j
    · subst hij
      rw [proc_step hin] at h
      rcases Process.mem_history_act h with hold | hnew | hboot
      · exact .inl hold
      · exact .inr (.inl ⟨input, rfl, hnew⟩)
      · exact .inr (.inr hboot)
    · unfold step at h
      rw [hin] at h
      dsimp only [activate] at h
      rw [if_neg hij] at h
      exact .inl h

omit [Storage σ] in
/-- Two leaders of one term stay on record. -/
theorem UniqueLeaders.of_grown {c c' : Cluster σ} (h : c'.UniqueLeaders cc)
    (hgrown : ∀ i, (c.proc i).history <+: (c'.proc i).history) : c.UniqueLeaders cc := by
  intro i hi j hj term hled hled'
  refine h i hi j hj term ?_ ?_
  · exact mem_leaderships.mpr ((hgrown i).subset (mem_leaderships.mp hled))
  · exact mem_leaderships.mpr ((hgrown j).subset (mem_leaderships.mp hled'))

/-- Unique leaders at the end are unique leaders after every step. -/
theorem UniqueLeaders.within {c : Cluster σ} {es : List Event}
    (h : (exec cc c es).UniqueLeaders cc) :
    Runs.Within (step cc) (fun c e => (c.step cc e).UniqueLeaders cc) c es := by
  induction es generalizing c with
  | nil => trivial
  | cons e es ih =>
    exact ⟨h.of_grown fun i => history_exec cc (c.step cc e) es i, ih h⟩

end Cluster

end IceRaft
