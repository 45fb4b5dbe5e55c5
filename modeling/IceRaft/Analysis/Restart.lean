import IceRaft.Analysis.VoteDurability
import IceRaft.Model.Launch

/-!
# A restart forgets nothing but the vote for node 0

Over a storage that accepts every save, every change of the term, the vote and the commit
index is saved in the turn that makes it.  A restart decodes what was saved, and only a vote
for the id 0, which is the code of no vote, does not come back.  Before the restore block of an
uptime the memory is empty, and what was saved before need not be what it says.
-/

set_option autoImplicit false

namespace IceRaft

open DurableHardState

variable {σ : Type} [Storage σ] [DurableHardState σ]

/-! ## Memory and disk -/

/-- The persisted hard state is the one in memory. -/
def HardSaved (n : RaftNodeInner σ) : Prop := persisted n.storage = n.hardState

/-- A relation of the hard state in memory to the one on disk. -/
def Related (P : HardState → HardState → Prop) (n : RaftNodeInner σ) : Prop :=
  P n.hardState (persisted n.storage)

/-- A read of the storage changes neither. -/
theorem Related.read {P : HardState → HardState → Prop} {n : RaftNodeInner σ} {s : σ}
    (hs : persisted s = persisted n.storage) (h : Related P n) : Related P (n.setStorage s) := by
  show P n.hardState (persisted s)
  rw [hs]
  exact h

/-- A save makes them the same. -/
theorem Related.persist {P : HardState → HardState → Prop} (hP : ∀ hs, P hs hs)
    (n : RaftNodeInner σ) : Related P n.persist := by
  show P n.hardState (persisted (Storage.saveHardState n.hardState n.storage).2)
  rw [persisted_save]
  exact hP _

/-- No step of a turn loses a relation that holds when the two are the same. -/
theorem fullFrame_related (cfg : RaftConfig) {P : HardState → HardState → Prop}
    (hP : ∀ hs, P hs hs) : FullFrame cfg
    (fun n n' : RaftNodeInner σ => Related P n → Related P n') fun _ => True where
  refl _ h := h
  trans h h' hn := h' (h hn)
  routine _ _ := trivial
  unapplied _ _ := trivial
  rest _ _ _ _ h := h
  progress _ _ h := h
  count _ _ h := h
  lead _ _ h := h
  indices _ _ _ _ _ := .persist hP _
  stepDown _ _ _ _ := .persist hP _
  grant _ _ _ := .persist hP _
  stand _ _ := .persist hP _
  firstIndex n h := h.read (persisted_firstIndex n.storage)
  lastIndex n h := h.read (persisted_lastIndex n.storage)
  term i n h := h.read (persisted_term i n.storage)
  entries lo hi max n h := h.read (persisted_entries lo hi max n.storage)
  snapshot n h := h.read (persisted_snapshot n.storage)
  appendEntries es n h := h.read (persisted_append es n.storage)
  applySnapshot snap n h := h.read (persisted_applySnapshot snap n.storage)

/-- Whatever the input, the relation holds when the turn is over. -/
theorem Related.run {P : HardState → HardState → Prop} (hP : ∀ hs, P hs hs)
    {n : RaftNodeInner σ} (h : Related P n) (cfg : RaftConfig) (input : Input) :
    Related P (NodeTurn.run cfg input (Turn.start n)).node := by
  have hF := fullFrame_related (σ := σ) cfg hP
  obtain ⟨y, hy, heq | heq⟩ := hF.run_or_apply input (Turn.start n)
    fun req _ => hF.heed (fun _ _ h => h) req _
  · rw [heq]
    exact hy.node h
  · rw [heq]
    have happly := hF.applyCommitted (fun _ _ h => h) (fun _ => trivial) y
    exact happly.node (hy.node h)

/-- What the restore block makes of the persisted hard state. -/
theorem restore_hardState (p : Process σ) : p.restore.node.sm =
    { p.node.sm with
      currentTerm := (persisted p.node.storage).term,
      votedFor := if (persisted p.node.storage).vote = 0 then none
        else some (persisted p.node.storage).vote,
      commitIndex := (persisted p.node.storage).commit,
      lastApplied := (persisted p.node.storage).commit } ∧
    persisted p.restore.node.storage = persisted p.node.storage := by
  have hload : Storage.loadHardState p.node.storage =
      (.ok (persisted p.node.storage), (Storage.loadHardState p.node.storage).2) :=
    Prod.ext (load_ok _) rfl
  unfold Process.restore NodeTurn.restore NodeTurn.read
  rw [show (Turn.start p.node : NodeTurn σ).node.storage = p.node.storage from rfl, hload]
  exact ⟨rfl, persisted_load _⟩

/-- Behind the restore block memory and disk agree. -/
theorem hardSaved_restore (p : Process σ) : HardSaved p.restore.node := by
  obtain ⟨hsm, hdisk⟩ := restore_hardState p
  unfold HardSaved RaftNodeInner.hardState
  rw [hdisk, hsm]
  dsimp only
  split
  · rename_i hzero
    rw [← hzero]
    rfl
  · rfl

/-! ## Runs -/

/-- What is known of a process at any time: it has memory and disk the same once it has
restored, and before that unless the memory is still empty. -/
structure Launch.Consistent (L : Launch σ) : Prop where
  restored : L.restored = true → HardSaved L.process.node
  unrestored : HardSaved L.process.node ∨ L.process.node.hardState = {}

/-- One step. -/
theorem Launch.Consistent.step {L : Launch σ} (h : L.Consistent) (cfg : RaftConfig)
    (e : LaunchStep) : (L.step cfg e).Consistent := by
  cases e with
  | restore =>
    unfold Launch.step
    dsimp only
    split
    · exact h
    · have hsaved := hardSaved_restore L.process
      exact ⟨fun _ => hsaved, .inl hsaved⟩
  | run input crashAt =>
    unfold Launch.step
    dsimp only
    split
    · cases crashAt with
      | none =>
        refine ⟨fun hrestored => ?_, ?_⟩
        · have hsaved := h.restored (by simpa using hrestored)
          exact Related.run (P := fun mem disk => disk = mem) (fun _ => rfl) hsaved cfg input
        · exact Related.run (P := fun mem disk => disk = mem ∨ mem = {}) (fun _ => .inl rfl)
            h.unrestored cfg input
      | some k =>
        refine ⟨fun hrestored => ?_, .inr rfl⟩
        rw [Option.isNone_some, Bool.and_false] at hrestored
        cases hrestored
    · exact h

/-- A run. -/
theorem Launch.consistent_exec (cfg : RaftConfig) (s : σ) (es : List LaunchStep) :
    (Launch.exec cfg (Launch.init s) es).Consistent := by
  have hstart : (Launch.init s).Consistent := by
    refine ⟨fun h => ?_, .inr rfl⟩
    cases h
  have hall : Runs.Within (Launch.step cfg) (fun _ _ => True) (Launch.init s) es :=
    Runs.within_of_forall fun _ _ => trivial
  exact Runs.invariant Launch.Consistent (fun L e h _ => h.step cfg e) hstart hall

/-- A restart gives back the three fields exactly when memory and disk agree and the vote is not
one for the id 0. -/
theorem restart_same_iff (n : RaftNodeInner σ) :
    ((Process.start n.storage).restore.node.sm.currentTerm = n.sm.currentTerm ∧
      (Process.start n.storage).restore.node.sm.votedFor = n.sm.votedFor ∧
      (Process.start n.storage).restore.node.sm.commitIndex = n.sm.commitIndex) ↔
      n.sm.votedFor ≠ some 0 ∧ HardSaved n := by
  obtain ⟨hsm, -⟩ := restore_hardState (Process.start n.storage)
  rw [hsm]
  show ((persisted n.storage).term = n.sm.currentTerm ∧
      (if (persisted n.storage).vote = 0 then none else some (persisted n.storage).vote) =
        n.sm.votedFor ∧ (persisted n.storage).commit = n.sm.commitIndex) ↔ _
  unfold HardSaved RaftNodeInner.hardState
  generalize persisted n.storage = hs
  obtain ⟨t, v, c⟩ := hs
  constructor
  · rintro ⟨rfl, hvote, rfl⟩
    dsimp only at hvote
    rw [← hvote]
    refine ⟨fun hzero => ?_, ?_⟩
    · split at hzero
      · cases hzero
      · rename_i hne
        exact hne (Option.some.inj hzero)
    · split
      · rename_i hzero
        rw [hzero]
        rfl
      · rfl
  · rintro ⟨hnonzero, hsame⟩
    injection hsame with hterm hvote hcommit
    refine ⟨hterm, ?_, hcommit⟩
    dsimp only
    rw [hvote]
    exact decode_vote hnonzero

/-- **A restart is transparent but for a vote for node 0, and for a window in which nothing has
been saved.**  In every state of every run of a process over a storage that accepts every save,
a crash and a restart on the same storage give back the term, the vote and the commit index
exactly when the vote is not one for the id 0, and the restore block of this uptime has run, or
what is in memory or on disk makes up for it: some handler has put a term, a vote or a commit
index into the empty memory, or there is none on disk.  Once the restore block has run, term and
commit index come back in any case.
SRCLINE: iceraft-node/src/node.rs:98-104, 160-207, 822-832, iceraft-core/src/lib.rs:67-81 -/
theorem restart_transparent_iff (cfg : RaftConfig) (s : σ) (es : List LaunchStep) :
    let L := Launch.exec cfg (Launch.init s) es
    let before := L.process.node
    let after := (Process.start before.storage).restore.node
    (after.sm.currentTerm = before.sm.currentTerm ∧ after.sm.votedFor = before.sm.votedFor ∧
      after.sm.commitIndex = before.sm.commitIndex ↔ before.sm.votedFor ≠ some 0 ∧
        (L.restored = true ∨ before.hardState ≠ {} ∨ persisted before.storage = {})) ∧
    (L.restored = true → after.sm.currentTerm = before.sm.currentTerm ∧
      after.sm.commitIndex = before.sm.commitIndex) := by
  intro L before after
  have hL : L.Consistent := Launch.consistent_exec cfg s es
  have hsaved : HardSaved before ↔
      L.restored = true ∨ before.hardState ≠ {} ∨ persisted before.storage = {} := by
    constructor
    · intro h
      by_cases hnew : before.hardState = {}
      · exact .inr (.inr (h.trans hnew))
      · exact .inr (.inl hnew)
    · rintro (hrestored | hused | hnone)
      · exact hL.restored hrestored
      · exact hL.unrestored.resolve_right hused
      · exact hL.unrestored.elim id fun hnew => hnone.trans hnew.symm
  rw [← hsaved]
  refine ⟨restart_same_iff before, fun hrestored => ?_⟩
  have hdisk : persisted before.storage = before.hardState := hL.restored hrestored
  obtain ⟨hsm, -⟩ := restore_hardState (Process.start before.storage)
  rw [show (Process.start before.storage).node.storage = before.storage from rfl, hdisk] at hsm
  exact ⟨(congrArg RaftStateMachine.currentTerm hsm).trans rfl,
    (congrArg RaftStateMachine.commitIndex hsm).trans rfl⟩

/-- A node that has restored and is asked for its vote by the node with the id 0. -/
def voteForZero : List LaunchStep := [.restore, .run (.requestVote ⟨1, 0, 0, 0, false⟩) none]

/-- The probe of a client, before the restore block. -/
def probedEarly : List LaunchStep := [.run (.appendEntries ⟨0, 0, 0, 0, [], 0⟩) none]

/-- The first grants the vote, and a restart forgets it.  The second is over a storage with a vote
for node 2 in term 5: the memory is empty behind it, and a restart brings the vote back. -/
theorem restart_forgets_vote :
    let cfg : RaftConfig := { id := 2, peers := [0, 1] }
    let before := (Launch.exec cfg (Launch.init MemStorage.new) voteForZero).process.node
    let after := (Process.start before.storage).restore.node
    let probed :=
      (Launch.exec cfg (Launch.init { MemStorage.new with hardState := ⟨5, 2, 0⟩ })
        probedEarly).process.node
    let again := (Process.start probed.storage).restore.node
    cfg.validate = .ok () ∧ (⟨0, [1, 2], 100, 300, 600, 128⟩ : RaftConfig).validate = .ok () ∧
      (before.sm.votedFor = some 0 ∧ after.sm.votedFor = none ∧
        after.sm.currentTerm = before.sm.currentTerm) ∧
      probed.sm.currentTerm = 0 ∧ probed.sm.votedFor = none ∧
      again.sm.currentTerm = 5 ∧ again.sm.votedFor = some 2 := by
  decide +kernel

end IceRaft
