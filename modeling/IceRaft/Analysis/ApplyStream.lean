import IceRaft.Analysis.Acknowledgement

/-!
# The stream of applied entries

Entries are applied at heartbeats of a leader, from behind the last applied index up to the
commit index.  In between the log, the commit index and the role change in any way, and the
commit index may fall below the last applied one; only the last applied index and the entries
sent so far have to stay in step.
-/

set_option autoImplicit false

namespace IceRaft

open Cluster Abstraction MemStorage

/-- The entries of the last uptime have consecutive indices, behind the commit index it was
restored with. -/
def Gapless (H : List Effect) : Prop :=
  (sentThisUptime H).map LogEntry.index =
    List.range' (restoredCommit H + 1) (sentThisUptime H).length

/-- An effect that neither begins an uptime nor applies an entry. -/
def Effect.offStream : Effect → Prop
  | .applied _ | .restored _ => False
  | _ => True

/-- An effect off the stream is of no uptime's stream. -/
theorem uptime_append_of_offStream {e : Effect} (he : e.offStream) (H : List Effect) :
    uptime (H ++ [e]) = uptime H := by
  rw [uptime_append]
  cases e with
  | applied _ => exact he.elim
  | restored _ => exact he.elim
  | _ => rfl

/-- It leaves no gap. -/
theorem Gapless.off {H : List Effect} (h : Gapless H) {e : Effect} (he : e.offStream) :
    Gapless (H ++ [e]) := by
  unfold Gapless restoredCommit sentThisUptime at *
  rw [uptime_append_of_offStream he]
  exact h

/-- The next entry is that behind those sent. -/
theorem Gapless.applied {H : List Effect} (h : Gapless H) {e : LogEntry}
    (he : e.index = restoredCommit H + (sentThisUptime H).length + 1) :
    Gapless (H ++ [.applied e]) := by
  unfold Gapless restoredCommit sentThisUptime at *
  rw [uptime_append]
  show (((uptime H).2 ++ [e]).map LogEntry.index) =
    List.range' ((uptime H).1 + 1) ((uptime H).2 ++ [e]).length
  rw [List.map_append, List.length_append, List.length_singleton, List.range'_1_concat, h,
    List.map_singleton, he, Nat.add_right_comm]

/-- An uptime has sent nothing when it begins. -/
theorem gapless_restored (H : List Effect) (commit : ℕ) : Gapless (H ++ [.restored commit]) := by
  unfold Gapless sentThisUptime
  rw [uptime_append]
  rfl

/-- The stream of the history is gapless at every point of it and has come as far as the node
has applied; and the entry applied last, if nothing has happened since, is committed and in
the log. -/
structure Streaming (H : List Effect) (n : RaftNodeInner MemStorage) : Prop where
  snapshot : n.storage.snapshot = none
  gapless : ∀ past, past <+: H → Gapless past
  applied : n.sm.lastApplied = restoredCommit H + (sentThisUptime H).length
  current : ∀ past e, H = past ++ [.applied e] →
    n.storage.get? e.index = some e ∧ e.index ≤ n.sm.commitIndex

/-- An effect off the stream. -/
theorem Streaming.off {H : List Effect} {n n' : RaftNodeInner MemStorage} {eff : Effect}
    (hs : Streaming H n) (hsnap : n'.storage.snapshot = n.storage.snapshot)
    (happlied : n'.sm.lastApplied = n.sm.lastApplied) (heff : eff.offStream) :
    Streaming (H ++ [eff]) n' where
  snapshot := hsnap.trans hs.snapshot
  gapless := by
    intro past hpast
    rcases List.prefix_concat_iff.mp hpast with rfl | hpast
    · exact (hs.gapless H (List.prefix_refl H)).off heff
    · exact hs.gapless past hpast
  applied := by
    unfold restoredCommit sentThisUptime
    rw [uptime_append_of_offStream heff, happlied]
    exact hs.applied
  current := by
    intro past e heq
    obtain ⟨-, rfl⟩ := List.append_singleton_inj.mp heq
    exact heff.elim

/-- Every turn sends the entries in the order of their indices. -/
theorem streaming_keeps {h : List Effect} {n₀ : RaftNodeInner MemStorage} {input : Input} :
    Keeps .plain h n₀ input Streaming fun _ _ => True where
  aside := by
    intro H n n' hsame _ _ hI
    refine ⟨hsame.snapshot.trans hI.snapshot, hI.gapless, hsame.lastApplied.trans hI.applied, ?_⟩
    intro past e heq
    unfold MemStorage.get?
    rw [hsame.entries, hsame.commitIndex]
    exact hI.current past e heq
  note := by
    intro H n e he hI
    refine hI.off rfl rfl ?_
    cases e with
    | applied _ => exact he.elim
    | restored _ => exact he.elim
    | _ => trivial
  save hI := hI.off rfl rfl trivial
  batch _ _ _ _ _ _ _ _ _ _ _ hI := hI.off (appendEntries_snapshot _ _) rfl trivial
  commit := by
    intro H n k halign hlt hI
    refine ⟨hI.snapshot, hI.gapless, hI.applied, ?_⟩
    intro past e heq
    obtain ⟨hget, hle⟩ := hI.current past e heq
    -- the commit index may fall, but not below an entry of the log
    have hlast := (halign.term_of_get? hget).2.1
    exact ⟨hget, Nat.le_min.mpr ⟨Nat.le_trans hle (Nat.le_of_lt hlt), hlast⟩⟩
  extend _ _ _ hI := hI.off (appendEntries_snapshot _ _) rfl trivial
  accept _ _ _ hI := hI.off rfl rfl trivial
  forget _ hI := ⟨hI.snapshot, hI.gapless, hI.applied, hI.current⟩
  answer _ _ hI := hI.off rfl rfl trivial
  readIndex _ hI := hI.off rfl rfl trivial
  store _ _ hW := hW.elim
  cover := by
    intro H n req _ _ _ _ hfirst hI
    have hone : n.storage.firstIndex = 1 := firstIndex_of_none hI.snapshot
    have hzero : req.lastIncludedIndex = 0 := by omega
    refine ⟨hI.snapshot, hI.gapless, ?_, ?_⟩
    · show max n.sm.lastApplied req.lastIncludedIndex = _
      rw [hzero, Nat.max_zero]
      exact hI.applied
    · intro past e heq
      obtain ⟨hget, hle⟩ := hI.current past e heq
      exact ⟨hget, Nat.le_trans hle (Nat.le_max_left _ _)⟩
  apply := by
    intro H n e halign hmem hindex hle hI
    have hnext : e.index = restoredCommit H + (sentThisUptime H).length + 1 := by
      rw [hindex, hI.applied]
    refine ⟨hI.snapshot, ?_, ?_, ?_⟩
    · intro past hpast
      rcases List.prefix_concat_iff.mp hpast with rfl | hpast
      · exact (hI.gapless H (List.prefix_refl H)).applied hnext
      · exact hI.gapless past hpast
    · unfold restoredCommit sentThisUptime at *
      rw [uptime_append]
      show e.index = (uptime H).1 + ((uptime H).2 ++ [e]).length
      rw [hnext, List.length_append, List.length_singleton, Nat.add_assoc]
    · intro past e' heq
      obtain ⟨-, hlast⟩ := List.append_singleton_inj.mp heq
      obtain rfl := Effect.applied.inj hlast
      exact ⟨halign.get?_of_mem hmem, hle⟩
  send _ _ _ := trivial
  sendSnapshot := by
    intro H n snap leaderId hsnap hI
    rw [hI.snapshot] at hsnap
    cases hsnap
  at_answer _ _ _ _ := trivial
  at_readIndex _ _ := trivial
  at_other _ := trivial

/-- A boot begins a stream behind the restored commit index. -/
theorem Streaming.booted {H : List Effect} {s : MemStorage} (hs : s.snapshot = none)
    (hpast : ∀ past, past <+: H → Gapless past) :
    Streaming (H ++ [.restored s.hardState.commit]) (.booted s) where
  snapshot := hs
  gapless := by
    intro past hpre
    rcases List.prefix_concat_iff.mp hpre with rfl | hpre
    · exact gapless_restored H _
    · exact hpast past hpre
  applied := by
    unfold restoredCommit sentThisUptime
    rw [uptime_append]
    rfl
  current := by
    intro past e heq
    obtain ⟨-, hlast⟩ := List.append_singleton_inj.mp heq
    cases hlast

/-- So every history is a sequence of streams without gaps. -/
theorem streaming_booking : Booking .plain Streaming fun _ _ _ _ _ => True where
  keeps _ _ _ := streaming_keeps
  kept _ hI _ := logKept_of_none hI.snapshot
  boot _ _ hI := .booted hI.snapshot hI.gapless

/-- At the start nothing was sent. -/
theorem streaming_init {cc : ClusterConfig} {stores : NodeId → MemStorage}
    (hstores : ∀ i ∈ cc.members, (stores i).Plain) :
    Booking.Holds .plain Streaming cc (init stores) := by
  apply Booking.holds_init
  intro i hi
  have hempty : ∀ past, past <+: ([] : List Effect) → Gapless past := by
    intro past hpast
    rw [List.prefix_nil.mp hpast]
    rfl
  exact ⟨(hstores i hi).aligned, .booted (hstores i hi).snapshot hempty⟩

/-- **The apply stream has neither gaps nor duplicates.**  In every run, with any crashes, of a
cluster whose logs are aligned and have no snapshot: at every point of the history of a node,
the entries sent on `apply_tx` since the last restore have the indices behind the restored
commit index, one after the other and each once; and an entry is sent while the log holds it
at its index, and its index is committed.
SRCLINE: iceraft-node/src/node.rs:188-289, 803-818, iceraft-storage/src/mem.rs:70-111 -/
theorem apply_stream_gapless (cc : ClusterConfig) {stores : NodeId → MemStorage}
    (hstores : ∀ i ∈ cc.members, (stores i).Plain) (es : List Event) {i : NodeId}
    (hi : i ∈ cc.members) :
    (∀ past, past <+: ((exec cc (init stores) es).proc i).history →
      (sentThisUptime past).map LogEntry.index =
          List.range' (restoredCommit past + 1) (sentThisUptime past).length ∧
        ((sentThisUptime past).map LogEntry.index).Nodup) ∧
    ∀ before e after input entry n, es = before ++ e :: after →
      (exec cc (init stores) before).input? cc e.action = some (i, input) →
      (Effect.applied entry, n) ∈
        (((exec cc (init stores) before).proc i).turn (cc.config i) input).trace →
      n.storage.get? entry.index = some entry ∧ entry.index ≤ n.sm.commitIndex := by
  have hrun : ∀ es, Booking.Holds .plain Streaming cc (exec cc (init stores) es) := by
    intro es
    have hw : Runs.Within (Cluster.step cc) (fun _ _ => True) (init stores) es :=
      Runs.within_of_forall fun _ _ => trivial
    exact streaming_booking.holds_run (fun _ _ _ _ _ _ => trivial) (streaming_init hstores) hw
  constructor
  · intro past hpast
    have hgapless : Gapless past := ((hrun es).node i hi).2.gapless past hpast
    refine ⟨hgapless, ?_⟩
    rw [hgapless]
    exact List.nodup_range'
  · rintro before e after input entry n rfl hin hmem
    obtain ⟨hbase, hI⟩ := (hrun before).node i hi
    have hcause := ((hrun before).cause hin).2
    have hkept : LogKept (cc.config i) _ input e.crashAt := logKept_of_none hI.snapshot
    have hturn : BookFollows .plain _ _ (fun _ _ _ _ _ => True) i _ _ _ _ _ :=
      streaming_keeps.turn_follows hbase hI trivial hkept hcause
    obtain ⟨k, effs, heffs, hnode⟩ := Turn.cut_of_mem_trace hmem
      ((exec cc (init stores) before).proc i).node
    obtain ⟨_, -, ⟨-, hstream, -⟩, -⟩ := hturn.1 k fun _ _ => trivial
    rw [← hnode]
    apply hstream.current (((exec cc (init stores) before).proc i).history ++ effs) entry
    rw [List.append_assoc, ← heffs]
    rfl

/-- Node 1 applies an entry, restarts with its commit index, and applies the next one. -/
def restartedSoloRun : List Event :=
  soloRun ++ [⟨.client 1 (.propose [8]), some 9⟩, ⟨.timer 1 true false, none⟩,
    ⟨.timer 1 false true, none⟩, ⟨.client 1 (.propose [9]), none⟩, ⟨.timer 1 false true, none⟩]

/-- Across a restart node 1 sends indices 1 to 3, and the second uptime starts behind 1. -/
theorem apply_stream_gapless_restartedSoloRun :
    let c := exec solo (init fun _ => MemStorage.new) restartedSoloRun
    restoredCommit (c.proc 1).history = 1 ∧
      (applications (c.proc 1).history).map LogEntry.index = [1, 2, 3] ∧
      (sentThisUptime (c.proc 1).history).map LogEntry.index =
        List.range' (restoredCommit (c.proc 1).history + 1)
          (sentThisUptime (c.proc 1).history).length := by
  refine ⟨by decide +kernel, by decide +kernel, ?_⟩
  exact ((apply_stream_gapless solo (fun _ _ => ⟨Fresh.aligned (.inl rfl), rfl⟩) restartedSoloRun
    (by decide)).1 _ (List.prefix_refl _)).1

end IceRaft
