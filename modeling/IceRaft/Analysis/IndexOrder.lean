import IceRaft.Analysis.BookkeepingRun
import IceRaft.Analysis.CommitSafety

/-!
# The order of the indices

What was applied is committed and what is committed is in the log, and neither index
falls, as long as no accepted batch cuts the log below the commit index.  The code cuts
at the end of every accepted batch, so a late one that ends below breaks the order.
-/

set_option autoImplicit false

namespace IceRaft

open Cluster MemStorage

/-- With the same books the log ends at the same index. -/
theorem SameBooks.lastIndex {n n' : RaftNodeInner MemStorage} (h : SameBooks n n') :
    n'.storage.lastIndex = n.storage.lastIndex := by
  unfold MemStorage.lastIndex
  rw [h.entries, h.snapshot]

/-- The order of the indices, above a commit index and a last applied index that were
reached before; the persisted commit index follows the one in memory. -/
structure Indices (commit applied : ℕ) (n : RaftNodeInner MemStorage) : Prop where
  ordered : IndicesOrdered n
  saved : n.storage.hardState.commit ≤ n.sm.commitIndex
  commit : commit ≤ n.sm.commitIndex
  applied : applied ≤ n.sm.lastApplied

/-- A turn that keeps the committed part of the log keeps the indices in order. -/
theorem indices_keeps {h : List Effect} {n₀ : RaftNodeInner MemStorage} {cfg : RaftConfig}
    {input : Input} {crashAt : Option ℕ} (hcond : CommitKept cfg n₀ input crashAt) (c l : ℕ) :
    Keeps .any h n₀ input (fun _ n => Indices c l n) fun _ _ => True where
  aside := by
    intro H n n' hsame hhard _ hI
    refine ⟨⟨?_, ?_⟩, ?_, ?_, ?_⟩
    · rw [hsame.lastApplied, hsame.commitIndex]
      exact hI.ordered.1
    · rw [hsame.commitIndex, hsame.lastIndex]
      exact hI.ordered.2
    · rw [hhard, hsame.commitIndex]
      exact hI.saved
    · rw [hsame.commitIndex]
      exact hI.commit
    · rw [hsame.lastApplied]
      exact hI.applied
  note _ hI := hI
  save hI := ⟨hI.ordered, Nat.le_refl _, hI.commit, hI.applied⟩
  batch := by
    intro H n req hin haccepts hsame _ _ _ hbase hne hcons hlo hhi hI
    subst hin
    have hmap : req.entries.map protoEntryToLogEntry ≠ [] := List.map_eq_nil_iff.not.mpr hne
    have hlast := hbase.aligned.lastIndex_batch hcons hmap hlo hhi
    rw [List.length_map] at hlast
    have hend : n.sm.commitIndex ≤ req.prevLogIndex + req.entries.length := by
      rw [hsame.commitIndex]
      exact hcond haccepts hne
    refine ⟨⟨hI.ordered.1, ?_⟩, ?_, hI.commit, hI.applied⟩
    · show n.sm.commitIndex ≤ (n.storage.appendEntries _).lastIndex
      omega
    · show (n.storage.appendEntries _).hardState.commit ≤ n.sm.commitIndex
      rw [appendEntries_hardState]
      exact hI.saved
  commit := by
    intro H n k _ hk hI
    have hord := hI.ordered
    refine ⟨⟨?_, ?_⟩, ?_, ?_, hI.applied⟩
    · exact Nat.le_min.mpr ⟨Nat.le_trans hord.1 (Nat.le_of_lt hk), Nat.le_trans hord.1 hord.2⟩
    · exact Nat.min_le_right _ _
    · exact Nat.le_trans hI.saved (Nat.le_min.mpr ⟨Nat.le_of_lt hk, hord.2⟩)
    · exact Nat.le_trans hI.commit (Nat.le_min.mpr ⟨Nat.le_of_lt hk, hord.2⟩)
  extend := by
    intro H n e hbase _ hindex hI
    have hlast := hbase.aligned.lastIndex_snoc hindex
    have hord := hI.ordered
    refine ⟨⟨hord.1, ?_⟩, ?_, hI.commit, hI.applied⟩
    · show n.sm.commitIndex ≤ (n.storage.appendEntries [e]).lastIndex
      have := hord.2
      omega
    · show (n.storage.appendEntries [e]).hardState.commit ≤ n.sm.commitIndex
      rw [appendEntries_hardState]
      exact hI.saved
  accept _ _ _ hI := ⟨hI.ordered, hI.saved, hI.commit, hI.applied⟩
  forget _ hI := ⟨hI.ordered, hI.saved, hI.commit, hI.applied⟩
  answer _ _ hI := hI
  readIndex _ hI := hI
  store := by
    intro H n req snap _ _ _ _ halign hidx hlo hI
    have hlast : (n.storage.applySnapshot snap).lastIndex = _ :=
      halign.lastIndex_applySnapshot (by rw [hidx]; exact hlo)
    refine ⟨⟨hI.ordered.1, ?_⟩, hI.saved, hI.commit, hI.applied⟩
    show n.sm.commitIndex ≤ (n.storage.applySnapshot snap).lastIndex
    rw [hlast]
    exact Nat.le_trans hI.ordered.2 (Nat.le_max_left _ _)
  cover := by
    intro H n req _ _ _ halign hfirst hI
    have hlast := halign.lastIndex_succ
    have hcovered : req.lastIncludedIndex ≤ n.storage.lastIndex := by omega
    refine ⟨⟨?_, ?_⟩, ?_, ?_, ?_⟩
    · exact max_le_max_right _ hI.ordered.1
    · exact Nat.max_le.mpr ⟨hI.ordered.2, hcovered⟩
    · exact Nat.le_trans hI.saved (Nat.le_max_left _ _)
    · exact Nat.le_trans hI.commit (Nat.le_max_left _ _)
    · exact Nat.le_trans hI.applied (Nat.le_max_left _ _)
  apply := by
    intro H n e _ _ hidx hle hI
    refine ⟨⟨hle, hI.ordered.2⟩, hI.saved, hI.commit, ?_⟩
    show l ≤ e.index
    have := hI.applied
    omega
  send _ _ _ := trivial
  sendSnapshot _ _ := trivial
  at_answer _ _ _ _ := trivial
  at_readIndex _ _ := trivial
  at_other _ := trivial

/-- So does every turn of a run of such turns. -/
theorem indices_booking :
    Booking .any (fun _ n => Indices 0 0 n) fun _ => LogKept.and CommitKept where
  keeps _ _ hcond := indices_keeps hcond.2 0 0
  kept _ _ hcond := hcond.1
  boot _ _ hI := ⟨⟨Nat.le_refl _, Nat.le_trans hI.saved hI.ordered.2⟩, Nat.le_refl _,
    Nat.zero_le _, Nat.zero_le _⟩

/-- On a fresh disk all indices are 0, or those of its snapshot. -/
theorem Cluster.Fresh.indices {s : MemStorage} (hs : Fresh s) :
    Indices 0 0 (RaftNodeInner.booted s) := by
  refine ⟨⟨Nat.le_refl _, ?_⟩, Nat.le_refl _, Nat.zero_le _, Nat.zero_le _⟩
  show s.hardState.commit ≤ s.lastIndex
  rw [hs.commit]
  exact Nat.zero_le _

/-- **The indices are ordered and never fall.**  In a run in which the log is kept aligned
and no accepted batch ends below the commit index, every node is ordered after the run,
and every turn of the run passes only ordered states, with indices not below those it
began with; so the subtraction of `maybe_advance_commit` does not wrap around.
SRCLINE: iceraft-node/src/node.rs:354-359, 446-462, 749-801 -/
theorem indices_ordered (cc : ClusterConfig) (stores : NodeId → MemStorage) (es : List Event)
    (hfresh : ∀ i, Fresh (stores i)) (h : Within cc (LogKept.and CommitKept) (init stores) es) :
    (∀ i ∈ cc.members, IndicesOrdered ((exec cc (init stores) es).proc i).node) ∧
    ∀ before e after i input, es = before ++ e :: after →
      (exec cc (init stores) before).input? cc e.action = some (i, input) →
      ∀ n, (((exec cc (init stores) before).proc i).turn (cc.config i) input).Passes
          ((exec cc (init stores) before).proc i).node n →
        IndicesOrdered n ∧
        ((exec cc (init stores) before).sm i).commitIndex ≤ n.sm.commitIndex ∧
        ((exec cc (init stores) before).sm i).lastApplied ≤ n.sm.lastApplied ∧
        ∀ k, n.sm.commitIndex < k → u64Sub k n.sm.lastApplied = k - n.sm.lastApplied := by
  have hinit : Booking.Holds .any (fun _ n => Indices 0 0 n) cc (init stores) :=
    Booking.holds_init fun i _ => ⟨(hfresh i).aligned, (hfresh i).indices⟩
  have hrun : ∀ fs, Within cc (LogKept.and CommitKept) (init stores) fs →
      Booking.Holds .any (fun _ n => Indices 0 0 n) cc (exec cc (init stores) fs) := fun fs hfs =>
    indices_booking.holds_run (fun _ _ hok _ _ hin => hok.of_input hin) hinit hfs
  refine ⟨fun i hi => ((hrun es h).node i hi).2.ordered, ?_⟩
  rintro before e after i input rfl hin n hn
  obtain ⟨hbefore, hcond, -⟩ := (Runs.within_append _ _ _).mp h
  have hc := hrun before hbefore
  obtain ⟨hi, hcause⟩ := hc.cause hin
  obtain ⟨hbase, hI⟩ := hc.node i hi
  have hmeets := hcond.of_input hin
  -- the same invariant, above the indices the turn begins with
  have hI' : Indices ((exec cc (init stores) before).sm i).commitIndex
      ((exec cc (init stores) before).sm i).lastApplied
      ((exec cc (init stores) before).proc i).node :=
    ⟨hI.ordered, hI.saved, Nat.le_refl _, Nat.le_refl _⟩
  obtain ⟨_, hend⟩ := (indices_keeps (h := []) hmeets.2 _ _).turn_passes hbase hI' trivial
    hmeets.1 hcause hn
  refine ⟨hend.ordered, hend.commit, hend.applied, fun k hk => u64Sub_of_le ?_⟩
  exact Nat.le_trans hend.ordered.1 (Nat.le_of_lt hk)

/-- The indices of node 2 are in order when it has learned what is committed. -/
theorem indices_ordered_toldRun :
    IndicesOrdered ((exec trio (init fun _ => MemStorage.new) (ackedRun ++ toldRun)).proc 2).node :=
  (indices_ordered trio (fun _ => MemStorage.new) (ackedRun ++ toldRun) (fun _ => .inl rfl)
    (by decide +kernel)).1 2 (by decide)

/-- Node 2 knows that both entries are committed when the late batch cuts its log. -/
theorem indices_late_batch :
    Within trio NoCrash (init fun _ => MemStorage.new)
        (ackedRun ++ toldRun ++ [⟨.deliver 3, none⟩]) ∧
      ((exec trio (init fun _ => MemStorage.new)
        (ackedRun ++ toldRun ++ [⟨.deliver 3, none⟩])).sm 2).commitIndex = 2 ∧
      ((exec trio (init fun _ => MemStorage.new)
        (ackedRun ++ toldRun ++ [⟨.deliver 3, none⟩])).store 2).lastIndex = 1 := by
  decide +kernel

end IceRaft
