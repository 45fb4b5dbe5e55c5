import IceRaft.Analysis.BookkeepingRun
import IceRaft.Analysis.CommitSafety

/-!
# The order of the terms

The terms of a log do not decrease and do not pass the term of its node, and a batch on
the network is in between: not below its previous term, not above the term of its sender.
The consistency check puts each batch behind an entry of the same term, so this holds
whoever writes, however many leaders there are.
-/

set_option autoImplicit false

namespace IceRaft

open Cluster MemStorage TermLog

/-- The terms of a batch lie between two bounds and do not decrease. -/
structure BatchOrdered (lo hi : ℕ) (es : List LogEntry) : Prop where
  sorted : Sorted LogEntry.term es
  lower : ∀ e ∈ es, lo ≤ e.term
  upper : ∀ e ∈ es, e.term ≤ hi

/-- A log without a snapshot, whose terms do not decrease and do not pass the saved term. -/
structure TermsOrdered (n : RaftNodeInner MemStorage) : Prop where
  snapshot : n.storage.snapshot = none
  sorted : Sorted LogEntry.term n.storage.entries
  saved : ∀ e ∈ n.storage.entries, e.term ≤ n.storage.hardState.term
  current : n.storage.hardState.term ≤ n.sm.currentTerm

/-- Batches in order, and no snapshots. -/
def Wire.ordered : Wire where
  batch req := BatchOrdered req.prevLogTerm req.term (req.entries.map protoEntryToLogEntry)
  snapshot _ := False

/-- A batch that passes the consistency check continues the order of the log. -/
theorem TermsOrdered.batch {n : RaftNodeInner MemStorage} (ht : TermsOrdered n)
    (halign : n.storage.Aligned) {req : AppendEntriesRequest}
    (hprev : NodeTurn.PrevOk n.storage req)
    (hhi : req.prevLogIndex ≤ n.storage.lastIndex) {es : List LogEntry} {hi : ℕ}
    (hes : BatchOrdered req.prevLogTerm hi es) :
    Sorted LogEntry.term (n.storage.entries.take req.prevLogIndex ++ es) := by
  have hplain : n.storage.Plain := ⟨halign, ht.snapshot⟩
  rw [hplain.lastIndex] at hhi
  refine List.pairwise_append.mpr ⟨ht.sorted.sublist (List.take_sublist _ _), hes.sorted, ?_⟩
  intro e he e' he'
  have hle := ht.sorted.le_termAt hhi he
  have hterm : termAt LogEntry.term n.storage.entries req.prevLogIndex = req.prevLogTerm ∨
      req.prevLogIndex = 0 := by
    rcases hprev with h0 | hok | ⟨r, f, herr⟩
    · exact .inr h0
    · rw [hplain.term_eq, if_pos hhi] at hok
      exact .inl (Except.ok.inj hok)
    · rw [hplain.term_eq, if_pos hhi] at herr
      cases herr
  rcases hterm with hterm | h0
  · rw [hterm] at hle
    exact Nat.le_trans hle (hes.lower e' he')
  · rw [h0, List.take_zero] at he
    cases he

/-- What a leader sends of its log lies behind the previous term it names. -/
theorem TermsOrdered.sent {n : RaftNodeInner MemStorage} (ht : TermsOrdered n)
    (halign : n.storage.Aligned) (prev k : ℕ) :
    BatchOrdered (prevTermOf n.storage prev) n.sm.currentTerm
      ((n.storage.entries.drop (prev + 1 - n.storage.firstIndex)).take k) := by
  have hplain : n.storage.Plain := ⟨halign, ht.snapshot⟩
  rw [hplain.firstIndex, Nat.add_sub_cancel]
  have hdrop : ∀ e ∈ (n.storage.entries.drop prev).take k, e ∈ n.storage.entries.drop prev :=
    fun e he => List.mem_of_mem_take he
  refine ⟨?_, ?_, ?_⟩
  · exact ht.sorted.sublist ((List.take_sublist _ _).trans (List.drop_sublist _ _))
  · intro e he
    have hle := ht.sorted.termAt_le prev (hdrop e he)
    unfold prevTermOf
    split
    · rw [hplain.unwrapOr_term]
      exact hle
    · exact Nat.zero_le _
  · intro e he
    exact Nat.le_trans (ht.saved e (List.mem_of_mem_drop (hdrop e he))) ht.current

/-- Every turn keeps the terms of its log in order. -/
theorem terms_keeps {h : List Effect} {n₀ : RaftNodeInner MemStorage} {input : Input} :
    Keeps .ordered h n₀ input (fun _ n => TermsOrdered n) fun _ _ => True where
  aside := by
    intro H n n' hsame hhard hterm hI
    refine ⟨?_, ?_, ?_, ?_⟩
    · rw [hsame.snapshot]
      exact hI.snapshot
    · rw [hsame.entries]
      exact hI.sorted
    · rw [hsame.entries, hhard]
      exact hI.saved
    · rw [hhard]
      exact Nat.le_trans hI.current hterm
  note _ hI := hI
  save hI := ⟨hI.snapshot, hI.sorted, fun e he => Nat.le_trans (hI.saved e he) hI.current,
    Nat.le_refl _⟩
  batch := by
    intro H n req _ _ _ hW hterm hprev hbase hne hcons hlo hhi hI
    have hmap : req.entries.map protoEntryToLogEntry ≠ [] := List.map_eq_nil_iff.not.mpr hne
    have hentries := hbase.aligned.entries_batch hcons hmap hlo hhi
    rw [firstIndex_of_none hI.snapshot, Nat.add_sub_cancel] at hentries
    refine ⟨?_, ?_, ?_, ?_⟩
    · show (n.storage.appendEntries _).snapshot = none
      rw [appendEntries_snapshot]
      exact hI.snapshot
    · show Sorted LogEntry.term (n.storage.appendEntries _).entries
      rw [hentries]
      exact hI.batch hbase.aligned hprev hhi hW
    · show ∀ e ∈ (n.storage.appendEntries _).entries,
        e.term ≤ (n.storage.appendEntries _).hardState.term
      rw [hentries, appendEntries_hardState, hbase.term]
      intro e he
      rcases List.mem_append.mp he with he | he
      · rw [← hbase.term]
        exact hI.saved e (List.mem_of_mem_take he)
      · rw [hterm]
        exact hW.upper e he
    · show (n.storage.appendEntries _).hardState.term ≤ n.sm.currentTerm
      rw [appendEntries_hardState]
      exact hI.current
  commit _ _ hI := ⟨hI.snapshot, hI.sorted, hI.saved, hI.current⟩
  extend := by
    intro H n e hbase hterm hindex hI
    have hentries := hbase.aligned.entries_snoc hindex
    have hle : ∀ e' ∈ n.storage.entries, e'.term ≤ e.term := by
      rw [hterm, ← hbase.term]
      exact hI.saved
    refine ⟨hI.snapshot, ?_, ?_, hI.current⟩
    · show Sorted LogEntry.term (n.storage.appendEntries [e]).entries
      rw [hentries]
      refine List.pairwise_append.mpr ⟨hI.sorted, List.pairwise_singleton _ _, ?_⟩
      intro e' he' e'' he''
      rw [List.mem_singleton.mp he'']
      exact hle e' he'
    · show ∀ e' ∈ (n.storage.appendEntries [e]).entries, e'.term ≤ n.storage.hardState.term
      rw [hentries, hbase.term, ← hterm]
      intro e' he'
      rcases List.mem_append.mp he' with he' | he'
      · exact hle e' he'
      · rw [List.mem_singleton.mp he']
  accept _ _ _ hI := ⟨hI.snapshot, hI.sorted, hI.saved, hI.current⟩
  forget _ hI := ⟨hI.snapshot, hI.sorted, hI.saved, hI.current⟩
  answer _ _ hI := hI
  readIndex _ hI := hI
  store _ _ hW := hW.elim
  cover _ _ _ _ _ hI := ⟨hI.snapshot, hI.sorted, hI.saved, hI.current⟩
  apply _ _ _ _ hI := ⟨hI.snapshot, hI.sorted, hI.saved, hI.current⟩
  send := by
    intro H n prev es leaderId halign hes hI
    show BatchOrdered (prevTermOf n.storage prev) n.sm.currentTerm
      ((es.map logEntryToProtoEntry).map protoEntryToLogEntry)
    rw [map_protoEntryToLogEntry]
    rcases hes with rfl | ⟨k, -, -, rfl⟩
    · exact ⟨.nil, nofun, nofun⟩
    · exact hI.sent halign prev k
  sendSnapshot := by
    intro H n snap leaderId hsnap hI
    rw [hI.snapshot] at hsnap
    cases hsnap
  at_answer _ _ _ _ := trivial
  at_readIndex _ _ := trivial
  at_other _ := trivial

/-- So they are in order in every run. -/
theorem terms_booking :
    Booking .ordered (fun _ n => TermsOrdered n) fun _ _ _ _ _ => True where
  keeps _ _ _ := terms_keeps
  kept := by
    intro h n cfg input crashAt hbase hI _
    have hfirst := firstIndex_of_none hI.snapshot
    refine ⟨?_, ?_⟩
    · unfold StartsInLog
      split
      · intro _ _
        omega
      · trivial
    · unfold SnapshotsAdvance
      split
      · intro _
        omega
      · trivial
  boot _ _ hI := ⟨hI.snapshot, hI.sorted, hI.saved, Nat.le_refl _⟩

/-- **The terms of logs and batches are ordered.**  In every run from empty storages, with
any crashes, the terms of a log do not decrease along its indices and do not pass the
current term of its node, and a batch on the network has terms that do not decrease, from
its previous term on and up to its own.
SRCLINE: iceraft-node/src/node.rs:302-368, 471-503, 574-637 -/
theorem log_terms_ordered (cc : ClusterConfig) (es : List Event) :
    (∀ i ∈ cc.members,
      (∀ e ∈ ((exec cc (init fun _ => MemStorage.new) es).store i).entries,
        ∀ e' ∈ ((exec cc (init fun _ => MemStorage.new) es).store i).entries,
          e.index ≤ e'.index → e.term ≤ e'.term) ∧
      ∀ e ∈ ((exec cc (init fun _ => MemStorage.new) es).store i).entries,
        e.term ≤ ((exec cc (init fun _ => MemStorage.new) es).sm i).currentTerm) ∧
    ∀ src waiting peer last req,
      Packet.request src waiting (.appendEntries peer last req) ∈
          (exec cc (init fun _ => MemStorage.new) es).net →
        BatchOrdered req.prevLogTerm req.term (req.entries.map protoEntryToLogEntry) := by
  have hinit : Booking.Holds .ordered (fun _ n => TermsOrdered n) cc
      (init fun _ => MemStorage.new) :=
    Booking.holds_init fun i _ => ⟨nofun, rfl, .nil, nofun, Nat.le_refl _⟩
  have hfree : Runs.Within (step cc) (fun _ _ => True) (init fun _ => MemStorage.new) es :=
    Runs.within_of_forall fun _ _ => trivial
  have hend := terms_booking.holds_run (fun _ _ _ _ _ _ => trivial) hinit hfree
  refine ⟨?_, ?_⟩
  · intro i hi
    obtain ⟨hbase, hI⟩ := hend.node i hi
    have halign : ((exec cc (init fun _ => MemStorage.new) es).store i).Aligned := hbase.aligned
    refine ⟨fun e he e' he' hle => ?_, fun e he => Nat.le_trans (hI.saved e he) hI.current⟩
    obtain ⟨k, hk, rfl⟩ := List.getElem_of_mem he
    obtain ⟨k', hk', rfl⟩ := List.getElem_of_mem he'
    have hidx := halign k hk
    have hidx' := halign k' hk'
    by_cases heq : k = k'
    · subst heq
      exact Nat.le_refl _
    · exact List.pairwise_iff_getElem.mp hI.sorted k k' hk hk' (by omega)
  · intro src waiting peer last req hp
    exact ((hend.packet _ hp).append src waiting peer last req rfl).2

end IceRaft
