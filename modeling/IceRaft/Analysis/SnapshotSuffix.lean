import IceRaft.Analysis.SnapshotOrder

/-!
# The entries behind a snapshot

`apply_snapshot` keeps what lies behind the snapshot and compares no terms.  So the terms
stay in order, and the vote of the node stays with logs that hold the snapshot, exactly when
the first entry it keeps is not older than the snapshot.
-/

set_option autoImplicit false

namespace IceRaft

open MemStorage Cluster NodeTurn

/-- The terms of a log do not decrease. -/
abbrev TermsAscend (es : List LogEntry) : Prop := (es.map LogEntry.term).Pairwise (· ≤ ·)

/-- The pair of last index and term `a` is not older than `b`, as `on_request_vote` compares
them. -/
def NotOlder (a b : ℕ × ℕ) : Prop := b.2 < a.2 ∨ (a.2 = b.2 ∧ b.1 ≤ a.1)

instance (a b : ℕ × ℕ) : Decidable (NotOlder a b) := inferInstanceAs (Decidable (_ ∨ _))

namespace MemStorage

variable {s s' : MemStorage} {snap : Snapshot}

/-- What `on_request_vote` compares. -/
theorem lastEntry_fst (s : MemStorage) : (lastEntry s).1 =
    (s.lastIndex, if s.lastIndex > 0 then unwrapOr (s.term s.lastIndex) 0 else 0) := by
  unfold lastEntry
  dsimp only
  by_cases hpos : s.lastIndex > 0
  · rw [if_pos hpos, if_pos (show unwrapOr (Storage.lastIndex s).1 0 > 0 from hpos)]
    rfl
  · rw [if_neg hpos, if_neg (show ¬ unwrapOr (Storage.lastIndex s).1 0 > 0 from hpos)]
    rfl

/-- Entries and snapshot decide it. -/
theorem lastEntry_of_log (hentries : s'.entries = s.entries)
    (hsnapshot : s'.snapshot = s.snapshot) : (lastEntry s').1 = (lastEntry s).1 := by
  rw [lastEntry_fst, lastEntry_fst, eq_of_log hentries hsnapshot]
  rfl

/-- The first entry behind the snapshot. -/
theorem Aligned.head_applySnapshot (h : s.Aligned)
    (hlo : s.firstIndex ≤ snap.metadata.lastIncludedIndex + 1) :
    (s.applySnapshot snap).entries.head? = s.get? (snap.metadata.lastIncludedIndex + 1) := by
  rw [entries_applySnapshot hlo, List.head?_drop, h.get?_eq hlo]

/-- The terms behind a lower bound are in order exactly when the first of them is. -/
theorem termsAscend_cons_iff {t : ℕ} {es : List LogEntry} (hes : TermsAscend es) :
    (t :: es.map LogEntry.term).Pairwise (· ≤ ·) ↔ ∀ e ∈ es.head?, t ≤ e.term := by
  rw [List.pairwise_cons, and_iff_left hes]
  cases es with
  | nil => simp
  | cons e es =>
    rw [List.map_cons, TermsAscend, List.map_cons, List.pairwise_cons] at *
    constructor
    · intro h a ha
      obtain rfl := Option.mem_some.mp ha
      exact h _ List.mem_cons_self
    · intro h a ha
      have he : t ≤ e.term := h e rfl
      rcases List.mem_cons.mp ha with rfl | ha
      · exact he
      · exact he.trans (hes.1 a ha)

/-- The terms behind the snapshot's are in order exactly when the first kept entry is not of an
earlier term. -/
theorem Aligned.termsAscend_applySnapshot_iff (h : s.Aligned) (hs : TermsAscend s.entries)
    (hlo : s.firstIndex ≤ snap.metadata.lastIncludedIndex + 1) :
    (snap.metadata.lastIncludedTerm ::
        (s.applySnapshot snap).entries.map LogEntry.term).Pairwise (· ≤ ·) ↔
      ∀ e, s.get? (snap.metadata.lastIncludedIndex + 1) = some e →
        snap.metadata.lastIncludedTerm ≤ e.term := by
  have hkept : TermsAscend (s.applySnapshot snap).entries := by
    rw [entries_applySnapshot hlo, TermsAscend, List.map_drop]
    exact hs.sublist (List.drop_sublist _ _)
  rw [termsAscend_cons_iff hkept, h.head_applySnapshot hlo]
  rfl

/-- An entry of our own at the index of the snapshot that is not older bounds what follows. -/
theorem Aligned.next_of_own (h : s.Aligned) (hs : TermsAscend s.entries) {i t : ℕ}
    (hlo : s.firstIndex ≤ i) (hown : ∀ e, s.get? i = some e → t ≤ e.term) :
    ∀ e, s.get? (i + 1) = some e → t ≤ e.term := by
  intro e he
  rw [h.get?_eq (by omega)] at he
  obtain ⟨hk, rfl⟩ := List.getElem?_eq_some_iff.mp he
  have hk' : i - s.firstIndex < s.entries.length := by omega
  have hprev : t ≤ (s.entries[i - s.firstIndex]).term := by
    apply hown
    rw [h.get?_eq hlo, List.getElem?_eq_getElem hk']
  refine hprev.trans ?_
  have hpair := List.pairwise_iff_getElem.mp hs (i - s.firstIndex) (i + 1 - s.firstIndex)
    (by rw [List.length_map]; exact hk') (by rw [List.length_map]; exact hk) (by omega)
  rw [List.getElem_map, List.getElem_map] at hpair
  exact hpair

/-- With the terms in order, the last entry is not older than the snapshot. -/
theorem Aligned.notOlder_applySnapshot (h : s.Aligned)
    (hlo : s.firstIndex ≤ snap.metadata.lastIncludedIndex)
    (hord : (snap.metadata.lastIncludedTerm ::
      (s.applySnapshot snap).entries.map LogEntry.term).Pairwise (· ≤ ·)) :
    NotOlder (lastEntry (s.applySnapshot snap)).1
      (snap.metadata.lastIncludedIndex, snap.metadata.lastIncludedTerm) := by
  have hone := s.one_le_firstIndex
  have halign := h.applySnapshot (Nat.le_succ_of_le hlo)
  have hlast := halign.lastIndex_succ
  have hfirst := applySnapshot_firstIndex s snap
  generalize hs' : s.applySnapshot snap = s' at *
  rw [lastEntry_fst, if_pos (show s'.lastIndex > 0 by omega)]
  by_cases hempty : s'.entries = []
  · -- nothing is kept, and the last entry is the snapshot
    rw [hempty, List.length_nil] at hlast
    have hend : s'.lastIndex = snap.metadata.lastIncludedIndex := by omega
    have hterm : s'.term snap.metadata.lastIncludedIndex = .ok snap.metadata.lastIncludedTerm := by
      rw [← hs']
      unfold MemStorage.term
      rw [if_neg (by omega)]
      dsimp only [MemStorage.applySnapshot]
      rw [if_pos (Nat.le_refl _), if_pos rfl]
    rw [hend, hterm]
    exact .inr ⟨rfl, Nat.le_refl _⟩
  · have hpos := List.length_pos_iff.mpr hempty
    have hk : s'.lastIndex - s'.firstIndex < s'.entries.length := by omega
    rw [halign.term_eq (by omega) hk]
    have hle := List.rel_of_pairwise_cons hord
      (List.mem_map_of_mem (List.getElem_mem hk))
    rcases Nat.lt_or_eq_of_le hle with hlt | heq
    · exact .inl hlt
    · exact .inr ⟨heq.symm, by show snap.metadata.lastIncludedIndex ≤ s'.lastIndex; omega⟩

end MemStorage

/-- **What a snapshot keeps.**  Installing a snapshot that ends in or behind an ordered log
keeps exactly the entries behind it, whatever our own term at its index was.  The snapshot is the
one that the node makes of its buffer and the last chunk.  Its term and
those of the kept entries are in order exactly when the first kept entry is not of an earlier
term, so in particular when our own entry at its index was not; and then the last entry that
`on_request_vote` compares is not older than the snapshot.
SRCLINE: iceraft-node/src/node.rs:393-406, 446-462, iceraft-storage/src/mem.rs:198-213 -/
theorem snapshot_keeps_suffix (n : RaftNodeInner MemStorage) (req : InstallSnapshotRequest)
    (halign : n.storage.Aligned) (hord : TermsAscend n.storage.entries)
    (hterm : n.sm.currentTerm ≤ req.term) (hdone : req.done = true)
    (hlo : n.storage.firstIndex ≤ (n.assembled req).metadata.lastIncludedIndex) :
    let snap := (n.assembled req).metadata
    let kept := (onInstallSnapshot req (Turn.start n)).2.node.storage
    let ordered := (snap.lastIncludedTerm :: kept.entries.map LogEntry.term).Pairwise (· ≤ ·)
    (∀ i, kept.get? i = if i ≤ snap.lastIncludedIndex then none else n.storage.get? i) ∧
    (ordered ↔ ∀ e, n.storage.get? (snap.lastIncludedIndex + 1) = some e →
      snap.lastIncludedTerm ≤ e.term) ∧
    ((∀ e, n.storage.get? snap.lastIncludedIndex = some e → snap.lastIncludedTerm ≤ e.term) →
      ordered) ∧
    (ordered → NotOlder (lastEntry kept).1 (snap.lastIncludedIndex, snap.lastIncludedTerm)) := by
  intro snap kept ordered
  obtain ⟨-, hnode⟩ := onInstallSnapshot_applied (x := Turn.start n) hterm hdone
  have hkept : kept = { n.storage.applySnapshot (n.assembled req) with
      hardState := kept.hardState } := eq_of_log hnode.entries hnode.snapshot
  have hiff : ordered ↔ ∀ e, n.storage.get? (snap.lastIncludedIndex + 1) = some e →
      snap.lastIncludedTerm ≤ e.term := by
    show (snap.lastIncludedTerm :: kept.entries.map LogEntry.term).Pairwise (· ≤ ·) ↔ _
    rw [hkept]
    exact Aligned.termsAscend_applySnapshot_iff halign hord (Nat.le_succ_of_le hlo)
  refine ⟨?_, hiff, ?_, ?_⟩
  · intro i
    rw [hkept]
    exact Aligned.get?_applySnapshot halign (Nat.le_succ_of_le hlo) i
  · intro hown
    exact hiff.mpr (Aligned.next_of_own halign hord hlo hown)
  · intro h
    have hord' : (snap.lastIncludedTerm :: kept.entries.map LogEntry.term).Pairwise (· ≤ ·) := h
    rw [hkept] at hord'
    rw [lastEntry_of_log hnode.entries hnode.snapshot]
    exact Aligned.notOlder_applySnapshot halign hlo hord'

/-- A follower whose entries 1 and 2 are of term 1. -/
def oldTermFollower : RaftNodeInner MemStorage where
  sm := { currentTerm := 3 }
  storage := { entries := [⟨1, 1, [], .normal⟩, ⟨1, 2, [], .normal⟩] }
  metrics := {}
  pending := []
  snapshotBuf := none

/-- The same follower, when it has buffered the first chunk of a snapshot that ends at index 1. -/
def bufferedFollower : RaftNodeInner MemStorage :=
  { oldTermFollower with snapshotBuf := some (⟨1, 1, []⟩, [8]) }

/-- The last chunk of a snapshot keeps the entries behind it. -/
theorem snapshot_keeps_suffix_bufferedFollower :
    let kept := (onInstallSnapshot ⟨3, 1, 1, 1, 1, [9], true⟩
      (Turn.start bufferedFollower)).2.node.storage
    let ordered := (1 :: kept.entries.map LogEntry.term).Pairwise (· ≤ ·)
    (∀ i, kept.get? i = if i ≤ 1 then none else bufferedFollower.storage.get? i) ∧
    (ordered ↔ ∀ e, bufferedFollower.storage.get? 2 = some e → 1 ≤ e.term) ∧
    ((∀ e, bufferedFollower.storage.get? 1 = some e → 1 ≤ e.term) → ordered) ∧
    (ordered → NotOlder (lastEntry kept).1 (1, 1)) :=
  snapshot_keeps_suffix bufferedFollower ⟨3, 1, 1, 1, 1, [9], true⟩
    (by unfold Aligned; decide +kernel) (by decide +kernel) (by decide) rfl (by decide)

/-- A snapshot that ends at index 1 in term 2. -/
def newTermSnapshot : InstallSnapshotRequest := ⟨3, 1, 1, 2, 0, [9], true⟩

/-- Our own entry at index 1 is of term 1, entry 2 stays behind the snapshot of term 2, and a
candidate that ends with entry 2 of term 1 gets the vote. -/
theorem divergent_suffix_kept :
    oldTermFollower.storage.Aligned ∧ TermsAscend oldTermFollower.storage.entries ∧
      oldTermFollower.storage.get? 1 = some ⟨1, 1, [], .normal⟩ ∧
      (onInstallSnapshot newTermSnapshot (Turn.start oldTermFollower)).2.node.storage.entries =
        [⟨1, 2, [], .normal⟩] ∧
      ¬ (2 :: (onInstallSnapshot newTermSnapshot
        (Turn.start oldTermFollower)).2.node.storage.entries.map LogEntry.term).Pairwise (· ≤ ·) ∧
      ¬ NotOlder (lastEntry (onInstallSnapshot newTermSnapshot
        (Turn.start oldTermFollower)).2.node.storage).1 (1, 2) ∧
      candidateLogOk ⟨4, 3, 2, 1, false⟩ (lastEntry (onInstallSnapshot newTermSnapshot
        (Turn.start oldTermFollower)).2.node.storage).1.1 (lastEntry (onInstallSnapshot
          newTermSnapshot (Turn.start oldTermFollower)).2.node.storage).1.2 = true := by
  refine ⟨?_, by decide +kernel⟩
  unfold Aligned
  decide +kernel

end IceRaft
