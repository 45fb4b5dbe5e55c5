import IceRaft.Analysis.WordLog

/-!
# Reads under a size cap

A capped read of the log is a page of the uncapped one.  Reading page after page gives the
whole range, as long as the index behind the log is a `u64`; what a page holds is decided by
its bytes, so the limit on the entries of an AppendEntries request holds only where it follows
from the byte budget.
-/

set_option autoImplicit false

namespace IceRaft

open MemStorage NodeTurn CappedPrefix

/-! ## Pages of the log -/

/-- The total data length of a list of entries. -/
abbrev dataLength (es : List LogEntry) : ℕ := weight entrySize es

/-- The reads of a range with a fixed end: from an index, under the cap there may be. -/
abbrev RangeRead := ℕ → Option ℕ → Except RaftError (List LogEntry)

/-- Capped reads, each from the index behind the last entry of the one before; at most `fuel`
of them. -/
def readOn (read : RangeRead) (max : ℕ) : ℕ → ℕ → List LogEntry
  | 0, _ => []
  | fuel + 1, lo =>
    match read lo (some max) with
    | .ok es =>
      match es.getLast? with
      | some last => es ++ readOn read max fuel (last.index + 1)
      | none => []
    | .error _ => []

/-- A capped read of `[lo, hi)` is a non-empty prefix of the uncapped one: within the cap and
longer than every other prefix within it when the first entry fits, and the first entry alone
when it does not.  Reading on from the index behind the last entry returned gives the whole
range, index by index. -/
def LongestPages (read : RangeRead) (lo hi max : ℕ) : Prop :=
  ∃ first rest taken, read lo none = .ok (first :: rest) ∧
    read lo (some max) = .ok taken ∧ taken ≠ [] ∧ taken <+: first :: rest ∧
    (first.data.length ≤ max → dataLength taken ≤ max ∧
      ∀ p, p <+: first :: rest → dataLength p ≤ max → p <+: taken) ∧
    (max < first.data.length → taken = [first]) ∧
    ∀ fuel ≥ hi - lo, readOn read max fuel lo = first :: rest ∧
      (readOn read max fuel lo).map LogEntry.index = List.range' lo (hi - lo)

variable {s : MemStorage} {lo hi max : ℕ}

/-- The entries of `[lo, hi)`, by position. -/
def MemStorage.slice (s : MemStorage) (lo hi : ℕ) : List LogEntry :=
  (s.entries.drop (lo - s.firstIndex)).take (hi - lo)

/-- A slice from a later index is a slice without its beginning. -/
theorem MemStorage.slice_drop (hlo : s.firstIndex ≤ lo) (k : ℕ) :
    (s.slice lo hi).drop k = s.slice (lo + k) hi := by
  have hfrom : lo - s.firstIndex + k = lo + k - s.firstIndex := by omega
  unfold slice
  rw [List.drop_take, List.drop_drop, hfrom, Nat.sub_sub]

/-- A slice of an aligned log has as many entries as it has indices. -/
theorem MemStorage.Aligned.length_slice (h : s.Aligned) (hlo : s.firstIndex ≤ lo)
    (hhi : hi ≤ s.lastIndex + 1) : (s.slice lo hi).length = hi - lo := by
  have hend := h.lastIndex_succ
  unfold slice
  rw [List.length_take, List.length_drop]
  omega

/-- Behind a page of the range the next one begins. -/
theorem MemStorage.Aligned.index_page (h : s.Aligned) (hlo : s.firstIndex ≤ lo)
    {e : LogEntry} (he : (page entrySize max (s.slice lo hi)).getLast? = some e) :
    e.index + 1 = lo + (page entrySize max (s.slice lo hi)).length := by
  apply Consecutive.index_getLast _ he
  intro k hk
  have hpre := page_isPrefix entrySize max (s.slice lo hi)
  have hlt := hk.trans_le hpre.length_le
  rw [hpre.getElem hk]
  exact h.consecutive_drop hlo (hi - lo) k hlt

/-- Capped reads, one after the other, turn the pages of the range. -/
theorem MemStorage.Aligned.readOn_eq (h : s.Aligned) {fuel : ℕ} (hlo : s.firstIndex ≤ lo)
    (hle : lo ≤ hi) (hhi : hi ≤ s.lastIndex + 1) :
    readOn (s.readEntries · hi) max fuel lo = pages entrySize max fuel (s.slice lo hi) := by
  induction fuel generalizing lo with
  | zero => rfl
  | succ fuel ih =>
    rcases Nat.lt_or_eq_of_le hle with hlt | rfl
    · have hlen := h.length_slice hlo hhi
      have hne : page entrySize max (s.slice lo hi) ≠ [] := by
        apply page_ne_nil entrySize max
        intro hnil
        rw [hnil, List.length_nil] at hlen
        omega
      have hread : s.readEntries lo hi (some max) = .ok (page entrySize max (s.slice lo hi)) := by
        rw [readEntries_capped, h.readEntries_none hlo hhi hlt]
        rfl
      have hnext := h.index_page hlo (List.getLast?_eq_getLast_of_ne_nil hne)
      have hshort := (page_isPrefix entrySize max (s.slice lo hi)).length_le
      unfold readOn pages
      rw [hread]
      dsimp only
      rw [List.getLast?_eq_getLast_of_ne_nil hne]
      dsimp only
      rw [hnext, slice_drop hlo, ih (by omega) (by omega)]
    · have hnil : s.slice lo lo = [] := by
        unfold slice
        rw [Nat.sub_self, List.take_zero]
      have hread : s.readEntries lo lo (some max) = .ok [] := by
        unfold readEntries
        dsimp only
        rw [if_neg (by omega), if_neg (by omega), if_pos (Nat.le_refl lo)]
      rw [hnil, pages_eq entrySize max (Nat.zero_le _)]
      unfold readOn
      rw [hread]
      rfl

/-- On an aligned log, the capped reads of a range the log covers are the longest pages. -/
theorem MemStorage.Aligned.longestPages (h : s.Aligned) (hlo : s.firstIndex ≤ lo) (hlt : lo < hi)
    (hhi : hi ≤ s.lastIndex + 1) : LongestPages (s.readEntries · hi) lo hi max := by
  have hlen := h.length_slice hlo hhi
  have hread : s.readEntries lo hi none = .ok (s.slice lo hi) := h.readEntries_none hlo hhi hlt
  have hcapped := s.readEntries_capped lo hi max
  have hindices : (s.slice lo hi).map LogEntry.index = List.range' lo (hi - lo) := by
    rw [← hlen]
    exact (h.consecutive_drop hlo (hi - lo)).map_index
  have hon (fuel : ℕ) (hfuel : fuel ≥ hi - lo) :
      readOn (s.readEntries · hi) max fuel lo = s.slice lo hi := by
    rw [h.readOn_eq hlo hlt.le hhi]
    exact pages_eq entrySize max (hlen.trans_le hfuel)
  rw [hread] at hcapped
  cases hslice : s.slice lo hi with
  | nil =>
    rw [hslice, List.length_nil] at hlen
    omega
  | cons first rest =>
    rw [hslice] at hcapped hread hindices hon
    refine ⟨first, rest, _, hread, hcapped, page_ne_nil _ _ (List.cons_ne_nil _ _),
      page_isPrefix _ _ _, page_longest entrySize max,
      fun hbig => page_of_lt entrySize max hbig rest, ?_⟩
    intro fuel hfuel
    rw [hon fuel hfuel]
    exact ⟨rfl, hindices⟩

/-- **Capped reads are the longest admissible prefixes, except at the end of `u64`.**  On an
aligned log, a capped read of a range the log covers is the longest page of it, and reading on
gives the whole range, exactly when the index behind the log is a `u64`: at the last one
`last + 1` wraps around to 0, and every range is refused as not available yet.
SRCLINE: iceraft-storage/src/mem.rs:70-111 -/
theorem capped_read_longest_iff (s : WordStorage) (lo hi max : ℕ) (h : s.mem.Aligned)
    (hword : s.lastIndex ≤ u64Max) (hlo : s.firstIndex ≤ lo) (hlt : lo < hi)
    (hhi : hi ≤ s.lastIndex + 1) :
    LongestPages (s.readEntries · hi) lo hi max ↔ s.lastIndex < u64Max := by
  constructor
  · rintro ⟨first, rest, taken, hread, -⟩
    apply Nat.lt_of_le_of_ne hword
    intro hmax
    unfold WordStorage.readEntries at hread
    dsimp only at hread
    rw [hmax, u64Add_max, if_neg (Nat.not_lt.mpr hlo), if_pos (by omega)] at hread
    cases hread
  · intro hlast
    have hfits : s.Fits := ⟨h, hlast⟩
    have hsame : (s.readEntries · hi) = (s.mem.readEntries · hi) := by
      funext lo cap
      exact hfits.readEntries_eq lo hi cap
    rw [hfits.inRange.firstIndex_eq] at hlo
    rw [hsame]
    exact h.longestPages hlo hlt hhi

/-- A log behind index 2 whose first entry is above a cap of 2 bytes, and whose last two
have no data. -/
def unevenLog : MemStorage where
  entries :=
    [⟨1, 3, [1, 2, 3], .normal⟩, ⟨1, 4, [4], .normal⟩, ⟨1, 5, [], .normal⟩, ⟨1, 6, [], .normal⟩]
  snapshot := some ⟨[], ⟨2, 1, []⟩⟩

/-- This log is aligned. -/
theorem unevenLog_aligned : unevenLog.Aligned := by
  unfold Aligned
  decide +kernel

/-- Its pages are the longest there are, as its last index is below the last of all. -/
theorem capped_read_longest_iff_unevenLog :
    LongestPages ((WordStorage.mk unevenLog).readEntries · 7) 3 7 2 ↔ 6 < u64Max :=
  capped_read_longest_iff ⟨unevenLog⟩ 3 7 2 unevenLog_aligned (by decide) (by decide) (by decide)
    (by decide)

/-- The last two entries there can be, behind a snapshot. -/
def fullLog : WordStorage where
  mem :=
    { entries := [⟨1, u64Max - 1, [7], .normal⟩, ⟨1, u64Max, [8], .normal⟩]
      snapshot := some ⟨[], ⟨u64Max - 2, 1, []⟩⟩ }

/-- The log that ends at the last of all indices is aligned. -/
theorem fullLog_aligned : fullLog.mem.Aligned := by
  unfold Aligned
  decide +kernel

/-- The first of them cannot be read, as `[MAX - 1, MAX)` is refused, and so it is with a
cap. -/
theorem full_log_unread : fullLog.mem.Aligned ∧ fullLog.firstIndex ≤ u64Max - 1 ∧
    u64Max ≤ fullLog.lastIndex + 1 ∧
    (Storage.entries (u64Max - 1) u64Max none fullLog).1 = .error (.logUnavailable u64Max) ∧
    ¬ LongestPages (fullLog.readEntries · u64Max) (u64Max - 1) u64Max 10 := by
  refine ⟨fullLog_aligned, by decide, by decide, rfl, ?_⟩
  rintro ⟨first, rest, taken, hread, -⟩
  cases hread

/-! ## The entries of a request -/

/-- What `entries` reads from the next index of a peer to the end of the log: nothing when the
index is compacted, when the index behind the log wraps around, and when the slice panics. -/
def readableFrom (s : WordStorage) (next : ℕ) : List LogEntry :=
  unwrapOr (s.readEntries next (u64Add s.lastIndex 1) none) []

/-- A range that is empty or out of reach holds nothing. -/
theorem readableFrom_of_lt {s : WordStorage} {next : ℕ} (h : s.lastIndex < next) :
    readableFrom s next = [] := by
  have hend : u64Add s.lastIndex 1 ≤ next := (Nat.mod_le _ _).trans (Nat.succ_le_of_lt h)
  unfold readableFrom WordStorage.readEntries
  dsimp only
  split
  · rfl
  · rw [if_neg (Nat.lt_irrefl _)]
    rfl

/-- A capped read takes a page of what an uncapped one returns. -/
theorem WordStorage.readEntries_capped (s : WordStorage) (lo hi max : ℕ) :
    s.readEntries lo hi (some max) = (s.readEntries lo hi none).map (page entrySize max) := by
  unfold WordStorage.readEntries
  dsimp only
  rw [takeCapped_nil]
  split
  · rfl
  · split
    · rfl
    · split
      · rfl
      · split
        · rfl
        · rfl

variable {cfg : RaftConfig} {n : RaftNodeInner WordStorage} {peer : NodeId} {pr : Progress}
  {last : ℕ} {req : AppendEntriesRequest}

/-- The only batch that goes out is the one given. -/
theorem entries_of_sendAppend {prev term : ℕ} {es : List ProtoEntry}
    (hsent : Effect.spawned (.appendEntries peer last req) ∈
      (sendAppend cfg peer prev term es (Turn.start n)).effects) : req.entries = es := by
  unfold sendAppend at hsent
  rw [Turn.emit_effects, Turn.start_effects, List.nil_append, List.mem_singleton] at hsent
  cases hsent
  rfl

/-- A snapshot is no batch. -/
theorem not_mem_sendSnapshotTo : Effect.spawned (.appendEntries peer last req) ∉
    (sendSnapshotTo cfg peer (Turn.start n)).effects := by
  rw [sendSnapshotTo_words]
  cases n.storage.mem.snapshot with
  | none => exact List.not_mem_nil
  | some snap => simp

/-- The request for a peer carries a page of what can be read for it, and there is one whenever
anything can be. -/
theorem replicateTo_page (cfg : RaftConfig) (hpr : n.sm.progress.lookup peer = some pr) :
    (∀ last req, Effect.spawned (.appendEntries peer last req) ∈
        (replicateTo cfg peer (Turn.start n)).effects →
      req.entries = (page entrySize (toU64 (cfg.maxAppendEntries * 4096))
        (readableFrom n.storage pr.nextIndex)).map logEntryToProtoEntry) ∧
    (readableFrom n.storage pr.nextIndex ≠ [] → ∃ last req,
      Effect.spawned (.appendEntries peer last req) ∈
        (replicateTo cfg peer (Turn.start n)).effects) := by
  rw [replicateTo_words cfg hpr]
  split
  · rw [WordStorage.readEntries_capped]
    unfold readableFrom
    cases n.storage.readEntries pr.nextIndex (u64Add n.storage.lastIndex 1) none with
    | ok es => exact ⟨fun last req hsent => entries_of_sendAppend hsent, fun _ => ⟨_, _, .head _⟩⟩
    | error e =>
      have hnil : ¬ ((unwrapOr (.error e) [] : List LogEntry) ≠ []) := fun hne => hne rfl
      cases e with
      | logCompacted r f =>
        exact ⟨fun last req hsent => absurd hsent not_mem_sendSnapshotTo, fun hne => absurd hne hnil⟩
      | _ => exact ⟨fun last req hsent => absurd hsent List.not_mem_nil, fun hne => absurd hne hnil⟩
  · rename_i hlt
    rw [readableFrom_of_lt (Nat.lt_of_not_le hlt)]
    exact ⟨fun last req hsent => entries_of_sendAppend hsent, fun hne => absurd rfl hne⟩

/-- **The limit on the entries of a request is a limit on bytes.**  Every AppendEntries request
for a peer has at most `max_append_entries` entries exactly when no more can be read from its
next index on, or the first `max_append_entries + 1` of them have more than 4096 bytes for
each entry allowed.
SRCLINE: iceraft-node/src/node.rs:587-614, iceraft-storage/src/mem.rs:96-110 -/
theorem entry_limit_iff (cfg : RaftConfig) (n : RaftNodeInner WordStorage) (peer : NodeId)
    (pr : Progress) (hmax : 1 ≤ cfg.maxAppendEntries)
    (hpr : n.sm.progress.lookup peer = some pr) :
    (∀ last req, Effect.spawned (.appendEntries peer last req) ∈
        (replicateTo cfg peer (Turn.start n)).effects →
      req.entries.length ≤ cfg.maxAppendEntries) ↔
      (readableFrom n.storage pr.nextIndex).length ≤ cfg.maxAppendEntries ∨
        toU64 (cfg.maxAppendEntries * 4096) <
          dataLength ((readableFrom n.storage pr.nextIndex).take (cfg.maxAppendEntries + 1)) := by
  obtain ⟨hpage, hsends⟩ := replicateTo_page cfg hpr
  rw [← length_page_le_iff entrySize _ hmax]
  constructor
  · intro hlimit
    by_cases hnil : readableFrom n.storage pr.nextIndex = []
    · rw [hnil]
      exact Nat.zero_le _
    · obtain ⟨last, req, hsent⟩ := hsends hnil
      have hlen := hlimit last req hsent
      rw [hpage last req hsent, List.length_map] at hlen
      exact hlen
  · intro hlen last req hsent
    rw [hpage last req hsent, List.length_map]
    exact hlen

/-- A leader with two entries of one byte for a peer, and one for another. -/
def smallEntriesLeader : RaftNodeInner WordStorage where
  sm :=
    { currentTerm := 1, role := .leader, leaderId := some 1,
      progress := (RaftStateMachine.freshProgress 0 [2, 3]).insert 3 ⟨2, 0, false⟩ }
  storage := ⟨{ entries := [⟨1, 1, [7], .normal⟩, ⟨1, 2, [8], .normal⟩] }⟩
  metrics := {}
  pending := []
  snapshotBuf := none

/-- Here the limit of one entry is kept, as there is only one to send. -/
theorem entry_limit_iff_smallEntriesLeader :
    (∀ last req, Effect.spawned (.appendEntries 3 last req) ∈
        (replicateTo ⟨1, [2, 3], 100, 300, 600, 1⟩ 3 (Turn.start smallEntriesLeader)).effects →
      req.entries.length ≤ 1) ↔
      (readableFrom smallEntriesLeader.storage 2).length ≤ 1 ∨
        toU64 (1 * 4096) < dataLength ((readableFrom smallEntriesLeader.storage 2).take 2) :=
  entry_limit_iff ⟨1, [2, 3], 100, 300, 600, 1⟩ smallEntriesLeader 3 ⟨2, 0, false⟩ (by decide)
    (by decide +kernel)

/-- With at most one entry for each request, two are sent. -/
theorem two_entries_sent :
    (replicateTo ⟨1, [2, 3], 100, 300, 600, 1⟩ 2 (Turn.start smallEntriesLeader)).effects =
      [.spawned (.appendEntries 2 2 ⟨1, 1, 0, 0, [⟨1, 1, [7], 0⟩, ⟨1, 2, [8], 0⟩], 0⟩)] ∧
    ¬ [(⟨1, 1, [7], 0⟩ : ProtoEntry), ⟨1, 2, [8], 0⟩].length ≤ 1 :=
  ⟨rfl, by decide⟩

end IceRaft
