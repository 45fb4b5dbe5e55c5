import IceRaft.Analysis.FollowerTurns
import IceRaft.Analysis.WordLog
import IceRaft.Model.EventLoop

/-!
# What an accepted batch cuts off

`MemStorage` truncates at the first index of every batch, whether or not the log
contradicts it there.  A batch the log agrees with cuts off what lies behind its end; one that
starts below the log is put behind it, where no index finds it.
-/

set_option autoImplicit false

namespace IceRaft

open MemStorage Cluster

/-- The entries of a request, as the log stores them. -/
abbrev AppendEntriesRequest.batch (req : AppendEntriesRequest) : List LogEntry :=
  req.entries.map protoEntryToLogEntry

namespace WordStorage

/-- The entry the log holds at index `i`: from the first index to the last, by position. -/
def held (s : WordStorage) (i : ℕ) : Option LogEntry :=
  if s.firstIndex ≤ i ∧ i ≤ s.lastIndex then s.mem.entries[i - s.firstIndex]? else none

/-- Every entry of the batch whose index is held has the term and the data of the held one. -/
def AgreesWith (s : WordStorage) (batch : List LogEntry) : Prop :=
  ∀ b ∈ batch, ∀ e ∈ s.held b.index, b.term = e.term ∧ b.data = e.data

instance (s : WordStorage) (batch : List LogEntry) : Decidable (s.AgreesWith batch) :=
  inferInstanceAs (Decidable (∀ b ∈ batch, ∀ e ∈ s.held b.index, b.term = e.term ∧ b.data = e.data))

/-- The log `s'` has what `s` has: every entry held in `s` is held unchanged, what `entries` reads
at an index it reads still, and the last index is no lower. -/
structure Keeps (s s' : WordStorage) : Prop where
  held : ∀ i e, s.held i = some e → s'.held i = some e
  read : ∀ i e, s.readEntries i (u64Add i 1) none = .ok [e] →
    s'.readEntries i (u64Add i 1) none = .ok [e]
  last : s.lastIndex ≤ s'.lastIndex

/-- The sum and the difference that `append_entries` computes for the batch are in range.
SRCLINE: iceraft-storage/src/mem.rs:117-124 -/
def AppendFits (s : WordStorage) (batch : List LogEntry) : Prop :=
  ∀ head ∈ batch.head?, s.InRange ∧ (head.index ≤ s.lastIndex → s.firstIndex ≤ head.index)

/-- A batch behind index `p` with which the log grows only: it is empty; or it starts in the log
or behind it and reaches to its end, with the types of the held entries and at the indices
these name, and leaves the index behind it in range where that matters. -/
def OnlyAdds (s : WordStorage) (p : ℕ) (batch : List LogEntry) : Prop :=
  batch = [] ∨ (s.InRange ∧ (s.firstIndex ≤ p + 1 ∨ s.lastIndex ≤ p) ∧
    s.lastIndex ≤ p + batch.length ∧
    (∀ b ∈ batch, ∀ e ∈ s.held b.index, e.index = b.index ∧ e.entryType = b.entryType) ∧
    (p + batch.length < u64Max ∨ s.lastIndex = u64Max ∨ ∀ i, s.held i = none))

variable {s s' : WordStorage} {batch : List LogEntry} {p i : ℕ} {e : LogEntry}

/-- What is held, by position. -/
theorem held_eq_some_iff : s.held i = some e ↔
    s.firstIndex ≤ i ∧ i ≤ s.lastIndex ∧ s.mem.entries[i - s.firstIndex]? = some e := by
  unfold held
  split
  · rename_i hin
    exact ⟨fun he => ⟨hin.1, hin.2, he⟩, fun h => h.2.2⟩
  · rename_i hout
    exact ⟨fun he => (by cases he), fun h => absurd ⟨h.1, h.2.1⟩ hout⟩

/-- A range of one reads what is held, as long as the index behind the log is a `u64`. -/
theorem read_one_iff (hlast : s.lastIndex ≤ u64Max) :
    s.readEntries i (u64Add i 1) none = .ok [e] ↔ s.held i = some e ∧ s.lastIndex < u64Max := by
  rw [held_eq_some_iff]
  unfold readEntries
  dsimp only
  rcases Nat.lt_or_ge i u64Max with hi | hi
  · rw [u64Add_of_le hi]
    rcases Nat.lt_or_eq_of_le hlast with hroom | hmax
    · rw [u64Add_of_le hroom]
      by_cases hlo : i < s.firstIndex
      · rw [if_pos hlo]
        exact ⟨fun h => (by cases h), fun h => by omega⟩
      · rw [if_neg hlo]
        by_cases hhi : i + 1 > s.lastIndex + 1
        · rw [if_pos hhi]
          exact ⟨fun h => (by cases h), fun h => by omega⟩
        · rw [if_neg hhi, if_neg (by omega)]
          by_cases hk : i - s.firstIndex < s.mem.entries.length
          · rw [if_neg (by omega), show i + 1 - s.firstIndex - (i - s.firstIndex) = 1 by omega,
              List.drop_eq_getElem_cons hk, List.getElem?_eq_getElem hk]
            constructor
            · intro h
              injection h with h
              injection h with h
              exact ⟨⟨by omega, by omega, congrArg some h⟩, hroom⟩
            · rintro ⟨⟨-, -, h⟩, -⟩
              obtain rfl := Option.some.inj h
              rfl
          · rw [if_pos (by omega), List.getElem?_eq_none (by omega)]
            exact ⟨fun h => (by cases h), fun h => (by cases h.1.2.2)⟩
    · rw [hmax, u64Add_max]
      refine iff_of_false (fun h => ?_) fun h => absurd h.2 (Nat.lt_irrefl _)
      split at h
      · cases h
      · rw [if_pos (Nat.succ_pos i)] at h
        cases h
  · -- the end of the range wraps around, so the range is empty
    have hend : u64Add i 1 ≤ i := (toU64_le _).trans hi
    refine iff_of_false (fun h => ?_) fun h => by omega
    split at h
    · cases h
    · split at h
      · cases h
      · cases h

/-- What is read still, by what is held still. -/
theorem keeps_iff (hlast : s.lastIndex ≤ u64Max) (hlast' : s'.lastIndex ≤ u64Max) :
    s.Keeps s' ↔ (∀ i e, s.held i = some e → s'.held i = some e) ∧ s.lastIndex ≤ s'.lastIndex ∧
      (s'.lastIndex < u64Max ∨ s.lastIndex = u64Max ∨ ∀ i, s.held i = none) := by
  constructor
  · intro h
    refine ⟨h.held, h.last, ?_⟩
    by_contra hno
    obtain ⟨hfull, hno⟩ := not_or.mp hno
    obtain ⟨hroom, hsome⟩ := not_or.mp hno
    obtain ⟨i, hi⟩ := not_forall.mp hsome
    obtain ⟨e, he⟩ := Option.ne_none_iff_exists'.mp hi
    have hread := h.read i e ((read_one_iff hlast).mpr ⟨he, by omega⟩)
    exact hfull ((read_one_iff hlast').mp hread).2
  · rintro ⟨hheld, hreach, hroom⟩
    refine ⟨hheld, fun i e hread => ?_, hreach⟩
    obtain ⟨he, hlt⟩ := (read_one_iff hlast).mp hread
    refine (read_one_iff hlast').mpr ⟨hheld i e he, ?_⟩
    rcases hroom with hroom | hmax | hnone
    · exact hroom
    · omega
    · rw [hnone i] at he
      cases he

/-- The log ends with the batch. -/
theorem lastIndex_append_batch (hb : Consecutive (p + 1) batch) (hne : batch ≠ []) :
    (s.appendEntries batch).lastIndex = p + batch.length := by
  obtain ⟨head, rest, rfl, -, -⟩ := hb.cons hne
  have hlast := hb.index_getLast (List.getLast?_eq_getLast_of_ne_nil hne)
  unfold lastIndex MemStorage.lastIndex appendEntries
  dsimp only
  rw [List.getLast?_append, List.getLast?_eq_getLast_of_ne_nil hne, Option.some_or]
  dsimp only
  omega

/-- The positions of what was held, behind a batch that starts in the log or behind it. -/
theorem getElem?_append_batch (hb : Consecutive (p + 1) batch) (hne : batch ≠ [])
    (hstart : s.firstIndex ≤ p + 1 ∨ s.lastIndex ≤ p) (hlo : s.firstIndex ≤ i)
    (hhi : i ≤ s.lastIndex) (hk : i - s.firstIndex < s.mem.entries.length) :
    (s.appendEntries batch).mem.entries[i - s.firstIndex]? =
      if i ≤ p then s.mem.entries[i - s.firstIndex]? else batch[i - (p + 1)]? := by
  obtain ⟨head, rest, rfl, hhead, -⟩ := hb.cons hne
  unfold appendEntries
  dsimp only
  rw [hhead]
  by_cases hin : p + 1 ≤ s.lastIndex
  · rw [if_pos hin, u64Sub_of_le (by omega)]
    split
    · rename_i hcut
      split
      · rw [List.getElem?_append_left (by rw [List.length_take]; omega), List.getElem?_take,
          if_pos (by omega)]
      · rw [List.getElem?_append_right (by rw [List.length_take]; omega), List.length_take]
        congr 1
        omega
    · rw [if_pos (by omega), List.getElem?_append_left hk]
  · rw [if_neg hin, if_pos (by omega), List.getElem?_append_left hk]

/-- What is held stays held, behind a batch that reaches to the end of the log, exactly when
the batch repeats it. -/
theorem held_append_iff (hb : Consecutive (p + 1) batch) (hne : batch ≠ [])
    (hagree : s.AgreesWith batch) (hstart : s.firstIndex ≤ p + 1 ∨ s.lastIndex ≤ p)
    (hreach : s.lastIndex ≤ p + batch.length) :
    (∀ i e, s.held i = some e → (s.appendEntries batch).held i = some e) ↔
      ∀ b ∈ batch, ∀ e ∈ s.held b.index, e.index = b.index ∧ e.entryType = b.entryType := by
  have hfirst : (s.appendEntries batch).firstIndex = s.firstIndex := by
    unfold firstIndex
    rw [appendEntries_snapshot]
  have hlast := lastIndex_append_batch (s := s) hb hne
  constructor
  · intro hkept b hmem e he
    obtain ⟨k, hk, rfl⟩ := List.getElem_of_mem hmem
    have hindex := hb k hk
    obtain ⟨hlo, hhi, hpos⟩ := held_eq_some_iff.mp he
    have hpos' := (held_eq_some_iff.mp (hkept _ e he)).2.2
    rw [hfirst, getElem?_append_batch hb hne hstart hlo hhi (List.getElem?_eq_some_iff.mp hpos).1,
      if_neg (by omega), hindex, Nat.add_sub_cancel_left, List.getElem?_eq_getElem hk] at hpos'
    obtain rfl := Option.some.inj hpos'
    exact ⟨rfl, rfl⟩
  · intro hsame i e he
    obtain ⟨hlo, hhi, hpos⟩ := held_eq_some_iff.mp he
    refine held_eq_some_iff.mpr ⟨by omega, by omega, ?_⟩
    rw [hfirst, getElem?_append_batch hb hne hstart hlo hhi (List.getElem?_eq_some_iff.mp hpos).1]
    split
    · exact hpos
    · have hk : i - (p + 1) < batch.length := by omega
      have hindex : batch[i - (p + 1)].index = i := by
        rw [hb _ hk]
        omega
      have hheld : e ∈ s.held batch[i - (p + 1)].index := by
        rw [hindex]
        exact he
      obtain ⟨hterm, hdata⟩ := hagree _ (List.getElem_mem hk) e hheld
      obtain ⟨hindex', htype⟩ := hsame _ (List.getElem_mem hk) e hheld
      rw [List.getElem?_eq_getElem hk]
      generalize batch[i - (p + 1)] = b at hterm hdata hindex' htype
      obtain ⟨t, j, d, ty⟩ := b
      obtain ⟨t', j', d', ty'⟩ := e
      cases hterm
      cases hdata
      cases hindex'
      cases htype
      rfl

/-- An agreeing batch is appended without overflow and keeps what the log has exactly when it only
adds to it. -/
theorem appendEntries_keeps_iff (hb : Consecutive (p + 1) batch) (hagree : s.AgreesWith batch)
    (hlast : s.lastIndex ≤ u64Max) (hword : p + batch.length ≤ u64Max) :
    s.AppendFits batch ∧ s.Keeps (s.appendEntries batch) ↔ s.OnlyAdds p batch := by
  by_cases hne : batch = []
  · obtain rfl := hne
    refine iff_of_true ⟨fun head hhead => ?_, ⟨fun i e he => he, fun i e he => he, Nat.le_refl _⟩⟩
      (.inl rfl)
    cases hhead
  · have hend := lastIndex_append_batch (s := s) hb hne
    have hfits : s.AppendFits batch ↔
        s.InRange ∧ (s.firstIndex ≤ p + 1 ∨ s.lastIndex ≤ p) := by
      obtain ⟨head, rest, rfl, hhead, -⟩ := hb.cons hne
      unfold AppendFits
      constructor
      · intro h
        obtain ⟨hin, hstart⟩ := h head rfl
        exact ⟨hin, by omega⟩
      · rintro ⟨hin, hstart⟩ head' hhead'
        obtain rfl := Option.some.inj hhead'
        exact ⟨hin, by omega⟩
    rw [hfits, keeps_iff hlast (hend.trans_le hword), hend]
    unfold OnlyAdds
    constructor
    · rintro ⟨⟨hin, hstart⟩, hkept, hreach, hroom⟩
      exact .inr ⟨hin, hstart, hreach, (held_append_iff hb hne hagree hstart hreach).mp hkept, hroom⟩
    · rintro (hnil | ⟨hin, hstart, hreach, hsame, hroom⟩)
      · exact absurd hnil hne
      · exact ⟨⟨hin, hstart⟩, (held_append_iff hb hne hagree hstart hreach).mpr hsame, hreach, hroom⟩

end WordStorage

/-! ## Through the handler -/

namespace NodeTurn

variable {x : NodeTurn WordStorage} {req : AppendEntriesRequest}

/-- A previous entry that matches, or is compacted, lets the request through. -/
theorem checkPrevLog_of_passed (h : req.prevLogIndex = 0 ∨
    x.node.storage.term req.prevLogIndex = .ok req.prevLogTerm ∨
    ∃ r f, x.node.storage.term req.prevLogIndex = .error (.logCompacted r f)) :
    x.checkPrevLog req = (none, x) := by
  have hread : x.read (Storage.term req.prevLogIndex) =
    (x.node.storage.term req.prevLogIndex, x) := rfl
  unfold checkPrevLog
  split
  · rename_i hpos
    rcases h with h0 | hok | ⟨r, f, herr⟩
    · omega
    · rw [hread, hok]
      exact if_neg fun hne => hne rfl
    · rw [hread, herr]
  · rfl

/-- Nothing else does. -/
theorem passed_of_checkPrevLog (h : (x.checkPrevLog req).1 = none) : req.prevLogIndex = 0 ∨
    x.node.storage.term req.prevLogIndex = .ok req.prevLogTerm ∨
    ∃ r f, x.node.storage.term req.prevLogIndex = .error (.logCompacted r f) := by
  unfold checkPrevLog at h
  rw [show x.read (Storage.term req.prevLogIndex) =
    (x.node.storage.term req.prevLogIndex, x) from rfl] at h
  split at h
  · cases hterm : x.node.storage.term req.prevLogIndex with
    | ok t =>
      rw [hterm] at h
      dsimp only at h
      split at h
      · cases h
      · rename_i heq
        exact .inr (.inl (congrArg Except.ok (Decidable.not_not.mp heq)))
    | error e =>
      rw [hterm] at h
      cases e with
      | logCompacted r f => exact .inr (.inr ⟨r, f, rfl⟩)
      | _ => cases h
  · exact .inl (by omega)

/-- Behind the checks the storage has the batch appended, and a hard state. -/
theorem onAppendEntries_appended {W : RaftNodeInner WordStorage}
    (hterm : W.sm.currentTerm ≤ req.term) (hprev : (checkPrevLog req (Turn.start W)).1 = none) :
    ∃ hs, (onAppendEntries req (Turn.start W)).2.node.storage =
      ⟨{ (W.storage.appendEntries req.batch).mem with hardState := hs }⟩ := by
  obtain ⟨hs, hlog⟩ : ∃ hs, (descend req.term (some req.leaderId) (Turn.start W)).node.storage =
      ⟨{ W.storage.mem with hardState := hs }⟩ := by
    unfold descend
    split
    · exact ⟨_, rfl⟩
    · exact ⟨W.storage.mem.hardState, rfl⟩
  have hle : ¬ req.term < (descend req.term (some req.leaderId) (Turn.start W)).sm.currentTerm :=
    not_lt_descend_iff.mpr hterm
  unfold onAppendEntries
  dsimp only
  rw [← descend, if_neg hle]
  generalize descend req.term (some req.leaderId) (Turn.start W) = y at hlog
  have hpass : (y.modifySm fun sm => { sm with leaderId := some req.leaderId }).checkPrevLog req =
      (none, y.modifySm fun sm => { sm with leaderId := some req.leaderId }) := by
    apply checkPrevLog_of_passed
    rw [show (y.modifySm fun sm => { sm with leaderId := some req.leaderId }).node.storage =
      _ from hlog]
    exact passed_of_checkPrevLog hprev
  obtain ⟨z, happend, hz⟩ : ∃ z,
      (y.modifySm fun sm => { sm with leaderId := some req.leaderId }).appendBatch req = (.ok (), z) ∧
        z.node.storage = ⟨{ (W.storage.appendEntries req.batch).mem with hardState := hs }⟩ := by
    unfold appendBatch AppendEntriesRequest.batch
    cases req.entries with
    | nil => exact ⟨_, rfl, hlog⟩
    | cons head rest =>
      exact ⟨_, rfl, congrArg (WordStorage.appendEntries ·
        ((head :: rest).map protoEntryToLogEntry)) hlog⟩
  rw [hpass]
  dsimp only
  rw [happend]
  obtain ⟨hs', hsaved⟩ : ∃ hs', (z.advanceCommit req).node.storage =
      ⟨{ z.node.storage.mem with hardState := hs' }⟩ := by
    unfold advanceCommit
    split
    · exact ⟨_, rfl⟩
    · exact ⟨z.node.storage.mem.hardState, rfl⟩
  rw [hz] at hsaved
  exact ⟨hs', hsaved⟩

end NodeTurn

open WordStorage NodeTurn

/-- **An accepted batch that agrees with the log keeps what the log holds exactly when it
only adds to it.**
SRCLINE: iceraft-node/src/node.rs:302-368, iceraft-storage/src/mem.rs:113-131 -/
theorem agreeing_batch_kept_iff (cfg : RaftConfig) (n : RaftNodeInner WordStorage)
    (req : AppendEntriesRequest) (hterm : n.sm.currentTerm ≤ req.term)
    (hprev : (checkPrevLog req (Turn.start n)).1 = none)
    (hcons : Consecutive (req.prevLogIndex + 1) req.batch) (hagree : n.storage.AgreesWith req.batch)
    (hlast : n.storage.lastIndex ≤ u64Max)
    (hword : req.prevLogIndex + req.batch.length ≤ u64Max) :
    (n.storage.AppendFits req.batch ∧
      n.storage.Keeps (NodeTurn.run cfg (.appendEntries req) (Turn.start n)).node.storage) ↔
      n.storage.OnlyAdds req.prevLogIndex req.batch := by
  obtain ⟨hs, hstorage⟩ := onAppendEntries_appended hterm hprev
  have hsame : n.storage.Keeps (NodeTurn.run cfg (.appendEntries req) (Turn.start n)).node.storage ↔
      n.storage.Keeps (n.storage.appendEntries req.batch) := by
    show n.storage.Keeps (onAppendEntries req (Turn.start n)).2.node.storage ↔ _
    rw [hstorage]
    exact ⟨fun h => ⟨h.held, h.read, h.last⟩, fun h => ⟨h.held, h.read, h.last⟩⟩
  rw [hsame]
  exact appendEntries_keeps_iff hcons hagree hlast hword

/-- A follower that has taken two entries in one request. -/
def twoEntries : RaftNodeInner WordStorage :=
  ((Process.boot ⟨.new⟩).exec ⟨2, [1, 3], 100, 300, 600, 128⟩
    [(.appendEntries ⟨1, 1, 0, 0, [⟨1, 1, [7], 0⟩, ⟨1, 2, [8], 0⟩], 0⟩, none)]).node

/-- A batch that repeats one entry and adds one keeps the log, as it only adds. -/
theorem agreeing_batch_kept_iff_twoEntries :
    (twoEntries.storage.AppendFits [⟨1, 2, [8], .normal⟩, ⟨1, 3, [9], .normal⟩] ∧
      twoEntries.storage.Keeps (NodeTurn.run ⟨2, [1, 3], 100, 300, 600, 128⟩
        (.appendEntries ⟨1, 1, 1, 1, [⟨1, 2, [8], 0⟩, ⟨1, 3, [9], 0⟩], 2⟩)
        (Turn.start twoEntries)).node.storage) ↔
      twoEntries.storage.OnlyAdds 1 [⟨1, 2, [8], .normal⟩, ⟨1, 3, [9], .normal⟩] :=
  agreeing_batch_kept_iff _ twoEntries ⟨1, 1, 1, 1, [⟨1, 2, [8], 0⟩, ⟨1, 3, [9], 0⟩], 2⟩
    (by decide +kernel) (by decide +kernel) (by decide +kernel) (by decide +kernel)
    (by decide +kernel) (by decide)

/-- The first half of that request comes again, late: its second entry is gone. -/
theorem late_batch_truncates :
    twoEntries.sm.currentTerm = 1 ∧
      (checkPrevLog ⟨1, 1, 0, 0, [⟨1, 1, [7], 0⟩], 0⟩ (Turn.start twoEntries)).1 = none ∧
      Consecutive 1 [⟨1, 1, [7], .normal⟩] ∧
      twoEntries.storage.AgreesWith [⟨1, 1, [7], .normal⟩] ∧
      twoEntries.storage.held 2 = some ⟨1, 2, [8], .normal⟩ ∧
      (NodeTurn.run ⟨2, [1, 3], 100, 300, 600, 128⟩
        (.appendEntries ⟨1, 1, 0, 0, [⟨1, 1, [7], 0⟩], 0⟩)
        (Turn.start twoEntries)).node.storage.held 2 = none := by
  decide +kernel

end IceRaft
