import IceRaft.Lib.TermLog
import Mathlib.Data.Finset.Basic
import Mathlib.Logic.Function.Basic

/-!
# A log replicated by one writer per term

Nodes keep a term and a log.  A node may be elected the owner of its term, once per
term; the owner appends entries stamped with the term, and any other node of that term
may replace its log by a prefix of what the owner has written.  On top of that, a node
that stands in a term records its log (`cand`), a node may promise its support to a
candidate whose log is at least as up-to-date as its own, and a node may acknowledge
that it holds a prefix of the owner's log.

Two sets of rules share these steps.  Without `strict` nothing more is asked, and the
logs are coherent.  With `strict` an election needs a quorum of promises, and a log is
not cut below what it shares with the owner; then a prefix that a quorum has
acknowledged is part of the log of every later owner.
-/

set_option autoImplicit false

namespace ReplicatedLog

open TermLog

/-- The parameters: the stamp of an entry, which entry may stand at which position, who
may own a term, the quorums, and whether the strict rules apply. -/
structure Rules (N E : Type) where
  stamp : E → ℕ
  fits : ℕ → E → Prop
  eligible : N → Prop
  elects : Finset N → Prop
  commits : Finset N → Prop
  /-- the quorums that elect meet the quorums that commit -/
  meet : ∀ Q Q', elects Q → commits Q' → ∃ v, v ∈ Q ∧ v ∈ Q'
  strict : Prop

/-- The nodes, and what is on record of the past. -/
structure State (N E : Type) where
  term : N → ℕ
  log : N → List E
  /-- who was elected in a term -/
  owner : ℕ → Option N
  /-- the log the owner was elected with -/
  elog : ℕ → List E
  /-- the log of the owner as it last extended it in that term -/
  canon : ℕ → List E
  /-- the log a node stood with in a term -/
  cand : N → ℕ → Option (List E)
  /-- `promised v T c`: in term `T`, before it was owned, `v` supported `c` -/
  promised : N → ℕ → N → Prop
  /-- `acked v T n`: in term `T`, `v` confirmed the first `n` entries of the owner -/
  acked : N → ℕ → ℕ → Prop

variable {N E : Type}

/-- Nothing has happened. -/
def State.init : State N E :=
  ⟨fun _ => 0, fun _ => [], fun _ => none, fun _ => [], fun _ => [], fun _ _ => none,
    fun _ _ _ => False, fun _ _ _ => False⟩

namespace State

variable [DecidableEq N] (s : State N E)

/-- Node `i` moves to the term `T`. -/
def raise (i : N) (T : ℕ) : State N E := { s with term := Function.update s.term i T }

/-- Node `i` stands in the term `T` with its log, and supports itself. -/
def stand (i : N) (T : ℕ) : State N E :=
  { s with
    term := Function.update s.term i T
    cand := Function.update s.cand i (Function.update (s.cand i) T (some (s.log i)))
    promised := fun v t c => s.promised v t c ∨ (v = i ∧ t = T ∧ c = i) }

/-- Node `i` supports `c` in the term `T`. -/
def promise (i : N) (T : ℕ) (c : N) : State N E :=
  { s with promised := fun v t c' => s.promised v t c' ∨ (v = i ∧ t = T ∧ c' = c) }

/-- Node `i` becomes the owner of its term. -/
def elect (i : N) : State N E :=
  { s with
    owner := Function.update s.owner (s.term i) (some i)
    elog := Function.update s.elog (s.term i) (s.log i)
    canon := Function.update s.canon (s.term i) (s.log i) }

/-- The owner `i` of its term appends an entry. -/
def extend (i : N) (e : E) : State N E :=
  { s with
    log := Function.update s.log i (s.log i ++ [e])
    canon := Function.update s.canon (s.term i) (s.canon (s.term i) ++ [e]) }

/-- Node `i` takes the first `m` entries of the owner for its log. -/
def accept (i : N) (m : ℕ) : State N E :=
  { s with log := Function.update s.log i ((s.canon (s.term i)).take m) }

/-- Node `i` acknowledges the first `n` entries of the owner. -/
def ack (i : N) (n : ℕ) : State N E :=
  { s with acked := fun v t k => s.acked v t k ∨ (v = i ∧ t = s.term i ∧ k ≤ n) }

end State

variable (R : Rules N E)

/-- The steps of node `i`. -/
inductive Step [DecidableEq N] (i : N) : State N E → State N E → Prop
  | raise (s : State N E) (T : ℕ) : s.term i ≤ T → Step i s (s.raise i T)
  | stand (s : State N E) (T : ℕ) : s.term i < T → Step i s (s.stand i T)
  | promise (s : State N E) (c : N) (l : List E) : s.owner (s.term i) = none →
      s.cand c (s.term i) = some l → UpToDate R.stamp l (s.log i) →
      Step i s (s.promise i (s.term i) c)
  | elect (s : State N E) : R.eligible i → 0 < s.term i → s.owner (s.term i) = none →
      (R.strict → (∃ l, s.cand i (s.term i) = some l) ∧
        ∃ Q, R.elects Q ∧ ∀ v ∈ Q, s.promised v (s.term i) i) →
      Step i s (s.elect i)
  | extend (s : State N E) (e : E) : s.owner (s.term i) = some i → R.stamp e = s.term i →
      R.fits (s.log i).length e → Step i s (s.extend i e)
  | accept (s : State N E) (m : ℕ) : s.owner (s.term i) ≠ none → s.owner (s.term i) ≠ some i →
      m ≤ (s.canon (s.term i)).length →
      (R.strict → (s.log i).length ≤ m ∨ ¬ (s.canon (s.term i)).take m <+: s.log i) →
      Step i s (s.accept i m)
  | ack (s : State N E) (n : ℕ) : s.owner (s.term i) ≠ none →
      n ≤ (s.canon (s.term i)).length → (s.canon (s.term i)).take n <+: s.log i →
      Step i s (s.ack i n)

/-! ## Coherence -/

/-- What every log of the system satisfies. -/
structure Good (s : State N E) (l : List E) : Prop where
  coherent : Coherent R.stamp s.canon l
  owned : ∀ e ∈ l, s.owner (R.stamp e) ≠ none
  sorted : Sorted R.stamp l
  fits : ∀ k (h : k < l.length), R.fits k l[k]

/-- The invariant of the steps, strict or not. -/
structure Inv (s : State N E) : Prop where
  owner_eligible : ∀ T c, s.owner T = some c → R.eligible c
  owner_pos : ∀ T c, s.owner T = some c → 0 < T
  owner_le : ∀ T c, s.owner T = some c → T ≤ s.term c
  owner_log : ∀ T c, s.owner T = some c → s.term c = T → s.log c = s.canon T
  canon_none : ∀ T, s.owner T = none → s.canon T = []
  log_good : ∀ v, Good R s (s.log v)
  log_le : ∀ v, ∀ e ∈ s.log v, R.stamp e ≤ s.term v
  canon_good : ∀ T, Good R s (s.canon T)
  canon_le : ∀ T, ∀ e ∈ s.canon T, R.stamp e ≤ T
  canon_split : ∀ T, s.owner T ≠ none →
    ∃ t, s.canon T = s.elog T ++ t ∧ ∀ e ∈ t, R.stamp e = T
  elog_lt : ∀ T, s.owner T ≠ none → ∀ e ∈ s.elog T, R.stamp e < T
  cand_le : ∀ c T l, s.cand c T = some l → T ≤ s.term c
  cand_good : ∀ c T l, s.cand c T = some l → Good R s l
  cand_lt : ∀ c T l, s.cand c T = some l → ∀ e ∈ l, R.stamp e < T
  cand_log : ∀ c T l, s.cand c T = some l → s.term c = T → s.owner T = none → s.log c = l
  acked_le : ∀ v T n, s.acked v T n → T ≤ s.term v
  acked_canon : ∀ v T n, s.acked v T n → s.owner T ≠ none ∧ n ≤ (s.canon T).length
  acked_down : ∀ v T n k, s.acked v T n → k ≤ n → s.acked v T k

/-- How the records of the past change: they only grow. -/
structure Grows (s s' : State N E) : Prop where
  term : ∀ v, s.term v ≤ s'.term v
  owner : ∀ T c, s.owner T = some c → s'.owner T = some c
  elog : ∀ T, s.owner T ≠ none → s'.elog T = s.elog T
  canon : ∀ T, s.canon T <+: s'.canon T
  cand : ∀ c T l, s.cand c T = some l → s'.cand c T = some l
  promised : ∀ v T c, s.promised v T c → s'.promised v T c
  acked : ∀ v T n, s.acked v T n → s'.acked v T n

variable {R} {s s' : State N E} {i : N}

/-- A state is a continuation of itself. -/
theorem Grows.refl (s : State N E) : Grows s s where
  term _ := Nat.le_refl _
  owner _ _ h := h
  elog _ _ := rfl
  canon _ := List.prefix_refl _
  cand _ _ _ h := h
  promised _ _ _ h := h
  acked _ _ _ h := h

/-- A term that is owned stays owned. -/
theorem Grows.owner_ne (h : Grows s s') {T : ℕ} (ho : s.owner T ≠ none) :
    s'.owner T ≠ none := by
  obtain ⟨c, hc⟩ := Option.ne_none_iff_exists'.mp ho
  rw [h.owner T c hc]
  exact Option.some_ne_none c

/-- Continuations compose. -/
theorem Grows.trans {t : State N E} (h : Grows s s') (h' : Grows s' t) : Grows s t where
  term v := Nat.le_trans (h.term v) (h'.term v)
  owner T c ho := h'.owner T c (h.owner T c ho)
  elog T ho := by rw [h'.elog T (h.owner_ne ho), h.elog T ho]
  canon T := (h.canon T).trans (h'.canon T)
  cand c T l hc := h'.cand c T l (h.cand c T l hc)
  promised v T c hp := h'.promised v T c (h.promised v T c hp)
  acked v T n ha := h'.acked v T n (h.acked v T n ha)

/-- A good log stays good. -/
theorem Good.grows {l : List E} (h : Good R s l) (hg : Grows s s') : Good R s' l where
  coherent := h.coherent.mono fun _ _ => hg.canon _
  owned e he := hg.owner_ne (h.owned e he)
  sorted := h.sorted
  fits := h.fits

/-- A prefix of a good log is good. -/
theorem Good.of_isPrefix {l l' : List E} (h : Good R s l) (hp : l' <+: l) : Good R s l' where
  coherent := h.coherent.of_isPrefix hp
  owned e he := h.owned e (hp.subset he)
  sorted := h.sorted.sublist hp.sublist
  fits k hk := by
    rw [hp.getElem hk]
    exact h.fits k (Nat.lt_of_lt_of_le hk hp.length_le)

/-- The invariant holds before anything has happened. -/
theorem inv_init : Inv R (State.init : State N E) where
  owner_eligible := by simp [State.init]
  owner_pos := by simp [State.init]
  owner_le := by simp [State.init]
  owner_log := by simp [State.init]
  canon_none := by simp [State.init]
  log_good v := ⟨by simp [State.init, Coherent], by simp [State.init], by simp [State.init],
    by simp [State.init]⟩
  log_le := by simp [State.init]
  canon_good T := ⟨by simp [State.init, Coherent], by simp [State.init], by simp [State.init],
    by simp [State.init]⟩
  canon_le := by simp [State.init]
  canon_split := by simp [State.init]
  elog_lt := by simp [State.init]
  cand_le := by simp [State.init]
  cand_good := by simp [State.init]
  cand_lt := by simp [State.init]
  cand_log := by simp [State.init]
  acked_le := by simp [State.init]
  acked_canon := by simp [State.init]
  acked_down := by simp [State.init]

/-- A good log followed by an entry of the owner, who holds exactly that log. -/
theorem Good.concat {l : List E} {e : E} (h : Good R s l) (hc : s.canon (R.stamp e) = l ++ [e])
    (ho : s.owner (R.stamp e) ≠ none) (hle : ∀ e' ∈ l, R.stamp e' ≤ R.stamp e)
    (hf : R.fits l.length e) : Good R s (l ++ [e]) where
  coherent k hk := by
    rcases Nat.lt_succ_iff_lt_or_eq.mp (by simpa using hk) with hlt | rfl
    · rw [List.take_append_of_le_length hlt, List.getElem_append_left hlt]
      exact h.coherent k hlt
    · rw [List.getElem_concat_length rfl, hc, List.take_of_length_le (by simp)]
  owned e' he' := by
    rcases List.mem_append.mp he' with hm | hm
    · exact h.owned e' hm
    · rw [List.mem_singleton.mp hm]; exact ho
  sorted := by
    refine List.pairwise_append.mpr ⟨h.sorted, List.pairwise_singleton _ _, ?_⟩
    intro a ha b hb
    rw [List.mem_singleton.mp hb]
    exact hle a ha
  fits k hk := by
    rcases Nat.lt_succ_iff_lt_or_eq.mp (by simpa using hk) with hlt | rfl
    · rw [List.getElem_append_left hlt]
      exact h.fits k hlt
    · rw [List.getElem_concat_length rfl]
      exact hf

variable [DecidableEq N]

/-- The records only grow. -/
theorem Step.grows (hi : Inv R s) (h : Step R i s s') : Grows s s' := by
  cases h with
  | raise T hT =>
    refine { Grows.refl s with term := fun v => ?_ }
    by_cases hv : v = i
    · subst hv; simpa [State.raise] using hT
    · simp [State.raise, hv]
  | stand T hT =>
    refine { Grows.refl s with
      term := fun v => ?_, cand := fun c t l hc => ?_, promised := fun v t c hp => .inl hp }
    · by_cases hv : v = i
      · subst hv; simpa [State.stand] using hT.le
      · simp [State.stand, hv]
    · by_cases hci : c = i
      · subst hci
        have hle := hi.cand_le c t l hc
        have hne : t ≠ T := by omega
        simpa [State.stand, hne] using hc
      · simpa [State.stand, hci] using hc
  | promise c l ho hc hu => exact { Grows.refl s with promised := fun v t c hp => .inl hp }
  | elect hel hpos ho hq =>
    refine { Grows.refl s with
      owner := fun T c hc => ?_, elog := fun T hT => ?_, canon := fun T => ?_ }
    · have hne : T ≠ s.term i := by rintro rfl; simp [ho] at hc
      simpa [State.elect, hne] using hc
    · have hne : T ≠ s.term i := by rintro rfl; exact hT ho
      simp [State.elect, hne]
    · by_cases hT : T = s.term i
      · subst hT; simp [State.elect, hi.canon_none _ ho]
      · simp [State.elect, hT]
  | extend e ho he hf =>
    refine { Grows.refl s with canon := fun T => ?_ }
    by_cases hT : T = s.term i
    · subst hT; simp [State.extend]
    · simp [State.extend, hT]
  | accept m ho hi' hm hs => exact { Grows.refl s with }
  | ack n ho hn hp => exact { Grows.refl s with acked := fun v t k hk => .inl hk }

/-! ## The steps keep the invariant -/

/-- A step of `i` leaves the other nodes alone. -/
theorem Step.other (h : Step R i s s') {v : N} (hv : v ≠ i) :
    s'.log v = s.log v ∧ s'.term v = s.term v ∧ ∀ T, s'.owner T = some v → s.owner T = some v := by
  cases h with
  | raise T hT => exact ⟨rfl, by simp [State.raise, hv], fun _ h => h⟩
  | stand T hT => exact ⟨rfl, by simp [State.stand, hv], fun _ h => h⟩
  | promise c l ho hc hu => exact ⟨rfl, rfl, fun _ h => h⟩
  | elect hel hpos ho hq =>
    refine ⟨rfl, rfl, ?_⟩
    intro T h
    by_cases hT : T = s.term i
    · subst hT
      simp only [State.elect, Function.update_self, Option.some.injEq] at h
      exact absurd h.symm hv
    · simpa [State.elect, hT] using h
  | extend e ho he hf => exact ⟨by simp [State.extend, hv], rfl, fun _ h => h⟩
  | accept m ho hi' hm hs => exact ⟨by simp [State.accept, hv], rfl, fun _ h => h⟩
  | ack n ho hn hp => exact ⟨rfl, rfl, fun _ h => h⟩

/-- A later term of a node moves no log. -/
theorem Inv.raise (hi : Inv R s) {T : ℕ} (hT : s.term i ≤ T) : Inv R (s.raise i T) := by
  have hg : Grows s (s.raise i T) := (Step.raise (R := R) s T hT).grows hi
  have hterm (v : N) : s.term v ≤ (s.raise i T).term v := hg.term v
  -- a term that reaches a bound it already had has not moved
  have hback (v : N) {T' : ℕ} (h : T' ≤ s.term v) (h' : (s.raise i T).term v = T') :
      s.term v = T' := Nat.le_antisymm (h' ▸ hterm v) h
  exact { hi with
    owner_le := fun T' c h => Nat.le_trans (hi.owner_le T' c h) (hterm c)
    owner_log := fun T' c h h' => hi.owner_log T' c h (hback c (hi.owner_le T' c h) h')
    log_good := fun v => (hi.log_good v).grows hg
    log_le := fun v e he => Nat.le_trans (hi.log_le v e he) (hterm v)
    canon_good := fun T' => (hi.canon_good T').grows hg
    cand_le := fun c T' l h => Nat.le_trans (hi.cand_le c T' l h) (hterm c)
    cand_good := fun c T' l h => (hi.cand_good c T' l h).grows hg
    cand_log := fun c T' l h h' ho =>
      hi.cand_log c T' l h (hback c (hi.cand_le c T' l h) h') ho
    acked_le := fun v T' n h => Nat.le_trans (hi.acked_le v T' n h) (hterm v) }

/-- The record of candidacies after `i` stood in `T`. -/
theorem State.stand_cand {T : ℕ} {c : N} {T' : ℕ} {l : List E}
    (h : (s.stand i T).cand c T' = some l) :
    (c = i ∧ T' = T ∧ l = s.log i) ∨ s.cand c T' = some l := by
  by_cases hc : c = i
  · subst hc
    by_cases hT : T' = T
    · subst hT
      left
      simpa [State.stand, eq_comm] using h
    · right
      simpa [State.stand, hT] using h
  · right
    simpa [State.stand, hc] using h

/-- A candidacy moves no log. -/
theorem Inv.stand (hi : Inv R s) {T : ℕ} (hT : s.term i < T) : Inv R (s.stand i T) := by
  have hg : Grows s (s.stand i T) := (Step.stand (R := R) s T hT).grows hi
  have hself : (s.stand i T).term i = T := by simp [State.stand]
  have hback (v : N) {T' : ℕ} (h : T' ≤ s.term v) (h' : (s.stand i T).term v = T') :
      s.term v = T' := Nat.le_antisymm (h' ▸ hg.term v) h
  refine { hi with
    owner_le := fun T' c h => Nat.le_trans (hi.owner_le T' c h) (hg.term c)
    owner_log := fun T' c h h' => hi.owner_log T' c h (hback c (hi.owner_le T' c h) h')
    log_good := fun v => (hi.log_good v).grows hg
    log_le := fun v e he => Nat.le_trans (hi.log_le v e he) (hg.term v)
    canon_good := fun T' => (hi.canon_good T').grows hg
    acked_le := fun v T' n h => Nat.le_trans (hi.acked_le v T' n h) (hg.term v)
    cand_le := fun c T' l h => ?_
    cand_good := fun c T' l h => ?_
    cand_lt := fun c T' l h => ?_
    cand_log := fun c T' l h h' ho => ?_ }
  · rcases State.stand_cand h with ⟨rfl, rfl, -⟩ | h
    · exact Nat.le_of_eq hself.symm
    · exact Nat.le_trans (hi.cand_le c T' l h) (hg.term c)
  · rcases State.stand_cand h with ⟨rfl, -, rfl⟩ | h
    · exact (hi.log_good c).grows hg
    · exact (hi.cand_good c T' l h).grows hg
  · rcases State.stand_cand h with ⟨rfl, rfl, rfl⟩ | h
    · exact fun e he => Nat.lt_of_le_of_lt (hi.log_le c e he) hT
    · exact hi.cand_lt c T' l h
  · rcases State.stand_cand h with ⟨rfl, -, rfl⟩ | h
    · rfl
    · exact hi.cand_log c T' l h (hback c (hi.cand_le c T' l h) h') ho

omit [DecidableEq N] in
/-- A new owner starts with its own log, which is coherent with all the others. -/
theorem Inv.elect (hi : Inv R s) (hel : R.eligible i) (hpos : 0 < s.term i)
    (ho : s.owner (s.term i) = none)
    (hg : Grows s (s.elect i)) : Inv R (s.elect i) := by
  have hne {T : ℕ} (h : T ≠ s.term i) :
      (s.elect i).owner T = s.owner T ∧ (s.elect i).canon T = s.canon T ∧
        (s.elect i).elog T = s.elog T := by simp [State.elect, h]
  have hown : (s.elect i).owner (s.term i) = some i := by simp [State.elect]
  have hcan : (s.elect i).canon (s.term i) = s.log i := by simp [State.elect]
  have helog : (s.elect i).elog (s.term i) = s.log i := by simp [State.elect]
  have howner {T : ℕ} {c : N} (h : (s.elect i).owner T = some c) :
      (T = s.term i ∧ c = i) ∨ (T ≠ s.term i ∧ s.owner T = some c) := by
    by_cases hT : T = s.term i
    · subst hT; rw [hown] at h; exact .inl ⟨rfl, (Option.some.inj h).symm⟩
    · exact .inr ⟨hT, (hne hT).1 ▸ h⟩
  refine { hi with
    owner_eligible := fun T c h => ?_
    owner_pos := fun T c h => ?_
    owner_le := fun T c h => ?_
    owner_log := fun T c h h' => ?_
    canon_none := fun T h => ?_
    log_good := fun v => (hi.log_good v).grows hg
    canon_good := fun T => ?_
    canon_le := fun T => ?_
    canon_split := fun T h => ?_
    elog_lt := fun T h => ?_
    cand_good := fun c T l h => (hi.cand_good c T l h).grows hg
    cand_log := fun c T l h h' hn => ?_
    acked_canon := fun v T n h => ?_ }
  · rcases howner h with ⟨-, rfl⟩ | ⟨-, h⟩
    · exact hel
    · exact hi.owner_eligible T c h
  · rcases howner h with ⟨rfl, -⟩ | ⟨-, h⟩
    · exact hpos
    · exact hi.owner_pos T c h
  · rcases howner h with ⟨rfl, rfl⟩ | ⟨-, h⟩
    · exact Nat.le_refl _
    · exact hi.owner_le T c h
  · rcases howner h with ⟨rfl, rfl⟩ | ⟨hT, h⟩
    · exact hcan.symm
    · rw [(hne hT).2.1]; exact hi.owner_log T c h h'
  · have hT : T ≠ s.term i := by rintro rfl; simp [hown] at h
    rw [(hne hT).2.1]
    exact hi.canon_none T ((hne hT).1 ▸ h)
  · by_cases hT : T = s.term i
    · rw [hT, hcan]; exact (hi.log_good i).grows hg
    · rw [(hne hT).2.1]; exact (hi.canon_good T).grows hg
  · by_cases hT : T = s.term i
    · rw [hT, hcan]; exact hi.log_le i
    · rw [(hne hT).2.1]; exact hi.canon_le T
  · by_cases hT : T = s.term i
    · rw [hT, hcan, helog]; exact ⟨[], by simp, by simp⟩
    · rw [(hne hT).2.1, (hne hT).2.2]; exact hi.canon_split T ((hne hT).1 ▸ h)
  · by_cases hT : T = s.term i
    · -- nothing was stamped with the term before it was owned
      rw [hT, helog]
      intro e he
      apply Nat.lt_of_le_of_ne (hi.log_le i e he)
      intro heq
      exact (hi.log_good i).owned e he (heq ▸ ho)
    · rw [(hne hT).2.2]; exact hi.elog_lt T ((hne hT).1 ▸ h)
  · have hT : T ≠ s.term i := by rintro rfl; simp [hown] at hn
    exact hi.cand_log c T l h h' ((hne hT).1 ▸ hn)
  · obtain ⟨hoT, hn⟩ := hi.acked_canon v T n h
    exact ⟨hg.owner_ne hoT, Nat.le_trans hn (hg.canon T).length_le⟩

/-- The log and the record of an owner grow by the same entry. -/
theorem Inv.extend (hi : Inv R s) {e : E} (ho : s.owner (s.term i) = some i)
    (he : R.stamp e = s.term i) (hf : R.fits (s.log i).length e)
    (hg : Grows s (s.extend i e)) : Inv R (s.extend i e) := by
  have hlog : s.log i = s.canon (s.term i) := hi.owner_log _ i ho rfl
  have hown : s.owner (s.term i) ≠ none := by simp [ho]
  have hcan : (s.extend i e).canon (s.term i) = s.log i ++ [e] := by simp [State.extend, hlog]
  have hne {T : ℕ} (h : T ≠ s.term i) : (s.extend i e).canon T = s.canon T := by
    simp [State.extend, h]
  have hself : (s.extend i e).log i = s.log i ++ [e] := by simp [State.extend]
  have hother {v : N} (h : v ≠ i) : (s.extend i e).log v = s.log v := by simp [State.extend, h]
  have hgood : Good R (s.extend i e) (s.log i ++ [e]) := by
    refine ((hi.log_good i).grows hg).concat (by rw [he, hcan]) (by rw [he]; exact hown) ?_ hf
    rw [he]
    exact hi.log_le i
  have hle : ∀ e' ∈ s.log i ++ [e], R.stamp e' ≤ s.term i := by
    intro e' he'
    rcases List.mem_append.mp he' with hm | hm
    · exact hi.log_le i e' hm
    · rw [List.mem_singleton.mp hm]; exact Nat.le_of_eq he
  refine { hi with
    owner_log := fun T c h h' => ?_
    canon_none := fun T h => ?_
    log_good := fun v => ?_
    log_le := fun v => ?_
    canon_good := fun T => ?_
    canon_le := fun T => ?_
    canon_split := fun T h => ?_
    cand_good := fun c T l h => (hi.cand_good c T l h).grows hg
    cand_log := fun c T l h h' hn => ?_
    acked_canon := fun v T n h => ?_ }
  · by_cases hc : c = i
    · subst hc
      have hT : T = s.term c := h'.symm
      rw [hT, hself, hcan]
    · have hT : T ≠ s.term i := by rintro rfl; exact hc (Option.some.inj (h.symm.trans ho))
      rw [hother hc, hne hT]
      exact hi.owner_log T c h h'
  · have hT : T ≠ s.term i := by rintro rfl; exact hown h
    rw [hne hT]
    exact hi.canon_none T h
  · by_cases hv : v = i
    · rw [hv, hself]; exact hgood
    · rw [hother hv]; exact (hi.log_good v).grows hg
  · by_cases hv : v = i
    · rw [hv, hself]; exact hle
    · rw [hother hv]; exact hi.log_le v
  · by_cases hT : T = s.term i
    · rw [hT, hcan]; exact hgood
    · rw [hne hT]; exact (hi.canon_good T).grows hg
  · by_cases hT : T = s.term i
    · rw [hT, hcan]; exact hle
    · rw [hne hT]; exact hi.canon_le T
  · by_cases hT : T = s.term i
    · subst hT
      obtain ⟨t, ht, hst⟩ := hi.canon_split _ hown
      refine ⟨t ++ [e], ?_, ?_⟩
      · rw [hcan, hlog, ht, List.append_assoc]; rfl
      · intro e' he'
        rcases List.mem_append.mp he' with hm | hm
        · exact hst e' hm
        · rw [List.mem_singleton.mp hm]; exact he
    · rw [hne hT]; exact hi.canon_split T h
  · have hc : c ≠ i := by
      rintro rfl
      exact hown (h' ▸ hn)
    rw [hother hc]
    exact hi.cand_log c T l h h' hn
  · obtain ⟨hoT, hn⟩ := hi.acked_canon v T n h
    exact ⟨hoT, Nat.le_trans hn (hg.canon T).length_le⟩

/-- A prefix of what the owner wrote is as good a log as the whole. -/
theorem Inv.accept (hi : Inv R s) {m : ℕ} (ho : s.owner (s.term i) ≠ none)
    (hself : s.owner (s.term i) ≠ some i) (hg : Grows s (s.accept i m)) :
    Inv R (s.accept i m) := by
  have hlog : (s.accept i m).log i = (s.canon (s.term i)).take m := by simp [State.accept]
  have hother {v : N} (h : v ≠ i) : (s.accept i m).log v = s.log v := by simp [State.accept, h]
  refine { hi with
    owner_log := fun T c h h' => ?_
    log_good := fun v => ?_
    log_le := fun v => ?_
    canon_good := fun T => (hi.canon_good T).grows hg
    cand_good := fun c T l h => (hi.cand_good c T l h).grows hg
    cand_log := fun c T l h h' hn => ?_ }
  · have hc : c ≠ i := by rintro rfl; exact hself (h' ▸ h)
    rw [hother hc]
    exact hi.owner_log T c h h'
  · by_cases hv : v = i
    · rw [hv, hlog]
      exact ((hi.canon_good _).of_isPrefix (List.take_prefix _ _)).grows hg
    · rw [hother hv]; exact (hi.log_good v).grows hg
  · by_cases hv : v = i
    · rw [hv, hlog]
      exact fun e he => hi.canon_le _ e (List.mem_of_mem_take he)
    · rw [hother hv]; exact hi.log_le v
  · have hc : c ≠ i := by rintro rfl; exact ho (h' ▸ hn)
    rw [hother hc]
    exact hi.cand_log c T l h h' hn

omit [DecidableEq N] in
/-- The record of acknowledgements after `i` confirmed `n` entries. -/
theorem State.ack_acked {n : ℕ} {v : N} {T k : ℕ} (h : (s.ack i n).acked v T k) :
    s.acked v T k ∨ (v = i ∧ T = s.term i ∧ k ≤ n) := h

omit [DecidableEq N] in
/-- An acknowledgement names a prefix of what the owner wrote. -/
theorem Inv.ack (hi : Inv R s) {n : ℕ} (ho : s.owner (s.term i) ≠ none)
    (hn : n ≤ (s.canon (s.term i)).length) (hg : Grows s (s.ack i n)) : Inv R (s.ack i n) := by
  refine { hi with
    log_good := fun v => (hi.log_good v).grows hg
    canon_good := fun T => (hi.canon_good T).grows hg
    cand_good := fun c T l h => (hi.cand_good c T l h).grows hg
    acked_le := fun v T k h => ?_
    acked_canon := fun v T k h => ?_
    acked_down := fun v T k j h hj => ?_ }
  · rcases State.ack_acked h with h | ⟨rfl, rfl, -⟩
    · exact hi.acked_le v T k h
    · exact Nat.le_refl _
  · rcases State.ack_acked h with h | ⟨rfl, rfl, hk⟩
    · exact hi.acked_canon v T k h
    · exact ⟨ho, Nat.le_trans hk hn⟩
  · rcases State.ack_acked h with h | ⟨rfl, rfl, hk⟩
    · exact .inl (hi.acked_down v T k j h hj)
    · exact .inr ⟨rfl, rfl, Nat.le_trans hj hk⟩

/-- Every step keeps the invariant. -/
theorem Step.inv (hi : Inv R s) (h : Step R i s s') : Inv R s' := by
  have hg := h.grows hi
  cases h with
  | raise T hT => exact hi.raise hT
  | stand T hT => exact hi.stand hT
  | promise c l ho hc hu =>
    exact { hi with
      log_good := fun v => (hi.log_good v).grows hg
      canon_good := fun T => (hi.canon_good T).grows hg
      cand_good := fun c T l h => (hi.cand_good c T l h).grows hg }
  | elect hel hpos ho hq => exact hi.elect hel hpos ho hg
  | extend e ho he hf => exact hi.extend ho he hf hg
  | accept m ho hself hm hs => exact hi.accept ho hself hg
  | ack n ho hn hp => exact hi.ack ho hn hg

end ReplicatedLog
