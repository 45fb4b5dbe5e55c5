import IceRaft.Lib.ReplicatedLog

/-!
# Leader completeness

Under the strict rules a committed prefix is part of the log of every later owner.

A node `misses` nothing by itself: what can go wrong is that some owner was elected
without a prefix that others had acknowledged.  The invariant says of every node, every
candidacy and every election that an acknowledged prefix is still there unless an
earlier owner missed it.  For a committed prefix the first owner that missed it would
have been elected by a quorum one of whose members had acknowledged it, so there is no
such owner.
-/

set_option autoImplicit false

namespace ReplicatedLog

open TermLog

variable {N E : Type} {R : Rules N E} {s s' : State N E} {i v c : N} {T T' U n : ℕ}

/-- The owner of `U` was elected without the first `n` entries of the owner of `T`. -/
def Misses (s : State N E) (T n U : ℕ) : Prop :=
  s.owner U ≠ none ∧ ¬ (s.canon T).take n <+: s.elog U

/-- What `v` has acknowledged, the log `c` stood with in `T'` contains, unless an owner
in between missed it. -/
def Carries (R : Rules N E) (s : State N E) (v : N) (T' : ℕ) (c : N) : Prop :=
  ∀ l, s.cand c T' = some l → ∀ T n, s.acked v T n → T < T' → 0 < n →
    termAt R.stamp (s.canon T) n = T →
    (s.canon T).take n <+: l ∨ ∃ U, T < U ∧ U < T' ∧ Misses s T n U

/-- The invariant of the strict rules. -/
structure Safe (R : Rules N E) (s : State N E) : Prop where
  cand_elog : ∀ T c, s.owner T = some c → s.cand c T = some (s.elog T)
  promised_le : ∀ v T c, s.promised v T c → T ≤ s.term v
  promised_cand : ∀ v T c, s.promised v T c → ∃ l, s.cand c T = some l
  kept : ∀ v T n, s.acked v T n →
    (s.canon T).take n <+: s.log v ∨ ∃ U, T < U ∧ U ≤ s.term v ∧ Misses s T n U
  promise_ok : ∀ v T c, s.promised v T c → s.owner T = none → Carries R s v T c
  electors : ∀ T c, s.owner T = some c →
    ∃ Q, R.elects Q ∧ ∀ v ∈ Q, s.promised v T c ∧ Carries R s v T c

/-! ## The records of the past do not change their meaning -/

/-- A prefix that the owner has written stays what it is. -/
theorem Grows.take_canon (hg : Grows s s') (hn : n ≤ (s.canon T).length) :
    (s'.canon T).take n = (s.canon T).take n := (take_eq_of_isPrefix (hg.canon T) hn).symm

/-- An owner elected without a prefix is so for ever. -/
theorem Grows.misses (hg : Grows s s') (hn : n ≤ (s.canon T).length) (h : Misses s T n U) :
    Misses s' T n U := by
  refine ⟨hg.owner_ne h.1, ?_⟩
  rw [hg.take_canon hn, hg.elog U h.1]
  exact h.2

/-- `Carries` survives a step that adds no acknowledgement of `v` below `T'`. -/
theorem Carries.grows (hi : Inv R s) (hg : Grows s s')
    (hc : ∀ l, s'.cand c T' = some l → s.cand c T' = some l)
    (ha : ∀ T n, T < T' → s'.acked v T n → s.acked v T n) (h : Carries R s v T' c) :
    Carries R s' v T' c := by
  intro l hl T n hack hlt hpos hterm
  have hack' := ha T n hlt hack
  have hn : n ≤ (s.canon T).length := (hi.acked_canon v T n hack').2
  rw [← termAt_of_isPrefix (hg.canon T) hn] at hterm
  rw [hg.take_canon hn]
  rcases h l (hc l hl) T n hack' hlt hpos hterm with hp | ⟨U, hU, hU', hm⟩
  · exact .inl hp
  · exact .inr ⟨U, hU, hU', hg.misses hn hm⟩

/-! ## Domination -/

/-- The log an owner was elected with is part of what it wrote. -/
theorem Inv.elog_isPrefix (hi : Inv R s) (ho : s.owner T ≠ none) : s.elog T <+: s.canon T := by
  obtain ⟨t, ht, -⟩ := hi.canon_split T ho
  rw [ht]
  exact List.prefix_append _ _

/-- A log that ends in an entry of the owner of `U` contains what that owner was elected
with. -/
theorem Inv.elog_isPrefix_of_lastTerm (hi : Inv R s) {l : List E} (hg : Good R s l)
    (hne : l ≠ []) : s.elog (lastTerm R.stamp l) <+: l := by
  have howned : s.owner (lastTerm R.stamp l) ≠ none := by
    rw [lastTerm_eq hne]
    exact hg.owned _ (List.getLast_mem hne)
  have hp : l <+: s.canon (lastTerm R.stamp l) := hg.coherent.isPrefix_canon hne
  have he := hi.elog_isPrefix howned
  rcases List.prefix_or_prefix_of_prefix he hp with h | h
  · exact h
  · -- the last entry of `l` would be older than its own stamp
    exfalso
    have hmem : l.getLast hne ∈ s.elog (lastTerm R.stamp l) := h.subset (List.getLast_mem hne)
    have hlt := hi.elog_lt _ howned _ hmem
    rw [lastTerm_eq hne] at hlt
    exact Nat.lt_irrefl _ hlt

/-- A candidate whose log is as up-to-date as one that contains an acknowledged prefix
has that prefix as well, unless an owner in between missed it. -/
theorem Inv.dominate (hi : Inv R s) {l w : List E} (hl : Good R s l) (hw : Good R s w)
    (hlt : ∀ e ∈ l, R.stamp e < T') (hu : UpToDate R.stamp l w) (ho : s.owner T ≠ none)
    (hpos : 0 < n) (hn : n ≤ (s.canon T).length)
    (hterm : termAt R.stamp (s.canon T) n = T) (hp : (s.canon T).take n <+: w) :
    (s.canon T).take n <+: l ∨ ∃ U, T < U ∧ U < T' ∧ Misses s T n U := by
  obtain ⟨c, hc⟩ := Option.ne_none_iff_exists'.mp ho
  have hT : 0 < T := hi.owner_pos T c hc
  have hlen : ((s.canon T).take n).length = n := by simp [hn]
  have hnw : n ≤ w.length := hlen ▸ hp.length_le
  -- the voter holds an entry of term `T`, so its last term is at least `T`
  have hwT : termAt R.stamp w n = T := by
    rw [← hterm, ← termAt_of_isPrefix hp (Nat.le_of_eq hlen.symm),
      termAt_of_isPrefix (List.take_prefix n _) (Nat.le_of_eq hlen.symm)]
  have hTw : T ≤ lastTerm R.stamp w := by
    have hk : n - 1 < w.length := by omega
    have hst := termAt_succ (τ := R.stamp) hk
    rw [show n - 1 + 1 = n by omega, hwT] at hst
    rw [hst]
    exact Sorted.le_lastTerm hw.sorted (List.getElem_mem hk)
  have hwl : lastTerm R.stamp w ≤ lastTerm R.stamp l := by
    rcases hu with h | ⟨h, -⟩
    · exact Nat.le_of_lt h
    · exact Nat.le_of_eq h.symm
  have hne : l ≠ [] := by
    rintro rfl
    rw [lastTerm_nil] at hwl
    omega
  have hlast := List.getLast_mem hne
  have howned : s.owner (lastTerm R.stamp l) ≠ none := by
    rw [lastTerm_eq hne]; exact hl.owned _ hlast
  have hUlt : lastTerm R.stamp l < T' := by rw [lastTerm_eq hne]; exact hlt _ hlast
  rcases Nat.lt_or_eq_of_le (Nat.le_trans hTw hwl) with hTU | hTU
  · -- the candidate ends in a later term: its owner had the prefix, or missed it
    by_cases hm : Misses s T n (lastTerm R.stamp l)
    · exact .inr ⟨_, hTU, hUlt, hm⟩
    · have hpe : (s.canon T).take n <+: s.elog (lastTerm R.stamp l) := by
        by_contra hcon
        exact hm ⟨howned, hcon⟩
      exact .inl (hpe.trans (hi.elog_isPrefix_of_lastTerm hl hne))
  · -- both end in term `T`: the candidate's log is the longer prefix of the same log
    left
    have hlw : w.length ≤ l.length := by
      rcases hu with h | ⟨-, h⟩
      · omega
      · exact h
    have hpl : l <+: s.canon T := by
      have := hl.coherent.isPrefix_canon hne
      rwa [← hTU] at this
    exact List.prefix_of_prefix_length_le (List.take_prefix n _) hpl (by omega)

/-! ## The strict steps keep the invariant -/

/-- Nothing has been promised or acknowledged at the start. -/
theorem safe_init : Safe R (State.init : State N E) where
  cand_elog := by simp [State.init]
  promised_le := by simp [State.init]
  promised_cand := by simp [State.init]
  kept := by simp [State.init]
  promise_ok := by simp [State.init]
  electors := by simp [State.init]

variable [DecidableEq N]

/-- A node that moves to a later term keeps its promises and acknowledgements. -/
theorem Safe.raise (hi : Inv R s) (hs : Safe R s) (hT : s.term i ≤ T) :
    Safe R (s.raise i T) := by
  have hg : Grows s (s.raise i T) := (Step.raise (R := R) s T hT).grows hi
  exact { hs with
    promised_le := fun v t c h => Nat.le_trans (hs.promised_le v t c h) (hg.term v)
    kept := fun v t n h => (hs.kept v t n h).imp_right fun ⟨U, h1, h2, h3⟩ =>
      ⟨U, h1, Nat.le_trans h2 (hg.term v), h3⟩ }

/-- A candidate carries what it has itself acknowledged, as it stands with its own log. -/
theorem Safe.stand (hi : Inv R s) (hs : Safe R s) (hT : s.term i < T) :
    Safe R (s.stand i T) := by
  have hg : Grows s (s.stand i T) := (Step.stand (R := R) s T hT).grows hi
  have hself : (s.stand i T).cand i T = some (s.log i) := by simp [State.stand]
  -- a candidacy that was on record is not the new one
  have hold {c : N} {t : ℕ} {l₀ : List E} (h : s.cand c t = some l₀) (l : List E)
      (h' : (s.stand i T).cand c t = some l) : s.cand c t = some l := by
    rcases State.stand_cand h' with ⟨rfl, rfl, -⟩ | h'
    · have := hi.cand_le c t l₀ h
      omega
    · exact h'
  refine {
    cand_elog := fun t c h => hg.cand c t _ (hs.cand_elog t c h)
    promised_le := fun v t c h => ?_
    promised_cand := fun v t c h => ?_
    kept := fun v t n h => ?_
    promise_ok := fun v t c h ho => ?_
    electors := fun t c h => ?_ }
  · rcases h with h | ⟨rfl, rfl, -⟩
    · exact Nat.le_trans (hs.promised_le v t c h) (hg.term v)
    · simp [State.stand]
  · rcases h with h | ⟨-, rfl, rfl⟩
    · obtain ⟨l, hl⟩ := hs.promised_cand v t c h
      exact ⟨l, hg.cand c t l hl⟩
    · exact ⟨_, hself⟩
  · refine (hs.kept v t n h).imp_right ?_
    rintro ⟨U, h1, h2, h3⟩
    exact ⟨U, h1, Nat.le_trans h2 (hg.term v), h3⟩
  · rcases h with h | ⟨rfl, rfl, rfl⟩
    · obtain ⟨l, hl⟩ := hs.promised_cand v t c h
      exact (hs.promise_ok v t c h ho).grows hi hg (hold hl) fun _ _ _ h => h
    · -- its own vote: the candidate stands with the log it has
      intro l hl T₀ n hack hlt hpos hterm
      obtain rfl : s.log c = l := Option.some.inj (hself.symm.trans hl)
      rcases hs.kept c T₀ n hack with hp | ⟨U, hU, hU', hm⟩
      · exact .inl hp
      · exact .inr ⟨U, hU, Nat.lt_of_le_of_lt hU' hT, hm⟩
  · obtain ⟨Q, hQ, hv⟩ := hs.electors t c h
    refine ⟨Q, hQ, fun v hvQ => ⟨.inl (hv v hvQ).1, ?_⟩⟩
    exact (hv v hvQ).2.grows hi hg (hold (hs.cand_elog t c h)) fun _ _ _ h => h

omit [DecidableEq N] in
/-- A promise is safe because the log of the candidate dominates that of the voter. -/
theorem Safe.promise (hi : Inv R s) (hs : Safe R s) {l : List E}
    (ho : s.owner (s.term i) = none) (hc : s.cand c (s.term i) = some l)
    (hu : UpToDate R.stamp l (s.log i)) : Safe R (s.promise i (s.term i) c) := by
  refine { hs with
    promised_le := fun v t c' h => ?_
    promised_cand := fun v t c' h => ?_
    promise_ok := fun v t c' h ho' => ?_
    electors := fun t c' h => ?_ }
  · rcases h with h | ⟨rfl, rfl, -⟩
    · exact hs.promised_le v t c' h
    · exact Nat.le_refl _
  · rcases h with h | ⟨-, rfl, rfl⟩
    · exact hs.promised_cand v t c' h
    · exact ⟨l, hc⟩
  · rcases h with h | ⟨rfl, rfl, rfl⟩
    · exact hs.promise_ok v t c' h ho'
    · intro l' hl' T₀ n hack hlt hpos hterm
      obtain rfl : l = l' := Option.some.inj (hc.symm.trans hl')
      obtain ⟨hown, hn⟩ := hi.acked_canon v T₀ n hack
      rcases hs.kept v T₀ n hack with hp | ⟨U, hU, hU', hm⟩
      · exact hi.dominate (hi.cand_good c' _ l hc) (hi.log_good v) (hi.cand_lt c' _ l hc) hu
          hown hpos hn hterm hp
      · refine .inr ⟨U, hU, Nat.lt_of_le_of_ne hU' fun heq => ?_, hm⟩
        exact hm.1 (heq ▸ ho)
  · obtain ⟨Q, hQ, hv⟩ := hs.electors t c' h
    exact ⟨Q, hQ, fun v hvQ => ⟨.inl (hv v hvQ).1, (hv v hvQ).2⟩⟩

omit [DecidableEq N] in
/-- An election is safe by the promises of its quorum. -/
theorem Safe.elect (hi : Inv R s) (hs : Safe R s) (ho : s.owner (s.term i) = none)
    (hc : ∃ l, s.cand i (s.term i) = some l)
    (hq : ∃ Q, R.elects Q ∧ ∀ v ∈ Q, s.promised v (s.term i) i) (hg : Grows s (s.elect i)) :
    Safe R (s.elect i) := by
  have howner {T : ℕ} {c : N} (h : (s.elect i).owner T = some c) :
      (T = s.term i ∧ c = i) ∨ s.owner T = some c := by
    by_cases hT : T = s.term i
    · subst hT
      simp only [State.elect, Function.update_self, Option.some.injEq] at h
      exact .inl ⟨rfl, h.symm⟩
    · right
      simpa [State.elect, hT] using h
  have hcarry {v : N} {t : ℕ} {c : N} (h : Carries R s v t c) : Carries R (s.elect i) v t c :=
    h.grows hi hg (fun _ h => h) fun _ _ _ h => h
  refine { hs with
    cand_elog := fun t c h => ?_
    kept := fun v t n h => ?_
    promise_ok := fun v t c h ho' => ?_
    electors := fun t c h => ?_ }
  · rcases howner h with ⟨rfl, rfl⟩ | h
    · obtain ⟨l, hl⟩ := hc
      have hlog := hi.cand_log c _ l hl rfl ho
      simp only [State.elect, Function.update_self]
      rw [hl, hlog]
    · rw [hg.elog t (by simp [h])]
      exact hs.cand_elog t c h
  · have hn := (hi.acked_canon v t n h).2
    rw [hg.take_canon hn]
    refine (hs.kept v t n h).imp_right ?_
    rintro ⟨U, h1, h2, h3⟩
    exact ⟨U, h1, h2, hg.misses hn h3⟩
  · have hnone : s.owner t = none := by
      by_contra hcon
      exact hg.owner_ne hcon ho'
    exact hcarry (hs.promise_ok v t c h hnone)
  · rcases howner h with ⟨rfl, rfl⟩ | h
    · obtain ⟨Q, hQ, hv⟩ := hq
      exact ⟨Q, hQ, fun v hvQ => ⟨hv v hvQ, hcarry (hs.promise_ok v _ c (hv v hvQ) ho)⟩⟩
    · obtain ⟨Q, hQ, hv⟩ := hs.electors t c h
      exact ⟨Q, hQ, fun v hvQ => ⟨(hv v hvQ).1, hcarry (hv v hvQ).2⟩⟩

/-- An owner that appends keeps every prefix. -/
theorem Safe.extend (hi : Inv R s) (hs : Safe R s) {e : E} (hg : Grows s (s.extend i e)) :
    Safe R (s.extend i e) := by
  have hlog (v : N) : s.log v <+: (s.extend i e).log v := by
    by_cases hv : v = i
    · subst hv; simp [State.extend]
    · simp [State.extend, hv]
  have hcarry {v : N} {t : ℕ} {c : N} (h : Carries R s v t c) : Carries R (s.extend i e) v t c :=
    h.grows hi hg (fun _ h => h) fun _ _ _ h => h
  refine { hs with
    kept := fun v t n h => ?_
    promise_ok := fun v t c h ho => hcarry (hs.promise_ok v t c h ho)
    electors := fun t c h => ?_ }
  · have hn := (hi.acked_canon v t n h).2
    rw [hg.take_canon hn]
    rcases hs.kept v t n h with hp | ⟨U, h1, h2, h3⟩
    · exact .inl (hp.trans (hlog v))
    · exact .inr ⟨U, h1, h2, hg.misses hn h3⟩
  · obtain ⟨Q, hQ, hv⟩ := hs.electors t c h
    exact ⟨Q, hQ, fun v hvQ => ⟨(hv v hvQ).1, hcarry (hv v hvQ).2⟩⟩

/-- Accepting a prefix of the owner's log keeps what that log shares with one's own. -/
theorem State.accept_keeps {p : List E} {m : ℕ} (hp : p <+: s.log i)
    (hc : p <+: s.canon (s.term i))
    (hm : (s.log i).length ≤ m ∨ ¬ (s.canon (s.term i)).take m <+: s.log i) :
    p <+: (s.accept i m).log i := by
  have hlog : (s.accept i m).log i = (s.canon (s.term i)).take m := by simp [State.accept]
  rw [hlog]
  by_cases hle : p.length ≤ m
  · exact List.prefix_take_iff.mpr ⟨hc, hle⟩
  · exfalso
    have hcut : (s.canon (s.term i)).take m <+: p :=
      List.prefix_of_prefix_length_le (List.take_prefix _ _) hc (by
        rw [List.length_take]; omega)
    rcases hm with h | h
    · have := hp.length_le
      omega
    · exact h (hcut.trans hp)

/-- Under the strict rules a log is replaced only by one that keeps what was acknowledged. -/
theorem Safe.accept (hi : Inv R s) (hs : Safe R s) {m : ℕ} (ho : s.owner (s.term i) ≠ none)
    (hm : (s.log i).length ≤ m ∨ ¬ (s.canon (s.term i)).take m <+: s.log i) :
    Safe R (s.accept i m) := by
  refine { hs with kept := fun v t n h => ?_ }
  rcases hs.kept v t n h with hp | hmiss
  · by_cases hv : v = i
    · subst hv
      rcases Nat.lt_or_eq_of_le (hi.acked_le v t n h) with hlt | rfl
      · -- an older prefix: the present owner has it, or missed it
        by_cases hmiss : Misses s t n (s.term v)
        · exact .inr ⟨_, hlt, Nat.le_refl _, hmiss⟩
        · have hpe : (s.canon t).take n <+: s.elog (s.term v) := by
            by_contra hcon
            exact hmiss ⟨ho, hcon⟩
          exact .inl (State.accept_keeps hp (hpe.trans (hi.elog_isPrefix ho)) hm)
      · exact .inl (State.accept_keeps hp (List.take_prefix _ _) hm)
    · left
      simpa [State.accept, hv] using hp
  · exact .inr hmiss

omit [DecidableEq N] in
/-- What a node acknowledges it holds. -/
theorem Safe.ack (hi : Inv R s) (hs : Safe R s) {n : ℕ}
    (hp : (s.canon (s.term i)).take n <+: s.log i) (hg : Grows s (s.ack i n)) :
    Safe R (s.ack i n) := by
  -- nothing acknowledged now is older than a promise
  have hcarry {v : N} {t : ℕ} {c : N} (hpr : s.promised v t c) (h : Carries R s v t c) :
      Carries R (s.ack i n) v t c := by
    apply h.grows hi hg (fun _ h => h)
    intro t₀ k hlt ha
    rcases State.ack_acked ha with ha | ⟨rfl, rfl, -⟩
    · exact ha
    · have := hs.promised_le v t c hpr
      omega
  refine { hs with
    kept := fun v t k h => ?_
    promise_ok := fun v t c h ho => hcarry h (hs.promise_ok v t c h ho)
    electors := fun t c h => ?_ }
  · rcases State.ack_acked h with h | ⟨rfl, rfl, hk⟩
    · exact hs.kept v t k h
    · exact .inl ((take_prefix_of_le hk _).trans hp)
  · obtain ⟨Q, hQ, hv⟩ := hs.electors t c h
    exact ⟨Q, hQ, fun v hvQ => ⟨(hv v hvQ).1, hcarry (hv v hvQ).1 (hv v hvQ).2⟩⟩

/-- Every strict step keeps the strict invariant. -/
theorem Step.safe (hR : R.strict) (hi : Inv R s) (hs : Safe R s) (h : Step R i s s') :
    Safe R s' := by
  have hg := h.grows hi
  cases h with
  | raise T hT => exact hs.raise hi hT
  | stand T hT => exact hs.stand hi hT
  | promise c l ho hc hu => exact hs.promise hi ho hc hu
  | elect hel hpos ho hq => exact hs.elect hi ho (hq hR).1 (hq hR).2 hg
  | extend e ho he hf => exact hs.extend hi hg
  | accept m ho hself hm hcut => exact hs.accept hi ho (hcut hR)
  | ack n ho hn hp => exact hs.ack hi hp hg

/-! ## Commitment -/

/-- The first `n` entries of the owner of `T` are committed. -/
structure Committed (R : Rules N E) (s : State N E) (T n : ℕ) : Prop where
  pos : 0 < n
  le : n ≤ (s.canon T).length
  stamp : termAt R.stamp (s.canon T) n = T
  quorum : ∃ Q, R.commits Q ∧ ∀ v ∈ Q, s.acked v T n

omit [DecidableEq N] in
/-- A committed prefix stays committed. -/
theorem Committed.grows (h : Committed R s T n) (hg : Grows s s') : Committed R s' T n where
  pos := h.pos
  le := Nat.le_trans h.le (hg.canon T).length_le
  stamp := by rw [← termAt_of_isPrefix (hg.canon T) h.le]; exact h.stamp
  quorum := by
    obtain ⟨Q, hQ, hv⟩ := h.quorum
    exact ⟨Q, hQ, fun v hvQ => hg.acked v T n (hv v hvQ)⟩

omit [DecidableEq N] in
/-- **Leader completeness**: a committed prefix is part of the log every later owner was
elected with. -/
theorem Committed.isPrefix_elog (hs : Safe R s) (h : Committed R s T n) (hlt : T < T')
    (ho : s.owner T' ≠ none) : (s.canon T).take n <+: s.elog T' := by
  induction T' using Nat.strong_induction_on with
  | _ T' ih =>
    obtain ⟨c, hc⟩ := Option.ne_none_iff_exists'.mp ho
    obtain ⟨Q, hQ, helect⟩ := hs.electors T' c hc
    obtain ⟨Q', hQ', hack⟩ := h.quorum
    obtain ⟨v, hv, hv'⟩ := R.meet Q Q' hQ hQ'
    have hcarry := (helect v hv).2 (s.elog T') (hs.cand_elog T' c hc) T n (hack v hv') hlt
      h.pos h.stamp
    rcases hcarry with hp | ⟨U, hU, hU', hm⟩
    · exact hp
    · exact absurd (ih U hU' hU hm.1) hm.2

omit [DecidableEq N] in
/-- A committed prefix is part of what every owner from its term on writes. -/
theorem Committed.isPrefix_canon (hi : Inv R s) (hs : Safe R s) (h : Committed R s T n)
    (hle : T ≤ T') (ho : s.owner T' ≠ none) : (s.canon T).take n <+: s.canon T' := by
  rcases Nat.lt_or_eq_of_le hle with hlt | rfl
  · exact (h.isPrefix_elog hs hlt ho).trans (hi.elog_isPrefix ho)
  · exact List.take_prefix _ _

omit [DecidableEq N] in
/-- A prefix is committed in an owned term only. -/
theorem Committed.owner_ne (hi : Inv R s) (h : Committed R s T n) : s.owner T ≠ none := by
  intro hnone
  have hle := h.le
  rw [hi.canon_none T hnone] at hle
  exact absurd h.pos (by simpa using hle)

omit [DecidableEq N] in
/-- What was committed in an earlier term ends before the entries of the owner's own term. -/
theorem Committed.lt_of_stamp (hi : Inv R s) (hs : Safe R s) (h : Committed R s T n)
    (hlt : T < T') {c : N} (ho : s.owner T' = some c) {k : ℕ}
    (hk : termAt R.stamp (s.canon T') k = T') : n < k := by
  have howned : s.owner T' ≠ none := by
    rw [ho]
    exact Option.some_ne_none c
  have hlen := (h.isPrefix_elog hs hlt howned).length_le
  rw [List.length_take, Nat.min_eq_left h.le] at hlen
  apply Nat.lt_of_not_le
  intro hback
  have hle : k ≤ (s.elog T').length := Nat.le_trans hback hlen
  have hbelow := termAt_lt (hi.owner_pos T' c ho) (hi.elog_lt T' howned) hle
  rw [termAt_of_isPrefix (hi.elog_isPrefix howned) hle, hk] at hbelow
  exact Nat.lt_irrefl _ hbelow

omit [DecidableEq N] in
/-- Two committed prefixes agree where both reach. -/
theorem Committed.agree (hi : Inv R s) (hs : Safe R s) {n' : ℕ} (h : Committed R s T n)
    (h' : Committed R s T' n') {k : ℕ} (hk : k ≤ n) (hk' : k ≤ n') :
    (s.canon T).take k = (s.canon T').take k := by
  wlog hle : T ≤ T' generalizing T T' n n'
  · exact (this h' h hk' hk (by omega)).symm
  have hp : (s.canon T).take n <+: s.canon T' := h.isPrefix_canon hi hs hle (h'.owner_ne hi)
  have hlen := h.le
  rw [← take_eq_of_isPrefix hp (by rw [List.length_take]; omega), List.take_take,
    Nat.min_eq_left hk]

omit [DecidableEq N] in
/-- A committed prefix is in the logs of a quorum, whatever has happened since. -/
theorem Committed.held (hs : Safe R s) (h : Committed R s T n) :
    ∃ Q, R.commits Q ∧ ∀ v ∈ Q, (s.canon T).take n <+: s.log v := by
  obtain ⟨Q, hQ, hack⟩ := h.quorum
  refine ⟨Q, hQ, ?_⟩
  intro v hv
  rcases hs.kept v T n (hack v hv) with hp | ⟨U, hlt, -, howned, hmissed⟩
  · exact hp
  · exact absurd (h.isPrefix_elog hs hlt howned) hmissed

/-- Node `i` holds `k` entries that are the first `k` of a committed prefix. -/
def Settled (R : Rules N E) (s : State N E) (i : N) (k : ℕ) : Prop :=
  k = 0 ∨ ∃ T n, Committed R s T n ∧ T ≤ s.term i ∧ k ≤ n ∧ (s.canon T).take k <+: s.log i

omit [DecidableEq N] in
/-- A node holds all it has settled. -/
theorem Settled.le_length (h : Settled R s i n) : n ≤ (s.log i).length := by
  rcases h with rfl | ⟨T, m, hcom, -, hk, hp⟩
  · exact Nat.zero_le _
  · have hlen := hp.length_le
    rw [List.length_take, Nat.min_eq_left (Nat.le_trans hk hcom.le)] at hlen
    exact hlen

omit [DecidableEq N] in
/-- Settled entries agree, wherever and whenever they are held. -/
theorem Settled.agree (hi : Inv R s) (hs : Safe R s) {n' k : ℕ} {l l' : List E}
    (h : ∃ T m, Committed R s T m ∧ n ≤ m ∧ (s.canon T).take n <+: l)
    (h' : ∃ T m, Committed R s T m ∧ n' ≤ m ∧ (s.canon T).take n' <+: l') (hk : k ≤ n)
    (hk' : k ≤ n') : l.take k = l'.take k := by
  obtain ⟨T, m, hcom, hle, hp⟩ := h
  obtain ⟨T', m', hcom', hle', hp'⟩ := h'
  have hagree := hcom.agree hi hs hcom' (Nat.le_trans hk hle) (Nat.le_trans hk' hle')
  have hlen := hcom.le
  have hlen' := hcom'.le
  rw [← take_eq_of_isPrefix hp (by rw [List.length_take]; omega),
    ← take_eq_of_isPrefix hp' (by rw [List.length_take]; omega), List.take_take, List.take_take,
    Nat.min_eq_left hk, Nat.min_eq_left hk']
  exact hagree

/-- What is settled stays settled. -/
theorem Step.settled (hR : R.strict) (hi : Inv R s) (hs : Safe R s) (h : Step R i s s')
    {v : N} {k : ℕ} (hk : Settled R s v k) : Settled R s' v k := by
  have hg := h.grows hi
  rcases hk with rfl | ⟨T, n, hcom, hT, hkn, hp⟩
  · exact .inl rfl
  refine .inr ⟨T, n, hcom.grows hg, Nat.le_trans hT (hg.term v), hkn, ?_⟩
  rw [hg.take_canon (Nat.le_trans hkn hcom.le)]
  cases h with
  | raise T hT => exact hp
  | stand T hT => exact hp
  | promise c l ho hc hu => exact hp
  | elect hel hpos ho hq => exact hp
  | extend e ho he hf =>
    by_cases hv : v = i
    · subst hv
      refine hp.trans ?_
      simp [State.extend]
    · simpa [State.extend, hv] using hp
  | accept m ho hself hm hcut =>
    by_cases hv : v = i
    · subst hv
      refine State.accept_keeps hp ?_ (hcut hR)
      exact (take_prefix_of_le hkn _).trans (hcom.isPrefix_canon hi hs hT ho)
    · simpa [State.accept, hv] using hp
  | ack n ho hn hp' => exact hp

end ReplicatedLog
