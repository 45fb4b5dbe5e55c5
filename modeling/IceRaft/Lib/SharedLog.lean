import IceRaft.Lib.LeaderCompleteness
import Mathlib.Data.Nat.Find
import Mathlib.Order.Interval.Finset.Nat

/-!
# The shared log

Committed prefixes are prefixes of each other, so a replicated log has agreed on one list of
entries: the longest of them.  It only grows.  What any node has settled is a prefix of it, and
an entry that an owner writes later lies behind it.
-/

set_option autoImplicit false

namespace ReplicatedLog

open TermLog

variable {N E : Type} {R : Rules N E} {s s' : State N E} {i : N} {T n k : ℕ} {L L' : List E}

/-- `L` is what has been agreed on: it has every committed prefix, and nothing more. -/
structure Shared (R : Rules N E) (s : State N E) (L : List E) : Prop where
  covers : ∀ T n, Committed R s T n → (s.canon T).take n <+: L
  attained : L = [] ∨ ∃ T n, Committed R s T n ∧ L = (s.canon T).take n

/-- The first `k` entries of somebody's log have been committed by now. -/
def Reached (R : Rules N E) (s : State N E) (k : ℕ) : Prop :=
  k = 0 ∨ ∃ T n, Committed R s T n ∧ k ≤ n

/-- A position that is reached stays reached. -/
theorem Reached.grows (h : Reached R s k) (hg : Grows s s') : Reached R s' k :=
  h.imp_right fun ⟨T, n, hcom, hk⟩ => ⟨T, n, hcom.grows hg, hk⟩

/-- What a node has settled is reached. -/
theorem Settled.reached (h : Settled R s i n) (hk : k ≤ n) : Reached R s k := by
  rcases h with rfl | ⟨T, m, hcom, -, hm, -⟩
  · exact .inl (Nat.le_zero.mp hk)
  · exact .inr ⟨T, m, hcom, Nat.le_trans hk hm⟩

/-! ## Existence -/

/-- Only members own a term, and none beyond their own, so prefixes are of bounded length. -/
theorem committed_bounded (hi : Inv R s) (members : Finset N)
    (hmembers : ∀ c, R.eligible c → c ∈ members) :
    ∃ B, ∀ T n, Committed R s T n → n ≤ B := by
  let last := members.sup s.term
  refine ⟨(Finset.range (last + 1)).sup fun T => (s.canon T).length, fun T n hcom => ?_⟩
  obtain ⟨c, hc⟩ := Option.ne_none_iff_exists'.mp (hcom.owner_ne hi)
  have hT : T ≤ last := Nat.le_trans (hi.owner_le T c hc)
    (Finset.le_sup (f := s.term) (hmembers c (hi.owner_eligible T c hc)))
  have hlen : (s.canon T).length ≤ (Finset.range (last + 1)).sup fun T => (s.canon T).length :=
    Finset.le_sup (f := fun T => (s.canon T).length) (Finset.mem_range.mpr (Nat.lt_succ_of_le hT))
  exact Nat.le_trans hcom.le hlen

/-- Of two committed prefixes the shorter one is a prefix of the other. -/
theorem Committed.isPrefix (hi : Inv R s) (hs : Safe R s) {T' n' : ℕ} (h : Committed R s T n)
    (h' : Committed R s T' n') (hle : n ≤ n') : (s.canon T).take n <+: (s.canon T').take n' := by
  rw [h.agree hi hs h' (Nat.le_refl n) hle]
  exact take_prefix_of_le hle _

/-- The longest committed prefix has all of them. -/
theorem exists_shared (hi : Inv R s) (hs : Safe R s) (members : Finset N)
    (hmembers : ∀ c, R.eligible c → c ∈ members) : ∃ L, Shared R s L := by
  classical
  obtain ⟨B, hB⟩ := committed_bounded hi members hmembers
  by_cases hany : ∃ T n, Committed R s T n
  · obtain ⟨T, n, hcom⟩ := hany
    have hlast := Nat.findGreatest_spec (P := fun m => ∃ T, Committed R s T m) (hB T n hcom)
      ⟨T, hcom⟩
    generalize hm : Nat.findGreatest (fun m => ∃ T, Committed R s T m) B = m at hlast
    obtain ⟨T₀, hcom₀⟩ := hlast
    refine ⟨(s.canon T₀).take m, fun T' n' hcom' => ?_, .inr ⟨T₀, m, hcom₀, rfl⟩⟩
    apply hcom'.isPrefix hi hs hcom₀
    rw [← hm]
    exact Nat.le_findGreatest (hB T' n' hcom') ⟨T', hcom'⟩
  · exact ⟨[], fun T n hcom => absurd ⟨T, n, hcom⟩ hany, .inl rfl⟩

/-! ## What it says of the nodes -/

/-- It only grows. -/
theorem Shared.isPrefix_of_grows (h : Shared R s L) (h' : Shared R s' L') (hg : Grows s s') :
    L <+: L' := by
  rcases h.attained with rfl | ⟨T, n, hcom, rfl⟩
  · exact List.nil_prefix
  · rw [← hg.take_canon hcom.le]
    exact h'.covers T n (hcom.grows hg)

/-- The positions reached are those of the shared log. -/
theorem Shared.reached_iff (h : Shared R s L) : Reached R s k ↔ k ≤ L.length := by
  constructor
  · rintro (rfl | ⟨T, n, hcom, hk⟩)
    · exact Nat.zero_le _
    · have hlen := (h.covers T n hcom).length_le
      rw [List.length_take, Nat.min_eq_left hcom.le] at hlen
      exact Nat.le_trans hk hlen
  · intro hk
    rcases h.attained with rfl | ⟨T, n, hcom, rfl⟩
    · exact .inl (Nat.le_zero.mp hk)
    · rw [List.length_take, Nat.min_eq_left hcom.le] at hk
      exact .inr ⟨T, n, hcom, hk⟩

/-- What a node has settled is a prefix of the shared log. -/
theorem Shared.take_isPrefix (h : Shared R s L) (hs : Settled R s i k) :
    (s.log i).take k <+: L := by
  rcases hs with rfl | ⟨T, n, hcom, -, hk, hp⟩
  · rw [List.take_zero]
    exact List.nil_prefix
  · rw [take_eq_take_of_isPrefix hp (Nat.le_trans hk hcom.le)]
    exact (take_prefix_of_le hk _).trans (h.covers T n hcom)

/-- It is a good log, like those it is made of. -/
theorem Shared.good (hi : Inv R s) (h : Shared R s L) : Good R s L := by
  rcases h.attained with rfl | ⟨T, n, -, rfl⟩
  · exact (hi.canon_good 0).of_isPrefix List.nil_prefix
  · exact (hi.canon_good T).of_isPrefix (List.take_prefix _ _)

/-- **What comes later comes behind**: an entry that the log of its term did not reach yet when
`L` was shared has no place in `L`, whatever is shared afterwards. -/
theorem Shared.length_le_of_late (hi : Inv R s) (h : Shared R s L) (hp : L <+: L')
    (hk : k < L'.length) (hlate : (s.canon (R.stamp L'[k])).length ≤ k) : L.length ≤ k := by
  apply Nat.le_of_not_lt
  intro hlt
  rw [← hp.getElem hlt] at hlate
  have hlen := ((h.good hi).coherent k hlt).length_le
  rw [List.length_take] at hlen
  omega

end ReplicatedLog
