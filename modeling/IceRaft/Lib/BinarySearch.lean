import Mathlib.Data.Nat.Notation
import Mathlib.Order.Bounds.Basic
import Mathlib.Order.Nat

/-!
# Binary search

A search in a half-open range for the place where a predicate stops to hold.  It needs no
order on values: when the predicate, once false, stays false, the search ends at the least
index where it is false, or at the upper end of the range.
-/

set_option autoImplicit false

/-- Halve `[lo, hi)` until nothing is left of it, going right where `below` holds. -/
def bisect (below : ℕ → Bool) (lo hi : ℕ) : ℕ :=
  if lo < hi then
    if below (lo + (hi - lo) / 2) then bisect below (lo + (hi - lo) / 2 + 1) hi
    else bisect below lo (lo + (hi - lo) / 2)
  else lo
termination_by hi - lo

variable {below : ℕ → Bool} {lo hi i : ℕ}

/-- An empty range is its own lower end. -/
theorem bisect_of_le (below : ℕ → Bool) (h : hi ≤ lo) : bisect below lo hi = lo := by
  unfold bisect
  rw [if_neg (Nat.not_lt.mpr h)]

/-- The search ends between its bounds. -/
theorem bisect_mem (below : ℕ → Bool) (h : lo ≤ hi) :
    lo ≤ bisect below lo hi ∧ bisect below lo hi ≤ hi := by
  induction lo, hi using bisect.induct below with
  | case1 lo hi hlt hmid ih =>
    have hright := ih (by omega)
    unfold bisect
    rw [if_pos hlt, if_pos hmid]
    omega
  | case2 lo hi hlt hmid ih =>
    have hleft := ih (Nat.le_add_right _ _)
    unfold bisect
    rw [if_pos hlt, if_neg hmid]
    omega
  | case3 lo hi hle =>
    rw [bisect_of_le below (Nat.le_of_not_lt hle)]
    omega

/-- In `[lo, hi)` the predicate, once false, stays false. -/
def Falls (below : ℕ → Bool) (lo hi : ℕ) : Prop :=
  ∀ i j, lo ≤ i → i ≤ j → j < hi → below j = true → below i = true

/-- The predicate holds as far as the search has gone right, and no further. -/
theorem lt_bisect_iff (hfalls : Falls below lo hi) (hlo : lo ≤ i) (hhi : i < hi) :
    i < bisect below lo hi ↔ below i = true := by
  induction lo, hi using bisect.induct below with
  | case1 lo hi hlt hmid ih =>
    unfold bisect
    rw [if_pos hlt, if_pos hmid]
    by_cases hi' : lo + (hi - lo) / 2 + 1 ≤ i
    · exact ih (fun j k hj => hfalls j k (by omega)) hi' hhi
    · have hend := bisect_mem below (show lo + (hi - lo) / 2 + 1 ≤ hi by omega)
      have hbelow := hfalls i (lo + (hi - lo) / 2) hlo (by omega) (by omega) hmid
      exact iff_of_true (by omega) hbelow
  | case2 lo hi hlt hmid ih =>
    unfold bisect
    rw [if_pos hlt, if_neg hmid]
    by_cases hi' : i < lo + (hi - lo) / 2
    · exact ih (fun j k hj hjk hk => hfalls j k hj hjk (by omega)) hlo hi'
    · have hend := bisect_mem below (show lo ≤ lo + (hi - lo) / 2 by omega)
      have habove : ¬ below i = true := by
        intro hbelow
        exact hmid (hfalls (lo + (hi - lo) / 2) i (by omega) (by omega) hhi hbelow)
      exact iff_of_false (by omega) habove
  | case3 lo hi hle => omega

/-- A search for something that is there ends at the least index where the predicate fails. -/
theorem isLeast_bisect (hfalls : Falls below lo hi) (hle : lo ≤ hi) (hhi : below hi = false) :
    IsLeast {i | lo ≤ i ∧ below i = false} (bisect below lo hi) := by
  obtain ⟨hfirst, hlast⟩ := bisect_mem below hle
  constructor
  · refine ⟨hfirst, ?_⟩
    rcases Nat.lt_or_eq_of_le hlast with hlt | heq
    · have hend := lt_bisect_iff hfalls hfirst hlt
      exact Bool.eq_false_iff.mpr fun h => Nat.lt_irrefl _ (hend.mpr h)
    · rw [heq]
      exact hhi
  · rintro i ⟨hlo, habove⟩
    apply Nat.le_of_not_lt
    intro hlt
    have hbelow := (lt_bisect_iff hfalls hlo (hlt.trans_le hlast)).mp hlt
    rw [habove] at hbelow
    cases hbelow
