import Mathlib.Data.Nat.Notation
import Mathlib.Order.Bounds.Basic
import Mathlib.Order.Nat

/-!
# Downward scans

A scan walks down from an upper index until a predicate holds, and gives up at a lower
bound.  What it finds is the greatest index of the range at which the predicate holds.
-/

set_option autoImplicit false

/-- The first index, walking down from the given one, at which `p` holds; the walk ends at
`lo`, which is not looked at. -/
def scanDown (p : ℕ → Prop) [DecidablePred p] (lo : ℕ) : ℕ → Option ℕ
  | 0 => none
  | n + 1 => if n + 1 > lo then (if p (n + 1) then some (n + 1) else scanDown p lo n) else none

variable {p : ℕ → Prop} [DecidablePred p] {lo n m : ℕ}

/-- What a scan looks for. -/
abbrev ScanRange (p : ℕ → Prop) (lo n : ℕ) : Set ℕ := {k | lo < k ∧ k ≤ n ∧ p k}

/-- A scan that finds nothing has looked at the whole range. -/
theorem scanDown_eq_none (h : scanDown p lo n = none) : ScanRange p lo n = ∅ := by
  rw [Set.eq_empty_iff_forall_notMem]
  induction n with
  | zero =>
    rintro k ⟨hlo, hle, -⟩
    omega
  | succ n ih =>
    unfold scanDown at h
    rintro k ⟨hlo, hle, hk⟩
    split at h
    · split at h
      · cases h
      · rename_i hp
        rcases Nat.lt_or_eq_of_le hle with hlt | rfl
        · exact ih h k ⟨hlo, Nat.le_of_lt_succ hlt, hk⟩
        · exact hp hk
    · omega

/-- What a scan finds is the greatest of its range. -/
theorem scanDown_eq_some (h : scanDown p lo n = some m) : IsGreatest (ScanRange p lo n) m := by
  induction n with
  | zero => cases h
  | succ n ih =>
    unfold scanDown at h
    split at h
    · rename_i hlo
      split at h
      · rename_i hp
        obtain rfl := Option.some.inj h
        exact ⟨⟨hlo, Nat.le_refl _, hp⟩, fun k hk => hk.2.1⟩
      · rename_i hp
        obtain ⟨⟨hlom, hle, hm⟩, hmax⟩ := ih h
        refine ⟨⟨hlom, Nat.le_succ_of_le hle, hm⟩, ?_⟩
        intro k hk
        rcases Nat.lt_or_eq_of_le hk.2.1 with hlt | rfl
        · exact hmax ⟨hk.1, Nat.le_of_lt_succ hlt, hk.2.2⟩
        · exact absurd hk.2.2 hp
    · cases h
