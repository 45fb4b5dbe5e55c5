import Mathlib.Data.List.Basic
import Mathlib.Data.Nat.Notation

/-!
# Logs of stamped entries

A log is a list of entries, and `τ` reads the term an entry is stamped with.  For each
term `T` the list `canon T` is the log its only writer produced.  A log is *coherent*
when each of its entries sits on the same prefix as in the log of the writer of its
term; two coherent logs that share the term of an entry therefore agree up to it.  This
is log matching, and it holds of any prefix of a coherent log, so nothing about
truncation is needed.
-/

set_option autoImplicit false

namespace TermLog

variable {E : Type}

/-- The term of the last entry, `0` for the empty log. -/
def lastTerm (τ : E → ℕ) (l : List E) : ℕ := (l.getLast?.map τ).getD 0

/-- The term of the `n`-th entry, counted from one; `0` at `n = 0` and beyond the end. -/
def termAt (τ : E → ℕ) (l : List E) (n : ℕ) : ℕ := if n = 0 then 0 else (l[n - 1]?.map τ).getD 0

/-- The log `c` is at least as up-to-date as `v`. -/
def UpToDate (τ : E → ℕ) (c v : List E) : Prop :=
  lastTerm τ v < lastTerm τ c ∨ (lastTerm τ c = lastTerm τ v ∧ v.length ≤ c.length)

/-- Every entry sits on the prefix it has in the log of its term. -/
def Coherent (τ : E → ℕ) (canon : ℕ → List E) (l : List E) : Prop :=
  ∀ i (h : i < l.length), l.take (i + 1) <+: canon (τ l[i])

variable {τ : E → ℕ} {canon : ℕ → List E} {l l₁ l₂ : List E}

/-- The terms of a log do not decrease along its indices. -/
abbrev Sorted (τ : E → ℕ) (l : List E) : Prop := l.Pairwise fun a b => τ a ≤ τ b

/-- A list and one that it is a prefix of begin alike. -/
theorem take_eq_of_isPrefix {n : ℕ} (h : l₁ <+: l₂) (hn : n ≤ l₁.length) :
    l₁.take n = l₂.take n := by
  obtain ⟨t, rfl⟩ := h
  rw [List.take_append_of_le_length hn]

/-- A shorter beginning is a prefix of a longer one. -/
theorem take_prefix_of_le {n m : ℕ} (h : n ≤ m) (l : List E) : l.take n <+: l.take m :=
  List.take_prefix_take_left h

/-- A log that continues the first `n` entries of another has them as its own. -/
theorem take_eq_take_of_isPrefix {n : ℕ} (hp : l₁.take n <+: l₂) (hn : n ≤ l₁.length) :
    l₂.take n = l₁.take n := by
  have heq := List.prefix_iff_eq_take.mp hp
  rw [List.length_take, Nat.min_eq_left hn] at heq
  exact heq.symm

/-- A prefix of a coherent log is coherent. -/
theorem Coherent.of_isPrefix (h : Coherent τ canon l₂) (hp : l₁ <+: l₂) : Coherent τ canon l₁ := by
  intro i hi
  have hi₂ : i < l₂.length := Nat.lt_of_lt_of_le hi hp.length_le
  rw [take_eq_of_isPrefix hp hi, hp.getElem hi]
  exact h i hi₂

/-- Coherence survives the growth of the logs it refers to. -/
theorem Coherent.mono {canon' : ℕ → List E} (h : Coherent τ canon l)
    (hc : ∀ e ∈ l, canon (τ e) <+: canon' (τ e)) : Coherent τ canon' l :=
  fun i hi => (h i hi).trans (hc _ (List.getElem_mem hi))

/-- **Log matching**: coherent logs that share the term of an entry agree up to it. -/
theorem Coherent.take_eq (h₁ : Coherent τ canon l₁) (h₂ : Coherent τ canon l₂) {i : ℕ}
    (hi₁ : i < l₁.length) (hi₂ : i < l₂.length) (hτ : τ l₁[i] = τ l₂[i]) :
    l₁.take (i + 1) = l₂.take (i + 1) := by
  have hp₁ := h₁ i hi₁
  rw [hτ] at hp₁
  have hlen : (l₁.take (i + 1)).length = (l₂.take (i + 1)).length := by
    simp only [List.length_take]; omega
  exact (List.prefix_of_prefix_length_le hp₁ (h₂ i hi₂) (Nat.le_of_eq hlen)).eq_of_length hlen

/-- An empty log has last term 0. -/
@[simp] theorem lastTerm_nil (τ : E → ℕ) : lastTerm τ [] = 0 := rfl

/-- The last term is that of the last entry. -/
theorem lastTerm_eq (h : l ≠ []) : lastTerm τ l = τ (l.getLast h) := by
  simp [lastTerm, List.getLast?_eq_getLast_of_ne_nil h]

/-- A non-empty coherent log is a prefix of the log of its last term. -/
theorem Coherent.isPrefix_canon (h : Coherent τ canon l) (hne : l ≠ []) :
    l <+: canon (lastTerm τ l) := by
  have hpos : 0 < l.length := List.length_pos_iff.mpr hne
  have hlast := h (l.length - 1) (by omega)
  rw [show l.length - 1 + 1 = l.length by omega, List.take_length] at hlast
  rwa [lastTerm_eq hne, List.getLast_eq_getElem hne]

/-- In a sorted log no term is above the last one. -/
theorem Sorted.le_lastTerm (h : Sorted τ l) {e : E} (he : e ∈ l) : τ e ≤ lastTerm τ l := by
  have hne : l ≠ [] := List.ne_nil_of_mem he
  rw [lastTerm_eq hne]
  obtain ⟨i, hi, rfl⟩ := List.getElem_of_mem he
  rw [List.getLast_eq_getElem hne]
  by_cases heq : i = l.length - 1
  · simp [heq]
  · exact List.pairwise_iff_getElem.mp h i (l.length - 1) hi (by omega) (by omega)

/-- Indices count from 1. -/
theorem termAt_succ {i : ℕ} (h : i < l.length) : termAt τ l (i + 1) = τ l[i] := by
  simp [termAt, h]

/-- A log and one that it is a prefix of have the same terms, as far as it goes. -/
theorem termAt_of_isPrefix {n : ℕ} (hp : l₁ <+: l₂) (hn : n ≤ l₁.length) :
    termAt τ l₁ n = termAt τ l₂ n := by
  cases n with
  | zero => rfl
  | succ i =>
    rw [termAt_succ (by omega), termAt_succ (by have := hp.length_le; omega), hp.getElem]

/-- A bound on the stamps is one on the terms. -/
theorem termAt_lt {T n : ℕ} (hpos : 0 < T) (h : ∀ e ∈ l, τ e < T) (hn : n ≤ l.length) :
    termAt τ l n < T := by
  cases n with
  | zero => exact hpos
  | succ i =>
    rw [termAt_succ (by omega)]
    exact h _ (List.getElem_mem _)

/-- The term at the end is the last term. -/
theorem termAt_length (τ : E → ℕ) (l : List E) : termAt τ l l.length = lastTerm τ l := by
  cases hl : l with
  | nil => rfl
  | cons e l' =>
    rw [List.length_cons, termAt_succ (by simp), lastTerm_eq (List.cons_ne_nil e l'),
      List.getLast_eq_getElem]
    rfl

/-- In a sorted log no term before an index is above the term at that index. -/
theorem Sorted.le_termAt (h : Sorted τ l) {n : ℕ} (hn : n ≤ l.length) {e : E}
    (he : e ∈ l.take n) : τ e ≤ termAt τ l n := by
  obtain ⟨i, hi, rfl⟩ := List.getElem_of_mem he
  rw [List.length_take] at hi
  have hlast := termAt_succ (τ := τ) (l := l) (i := n - 1) (by omega)
  rw [show n - 1 + 1 = n by omega] at hlast
  rw [List.getElem_take, hlast]
  by_cases heq : i = n - 1
  · simp [heq]
  · exact List.pairwise_iff_getElem.mp h i (n - 1) (by omega) (by omega) (by omega)

/-- In a sorted log no term behind an index is below the term at that index. -/
theorem Sorted.termAt_le (h : Sorted τ l) (n : ℕ) {e : E} (he : e ∈ l.drop n) :
    termAt τ l n ≤ τ e := by
  obtain ⟨i, hi, rfl⟩ := List.getElem_of_mem he
  rw [List.length_drop] at hi
  rw [List.getElem_drop]
  cases n with
  | zero => exact Nat.zero_le _
  | succ n =>
    rw [termAt_succ (by omega)]
    exact List.pairwise_iff_getElem.mp h n (n + 1 + i) (by omega) (by omega) (by omega)

/-- Coherent logs that share the term at `n` agree up to `n`. -/
theorem Coherent.take_eq_of_termAt (h₁ : Coherent τ canon l₁) (h₂ : Coherent τ canon l₂)
    {n : ℕ} (hn₁ : n ≤ l₁.length) (hn₂ : n ≤ l₂.length)
    (hτ : termAt τ l₁ n = termAt τ l₂ n) : l₁.take n = l₂.take n := by
  cases n with
  | zero => rfl
  | succ i =>
    rw [termAt_succ (by omega), termAt_succ (by omega)] at hτ
    exact h₁.take_eq h₂ (by omega) (by omega) hτ

end TermLog
