import Mathlib.Algebra.GroupWithZero.Nat
import Mathlib.Data.List.Infix

/-!
# Prefixes under a cap

A page of a list is what a greedy loop takes from its front while the total size stays
within a cap; it takes the first element whatever its size.  So a page is the longest
prefix within the cap when the first element fits, and that element alone when it does
not, and turning pages runs through the whole list.
-/

set_option autoImplicit false

namespace CappedPrefix

variable {α : Type}

/-- The total size of a list. -/
def weight (size : α → ℕ) (l : List α) : ℕ := (l.map size).sum

/-- What a greedy loop takes from the front of a list when `used` is spent already. -/
def fit (size : α → ℕ) (cap : ℕ) : ℕ → List α → List α
  | _, [] => []
  | used, a :: l => if used + size a ≤ cap then a :: fit size cap (used + size a) l else []

/-- What it takes when it always admits the first element. -/
def page (size : α → ℕ) (cap : ℕ) : List α → List α
  | [] => []
  | a :: l => a :: fit size cap (size a) l

/-- Pages, one after the other. -/
def pages (size : α → ℕ) (cap : ℕ) : ℕ → List α → List α
  | 0, _ => []
  | n + 1, l =>
    page size cap l ++ pages size cap n (l.drop (page size cap l).length)

variable (size : α → ℕ) (cap : ℕ) {used k : ℕ} {l p : List α} {a : α}

/-- The empty list weighs nothing. -/
@[simp] theorem weight_nil : weight size [] = 0 := rfl

/-- The weight of a list is that of its head and its tail. -/
@[simp] theorem weight_cons (a : α) (l : List α) :
    weight size (a :: l) = size a + weight size l := by
  simp [weight]

/-- What fits is a prefix. -/
theorem fit_isPrefix (used : ℕ) (l : List α) : fit size cap used l <+: l := by
  induction l generalizing used with
  | nil => exact List.nil_prefix
  | cons a l ih =>
    unfold fit
    split
    · exact List.prefix_cons_inj a |>.mpr (ih _)
    · exact List.nil_prefix

/-- A page is a prefix. -/
theorem page_isPrefix (l : List α) : page size cap l <+: l := by
  cases l with
  | nil => exact List.nil_prefix
  | cons a l => exact List.prefix_cons_inj a |>.mpr (fit_isPrefix size cap _ l)

/-- The loop goes on as far as the total allows. -/
theorem le_length_fit_iff (hused : used ≤ cap) :
    k ≤ (fit size cap used l).length ↔ k ≤ l.length ∧ used + weight size (l.take k) ≤ cap := by
  induction l generalizing used k with
  | nil => simp [fit, hused]
  | cons a l ih =>
    unfold fit
    cases k with
    | zero => simp [hused]
    | succ k =>
      by_cases hfits : used + size a ≤ cap
      · simp [hfits, ih hfits, Nat.add_assoc]
      · simp [hfits]
        omega

/-- When the total is above the cap already, nothing more is taken. -/
theorem fit_of_lt (hused : cap < used) (l : List α) : fit size cap used l = [] := by
  cases l with
  | nil => rfl
  | cons a l =>
    unfold fit
    rw [if_neg (by omega)]

/-! ## Pages -/

/-- A page takes at least one element of a list that has any, whatever its size. -/
theorem page_ne_nil (h : l ≠ []) : page size cap l ≠ [] := by
  cases l with
  | nil => exact absurd rfl h
  | cons a l => exact List.cons_ne_nil _ _

/-- A first element above the cap is a page of its own. -/
theorem page_of_lt (h : cap < size a) (l : List α) : page size cap (a :: l) = [a] := by
  rw [page, fit_of_lt size cap h]

/-- A page whose first element fits goes on as far as the total allows. -/
theorem le_length_page_iff (hfits : size a ≤ cap) :
    k ≤ (page size cap (a :: l)).length ↔
      k ≤ (a :: l).length ∧ weight size ((a :: l).take k) ≤ cap := by
  unfold page
  cases k with
  | zero => simp
  | succ k => simp [le_length_fit_iff size cap hfits]

/-- A page whose first element fits is within the cap, and no prefix within it is longer. -/
theorem page_longest (hfits : size a ≤ cap) : weight size (page size cap (a :: l)) ≤ cap ∧
    ∀ p, p <+: a :: l → weight size p ≤ cap → p <+: page size cap (a :: l) := by
  have hpre := page_isPrefix size cap (a :: l)
  constructor
  · have hall := (le_length_page_iff size cap (l := l) hfits).mp (Nat.le_refl _)
    rw [← List.prefix_iff_eq_take.mp hpre] at hall
    exact hall.2
  · intro p hp hweight
    apply List.prefix_of_prefix_length_le hp hpre
    apply (le_length_page_iff size cap hfits).mpr
    rw [← List.prefix_iff_eq_take.mp hp]
    exact ⟨hp.length_le, hweight⟩

/-- A page has more than `m` elements when the list has, and that many of them fit. -/
theorem length_page_le_iff {m : ℕ} (hm : 1 ≤ m) : (page size cap l).length ≤ m ↔
    l.length ≤ m ∨ cap < weight size (l.take (m + 1)) := by
  cases l with
  | nil => simp [page]
  | cons a l =>
    by_cases hfits : size a ≤ cap
    · have hiff := le_length_page_iff size cap (l := l) (k := m + 1) hfits
      omega
    · rw [page_of_lt size cap (Nat.lt_of_not_le hfits), List.take_succ_cons, weight_cons,
        List.length_cons]
      exact iff_of_true (by simpa using hm) (.inr (by omega))

/-- Turning pages runs through the whole list. -/
theorem pages_eq {n : ℕ} (h : l.length ≤ n) : pages size cap n l = l := by
  induction n generalizing l with
  | zero =>
    rw [List.length_eq_zero_iff.mp (Nat.le_zero.mp h)]
    rfl
  | succ n ih =>
    unfold pages
    have hrest : (l.drop (page size cap l).length).length ≤ n := by
      rw [List.length_drop]
      cases l with
      | nil => exact Nat.zero_le n
      | cons a l =>
        have hpos := List.length_pos_iff.mpr (page_ne_nil size cap (List.cons_ne_nil a l))
        omega
    rw [ih hrest]
    exact List.prefix_iff_eq_append.mp (page_isPrefix size cap l)

end CappedPrefix
