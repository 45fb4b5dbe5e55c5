import Mathlib.Data.List.Basic
import Mathlib.Data.Nat.Notation

/-!
# Indexed logs

A log is a partial map from indices to entries whose domain is an interval: the indices
behind `base`, which has been compacted, up to `last`.  A batch replaces everything from
its first index on, and compaction forgets everything up to an index.
-/

set_option autoImplicit false

/-- A log that holds exactly the indices behind `base` up to `last`. -/
structure IndexedLog (E : Type) where
  base : ℕ
  last : ℕ
  slot : ℕ → Option E
  base_le : base ≤ last
  slot_isSome : ∀ i, (slot i).isSome = true ↔ base < i ∧ i ≤ last

namespace IndexedLog

variable {E : Type}

/-- The log that holds nothing, compacted up to `base`. -/
def empty (base : ℕ) : IndexedLog E where
  base := base
  last := base
  slot _ := none
  base_le := Nat.le_refl _
  slot_isSome i := by
    rw [Option.isSome_none, iff_false_left Bool.false_ne_true]
    omega

/-- The log with `batch` at the indices from `start` on, and nothing behind it. -/
def splice (l : IndexedLog E) (start : ℕ) (batch : List E) (hlo : l.base < start)
    (hhi : start ≤ l.last + 1) (hne : batch ≠ []) : IndexedLog E where
  base := l.base
  last := start - 1 + batch.length
  slot i := if i < start then l.slot i else batch[i - start]?
  base_le := by
    have := List.length_pos_iff.mpr hne
    omega
  slot_isSome i := by
    have hpos := List.length_pos_iff.mpr hne
    split
    · rw [l.slot_isSome]
      omega
    · rw [isSome_getElem?]
      show i - start < batch.length ↔ _
      omega

/-- The log without the indices up to `b`. -/
def compact (l : IndexedLog E) (b : ℕ) (h : l.base ≤ b) : IndexedLog E where
  base := b
  last := max l.last b
  slot i := if i ≤ b then none else l.slot i
  base_le := Nat.le_max_right _ _
  slot_isSome i := by
    split
    · rw [Option.isSome_none, iff_false_left Bool.false_ne_true]
      omega
    · rw [l.slot_isSome]
      omega

/-- The operations on a log. -/
inductive Op (E : Type)
  | splice (start : ℕ) (batch : List E)
  | compact (b : ℕ)

/-- One operation, where it is defined. -/
inductive Step : IndexedLog E → Op E → IndexedLog E → Prop
  | splice {l : IndexedLog E} {start : ℕ} {batch : List E} (hlo : l.base < start)
      (hhi : start ≤ l.last + 1) (hne : batch ≠ []) :
      Step l (.splice start batch) (l.splice start batch hlo hhi hne)
  | compact {l : IndexedLog E} {b : ℕ} (h : l.base ≤ b) : Step l (.compact b) (l.compact b h)

/-- A sequence of operations. -/
inductive Run : IndexedLog E → List (Op E) → IndexedLog E → Prop
  | nil (l : IndexedLog E) : Run l [] l
  | cons {l l' l'' : IndexedLog E} {op : Op E} {ops : List (Op E)} :
      Step l op l' → Run l' ops l'' → Run l (op :: ops) l''

/-- One step is a run. -/
theorem Run.single {l l' : IndexedLog E} {op : Op E} (h : Step l op l') : Run l [op] l' :=
  .cons h (.nil l')

/-- Runs compose. -/
theorem Run.append {l l' l'' : IndexedLog E} {ops ops' : List (Op E)} (h : Run l ops l')
    (h' : Run l' ops' l'') : Run l (ops ++ ops') l'' := by
  induction h with
  | nil => exact h'
  | cons hs _ ih => exact .cons hs (ih h')

end IndexedLog
