import Mathlib.Data.List.Basic

/-!
# Labelled moves

A system that moves from state to state, and shows at most one label with each move.  A walk
shows the labels of its moves, in order, so it has been through every prefix of them.
-/

set_option autoImplicit false

namespace Labelled

variable {S L : Type} {R : S → Option L → S → Prop} {s s' s'' : S} {ls ls' : List L}

/-- `s` comes to `s'` by moves of `R`, which show `ls`. -/
inductive Walk (R : S → Option L → S → Prop) (s : S) : List L → S → Prop
  | refl : Walk R s [] s
  | tail {ls s' o s''} (h : Walk R s ls s') (hmove : R s' o s'') : Walk R s (ls ++ o.toList) s''

/-- One move is a walk that shows the label of the move. -/
theorem Walk.single {o : Option L} (h : R s o s') : Walk R s o.toList s' := .tail .refl h

/-- A move without a label is a walk that shows nothing. -/
theorem Walk.silent (h : R s none s') : Walk R s [] s' := .single h

/-- A move with a label is a walk that shows it. -/
theorem Walk.shown {l : L} (h : R s (some l) s') : Walk R s [l] s' := .single h

/-- Walks compose, and their labels concatenate. -/
theorem Walk.trans (h : Walk R s ls s') (h' : Walk R s' ls' s'') : Walk R s (ls ++ ls') s'' := by
  induction h' with
  | refl =>
    rw [List.append_nil]
    exact h
  | tail _ hmove ih =>
    rw [← List.append_assoc]
    exact ih.tail hmove

/-- A label that is shown without a change of the state, for each of a list. -/
theorem Walk.of_forall (h : ∀ l ∈ ls, R s (some l) s) : Walk R s ls s := by
  induction ls with
  | nil => exact .refl
  | cons l ls ih =>
    exact (Walk.shown (h l List.mem_cons_self)).trans
      (ih fun l' hl' => h l' (List.mem_cons_of_mem _ hl'))

/-- **Cuts**: a walk has been through every prefix of what it shows. -/
theorem Walk.cut (h : Walk R s ls s') (k : ℕ) : ∃ t, Walk R s (ls.take k) t := by
  induction h with
  | refl =>
    rw [List.take_nil]
    exact ⟨s, .refl⟩
  | @tail ls t o t' h hmove ih =>
    rcases Nat.lt_or_ge ls.length k with hlt | hle
    · have hall : (ls ++ o.toList).length ≤ k := by
        have hone : o.toList.length ≤ 1 := by cases o <;> simp
        rw [List.length_append]
        omega
      rw [List.take_of_length_le hall]
      exact ⟨t', h.tail hmove⟩
    · rw [List.take_append_of_le_length hle]
      exact ih

/-- What every move keeps, given what has been shown by then, a walk keeps. -/
theorem Walk.keeps {I : List L → S → Prop} (h : Walk R s ls s') (hI : I [] s)
    (hstep : ∀ ls t o t', R t o t' → I ls t → I (ls ++ o.toList) t') : I ls s' := by
  induction h with
  | refl => exact hI
  | tail _ hmove ih => exact hstep _ _ _ _ hmove ih

end Labelled
