import IceRaft.Lib.Runs

/-!
# What a run can still come to

`Possible ok P s` says that some run whose steps are all in `ok` leads from `s` to a state in
`P`.  To show it, one takes single steps and composes them, counts a measure down, or serves the
members of a list one after another.
-/

set_option autoImplicit false

namespace Runs

variable {S E : Type}

/-- Some run of steps in `ok` leads from `s` to a state in `P`. -/
def Possible (step : S → E → S) (ok : S → E → Prop) (P : S → Prop) (s : S) : Prop :=
  ∃ es, Within step ok s es ∧ P (exec step s es)

namespace Possible

variable {step : S → E → S} {ok : S → E → Prop} {P R : S → Prop} {s : S}

/-- No step. -/
theorem now (h : P s) : Possible step ok P s := ⟨[], trivial, h⟩

/-- One step. -/
theorem next {e : E} (he : ok s e) (h : P (step s e)) : Possible step ok P s :=
  ⟨[e], ⟨he, trivial⟩, h⟩

/-- Runs compose. -/
theorem bind (h : Possible step ok P s) (hnext : ∀ t, P t → Possible step ok R t) :
    Possible step ok R s := by
  obtain ⟨es, hes, hP⟩ := h
  obtain ⟨fs, hfs, hR⟩ := hnext _ hP
  refine ⟨es ++ fs, (within_append s es fs).mpr ⟨hes, hfs⟩, ?_⟩
  rw [exec_append]
  exact hR

/-- More steps may be taken. -/
theorem widen {ok' : S → E → Prop} (h : Possible step ok P s)
    (himp : ∀ s e, ok s e → ok' s e) : Possible step ok' P s := by
  obtain ⟨es, hes, hP⟩ := h
  exact ⟨es, hes.mono himp, hP⟩

/-- Less is asked of the end. -/
theorem mono (h : Possible step ok P s) (himp : ∀ t, P t → R t) : Possible step ok R s :=
  h.bind fun t ht => now (himp t ht)

/-- **Counting down**: where a count can be lowered as long as the goal is not reached, the goal
can be reached. -/
theorem countdown {P : ℕ → S → Prop} {n : ℕ}
    (hstep : ∀ n t, P n t → R t ∨ Possible step ok (fun u => ∃ m < n, P m u) t)
    (h : P n s) : Possible step ok R s := by
  induction n using Nat.strongRecOn generalizing s with
  | _ n ih =>
    rcases hstep n s h with hR | hlower
    · exact now hR
    · refine hlower.bind ?_
      rintro t ⟨m, hlt, ht⟩
      exact ih m hlt ht

/-- **One after another**: where each member of a list can be served, all of them can. -/
theorem each {A : Type} {I : List A → S → Prop} (l : List A)
    (hserve : ∀ served a waiting, l = served ++ a :: waiting → ∀ t, I served t →
      Possible step ok (I (served ++ [a])) t) (h : I [] s) : Possible step ok (I l) s := by
  have hrest : ∀ waiting served, l = served ++ waiting → ∀ t, I served t →
      Possible step ok (I l) t := by
    intro waiting
    induction waiting with
    | nil =>
      intro served hl t ht
      rw [hl, List.append_nil]
      exact now ht
    | cons a waiting ih =>
      intro served hl t ht
      refine (hserve served a waiting hl t ht).bind ?_
      intro u hu
      apply ih (served ++ [a]) _ u hu
      rw [hl, List.append_assoc]
      rfl
  exact hrest l [] rfl s h

end Possible

end Runs
