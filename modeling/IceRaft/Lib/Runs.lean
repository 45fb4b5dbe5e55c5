import Mathlib.Data.Nat.Notation

/-!
# Runs of a deterministic event system

A system is a step function on states and events.  `exec` runs a list of events,
`Within ok` says that every step of a run is taken in a state where `ok` holds of the
state and the event.  `invariant` is the induction over such runs.
-/

set_option autoImplicit false

namespace Runs

variable {S E : Type}

/-- The state after the events `es`. -/
def exec (step : S → E → S) (s : S) (es : List E) : S := es.foldl step s

/-- Every step of the run from `s` along `es` satisfies `ok`. -/
def Within (step : S → E → S) (ok : S → E → Prop) : S → List E → Prop
  | _, [] => True
  | s, e :: es => ok s e ∧ Within step ok (step s e) es

variable {step : S → E → S} {ok : S → E → Prop}

/-- No event, no step. -/
@[simp] theorem exec_nil (s : S) : exec step s [] = s := rfl

/-- The first event is taken first. -/
@[simp] theorem exec_cons (s : S) (e : E) (es : List E) :
    exec step s (e :: es) = exec step (step s e) es := rfl

/-- A run of two lists is the run of the second from the end of the first. -/
theorem exec_append (s : S) (es fs : List E) :
    exec step s (es ++ fs) = exec step (exec step s es) fs := List.foldl_append

/-- A run without events meets every condition. -/
@[simp] theorem within_nil (s : S) : Within step ok s [] ↔ True := Iff.rfl

/-- A run meets a condition if its first step and the rest do. -/
@[simp] theorem within_cons (s : S) (e : E) (es : List E) :
    Within step ok s (e :: es) ↔ ok s e ∧ Within step ok (step s e) es := Iff.rfl

/-- A condition holds of a run if it holds of its two parts. -/
theorem within_append (s : S) (es fs : List E) :
    Within step ok s (es ++ fs) ↔ Within step ok s es ∧ Within step ok (exec step s es) fs := by
  induction es generalizing s with
  | nil => simp
  | cons e es ih => simp [ih, and_assoc]

/-- A condition may be weakened. -/
theorem Within.mono {ok' : S → E → Prop} (himp : ∀ s e, ok s e → ok' s e) {s : S}
    {es : List E} (h : Within step ok s es) : Within step ok' s es := by
  induction es generalizing s with
  | nil => trivial
  | cons e es ih => exact ⟨himp s e h.1, ih h.2⟩

/-- A condition that always holds holds along every run. -/
theorem within_of_forall (h : ∀ s e, ok s e) {s : S} {es : List E} : Within step ok s es := by
  induction es generalizing s with
  | nil => trivial
  | cons e es ih => exact ⟨h s e, ih⟩

/-- Two conditions of one run are one condition. -/
theorem Within.and {ok' : S → E → Prop} {s : S} {es : List E} (h : Within step ok s es)
    (h' : Within step ok' s es) : Within step (fun s e => ok s e ∧ ok' s e) s es := by
  induction es generalizing s with
  | nil => trivial
  | cons e es ih => exact ⟨⟨h.1, h'.1⟩, ih h.2 h'.2⟩

/-- On runs of events in `P`, two conditions may be exchanged that agree there. -/
theorem within_congr {ok' : S → E → Prop} {P : E → Prop}
    (h : ∀ s e, P e → (ok s e ↔ ok' s e)) {es : List E} (hes : ∀ e ∈ es, P e) (s : S) :
    Within step ok s es ↔ Within step ok' s es := by
  induction es generalizing s with
  | nil => exact Iff.rfl
  | cons e es ih =>
    exact and_congr (h s e (hes e List.mem_cons_self))
      (ih (fun e' he' => hes e' (List.mem_cons_of_mem _ he')) _)

/-- Where an invariant holds that the first of two conditions keeps, the two may be exchanged
if they agree on its states. -/
theorem within_congr_of_invariant {ok' : S → E → Prop} (I : S → Prop)
    (hstep : ∀ s e, I s → ok s e → I (step s e)) (h : ∀ s e, I s → (ok s e ↔ ok' s e)) {s : S}
    (h0 : I s) (es : List E) : Within step ok s es ↔ Within step ok' s es := by
  induction es generalizing s with
  | nil => exact Iff.rfl
  | cons e es ih =>
    have hrest : ok s e ∧ Within step ok (step s e) es ↔ ok s e ∧ Within step ok' (step s e) es :=
      and_congr_right fun hok => ih (hstep s e h0 hok)
    exact hrest.trans (and_congr_left' (h s e h0))

/-- Two conditions may be exchanged on a run where a third one makes them agree. -/
theorem Within.congr {run ok' : S → E → Prop} {s : S} {es : List E} (h : Within step run s es)
    (hiff : ∀ s e, run s e → (ok s e ↔ ok' s e)) :
    Within step ok s es ↔ Within step ok' s es := by
  induction es generalizing s with
  | nil => exact Iff.rfl
  | cons e es ih => exact and_congr (hiff s e h.1) (ih h.2)

/-- A predicate holds in all states of a run exactly when it holds at its start and after
every step. -/
theorem forall_prefix_iff (P : S → Prop) {s : S} {es : List E} :
    (∀ before, before <+: es → P (exec step s before)) ↔
      P s ∧ Within step (fun s e => P (step s e)) s es := by
  induction es generalizing s with
  | nil =>
    constructor
    · intro h
      exact ⟨h [] (List.prefix_refl _), trivial⟩
    · rintro ⟨hs, -⟩ before hpre
      rw [List.prefix_nil.mp hpre]
      exact hs
  | cons e es ih =>
    rw [within_cons, ← ih]
    constructor
    · intro h
      refine ⟨h [] List.nil_prefix, ?_⟩
      intro before hpre
      exact h (e :: before) (List.cons_prefix_cons.mpr ⟨rfl, hpre⟩)
    · rintro ⟨hs, hrest⟩ before hpre
      cases before with
      | nil => exact hs
      | cons e' before =>
        obtain ⟨rfl, htail⟩ := List.cons_prefix_cons.mp hpre
        exact hrest before htail

/-- A quantity is the same in all states of a run exactly when no step changes it. -/
theorem constant_iff {D : Type} (f : S → D) {s : S} {es : List E} :
    (∀ before, before <+: es → f (exec step s before) = f s) ↔
      Within step (fun s e => f (step s e) = f s) s es := by
  rw [forall_prefix_iff fun s' => f s' = f s, and_iff_right rfl]
  apply within_congr_of_invariant fun s' => f s' = f s
  · intro s' e _ hstep
    exact hstep
  · intro s' e hs'
    rw [hs']
  · rfl

/-- A predicate that every admitted step preserves holds at the end of every run. -/
theorem invariant (I : S → Prop) (hstep : ∀ s e, I s → ok s e → I (step s e)) {s : S}
    {es : List E} (h0 : I s) (h : Within step ok s es) : I (exec step s es) := by
  induction es generalizing s with
  | nil => exact h0
  | cons e es ih => exact ih (hstep s e h0 h.1) h.2

/-- On the way every step is taken in a state where the invariant holds. -/
theorem Within.with_invariant (I : S → Prop) (hstep : ∀ s e, I s → ok s e → I (step s e)) {s : S}
    {es : List E} (h0 : I s) (h : Within step ok s es) :
    Within step (fun s e => I s ∧ ok s e) s es := by
  induction es generalizing s with
  | nil => trivial
  | cons e es ih => exact ⟨⟨h0, h.1⟩, ih (hstep s e h0 h.1) h.2⟩

/-- **Forward simulation**: a run of a system that another one can follow step by step has
beside it a sequence of states of the other, one for each prefix. -/
theorem Within.simulated {A : Type} (R : S → A → Prop) (next : A → A → Prop)
    (hidle : ∀ a, next a a)
    (hstep : ∀ s e a, R s a → ok s e → ∃ b, next a b ∧ R (step s e) b) {s : S} {a : A}
    {es : List E} (h0 : R s a) (h : Within step ok s es) :
    ∃ f : ℕ → A, f 0 = a ∧ (∀ k, next (f k) (f (k + 1))) ∧
      ∀ k ≤ es.length, R (exec step s (es.take k)) (f k) := by
  induction es generalizing s a with
  | nil =>
    refine ⟨fun _ => a, rfl, fun _ => hidle a, ?_⟩
    intro k hk
    rw [Nat.le_zero.mp hk]
    exact h0
  | cons e es ih =>
    obtain ⟨b, hab, hb⟩ := hstep s e a h0 h.1
    obtain ⟨f, rfl, hnext, hf⟩ := ih hb h.2
    refine ⟨fun k => k.casesOn a f, rfl, ?_, ?_⟩
    · intro k
      cases k with
      | zero => exact hab
      | succ k => exact hnext k
    · intro k hk
      cases k with
      | zero => exact h0
      | succ k => exact hf k (Nat.le_of_succ_le_succ hk)

/-- **Simulation by a map**: a system whose every step is a run of another one, seen through a
map, has a run of the other beside every run of its own. -/
theorem Within.mirrored {T F : Type} {step' : T → F → T} {ok' : T → F → Prop} (f : S → T)
    (hstep : ∀ s e, ok s e → ∃ es', f (step s e) = exec step' (f s) es' ∧
      Within step' ok' (f s) es') {s : S} {es : List E} (h : Within step ok s es) :
    ∃ es', f (exec step s es) = exec step' (f s) es' ∧ Within step' ok' (f s) es' := by
  induction es generalizing s with
  | nil => exact ⟨[], rfl, trivial⟩
  | cons e es ih =>
    obtain ⟨es₁, hfirst, hok₁⟩ := hstep s e h.1
    obtain ⟨es₂, hrest, hok₂⟩ := ih h.2
    rw [hfirst] at hrest hok₂
    refine ⟨es₁ ++ es₂, ?_, (within_append _ _ _).mpr ⟨hok₁, hok₂⟩⟩
    rw [exec_append]
    exact hrest

/-! ## What the steps give out -/

section Outputs

variable {O : Type}

/-- What the steps of the run from `s` along `es` give out, oldest first. -/
def outputs (step : S → E → S) (out : S → E → Option O) : S → List E → List O
  | _, [] => []
  | s, e :: es => (out s e).toList ++ outputs step out (step s e) es

variable {out : S → E → Option O}

/-- The outputs of two runs in a row concatenate. -/
theorem outputs_append (s : S) (es fs : List E) : outputs step out s (es ++ fs) =
    outputs step out s es ++ outputs step out (exec step s es) fs := by
  induction es generalizing s with
  | nil => rfl
  | cons e es ih =>
    rw [List.cons_append, outputs, outputs, ih, exec_cons, List.append_assoc]

/-- What a run gives out, one of its steps gives out. -/
theorem exists_of_mem_outputs {o : O} {s : S} {es : List E} (h : o ∈ outputs step out s es) :
    ∃ before e after, es = before ++ e :: after ∧ out (exec step s before) e = some o := by
  induction es generalizing s with
  | nil => cases h
  | cons e es ih =>
    rcases List.mem_append.mp h with hnow | hlater
    · exact ⟨[], e, es, rfl, Option.mem_toList.mp hnow⟩
    · obtain ⟨before, e', after, rfl, hout⟩ := ih hlater
      exact ⟨e :: before, e', after, rfl, hout⟩

/-- A step that gives something out splits what its run gives out there. -/
theorem outputs_split {o : O} {s : S} {before : List E} {e : E} (after : List E)
    (h : out (exec step s before) e = some o) : outputs step out s (before ++ e :: after) =
      outputs step out s before ++ o :: outputs step out (exec step s (before ++ [e])) after := by
  rw [outputs_append, outputs, h, exec_append]
  rfl

/-- A run along which everything given out is in `P`. -/
theorem within_outputs {P : O → Prop} {s : S} {es : List E}
    (h : ∀ o ∈ outputs step out s es, P o) :
    Within step (fun s e => ∀ o, out s e = some o → P o) s es := by
  induction es generalizing s with
  | nil => trivial
  | cons e es ih =>
    refine ⟨?_, ih fun o ho => h o (List.mem_append_right _ ho)⟩
    intro o ho
    exact h o (List.mem_append_left _ (Option.mem_toList.mpr ho))

end Outputs

instance [∀ s e, Decidable (ok s e)] : ∀ (s : S) (es : List E),
    Decidable (Within step ok s es)
  | _, [] => inferInstanceAs (Decidable True)
  | s, e :: es =>
    have : Decidable (Within step ok (step s e) es) := instDecidableWithin (step s e) es
    inferInstanceAs (Decidable (ok s e ∧ Within step ok (step s e) es))

end Runs
