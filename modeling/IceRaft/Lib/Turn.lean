import Mathlib.Data.Nat.Notation
import Mathlib.Logic.Relation

/-!
# Turns of an actor

A turn is one atomic activation of an actor: it changes the actor's state and has
effects on the outside.  The trace records every effect together with the state of
the actor right after it, so a crash in the middle of a turn is a cut of the trace:
the effects before the cut have happened and nothing else is left.

`Tracks` is a judgement on the turn built so far.  It follows the turn with an
abstract state, keeps a predicate about the current state of the actor, and keeps
another one, `durable`, at every effect.  What holds at every effect holds at every
crash point, so a handler that is followed from its first to its last step has been
followed through each of its crashes as well.
-/

set_option autoImplicit false

/-- A turn that has reached state `node` with the effects of `trace`. -/
structure Turn (N Eff : Type) where
  node : N
  trace : List (Eff × N)

namespace Turn

variable {N Eff : Type}

/-- The turn that has done nothing yet. -/
def start (n : N) : Turn N Eff := ⟨n, []⟩

/-- The effects so far, oldest first. -/
def effects (x : Turn N Eff) : List Eff := x.trace.map Prod.fst

/-- A change of the state that nobody outside sees. -/
def modify (f : N → N) (x : Turn N Eff) : Turn N Eff := { x with node := f x.node }

/-- An effect. -/
def emit (e : Eff) (x : Turn N Eff) : Turn N Eff := { x with trace := x.trace ++ [(e, x.node)] }

/-- The effects before the cut at `k`. -/
def cutEffects (k : ℕ) (x : Turn N Eff) : List Eff := (x.trace.take k).map Prod.fst

/-- The state at the cut at `k` of a turn that began in `n₀`. -/
def cutNode (n₀ : N) (k : ℕ) (x : Turn N Eff) : N :=
  ((x.trace.take k).getLast?.map Prod.snd).getD n₀

/-- `n` is the state of the actor at a cut, or at the end, of a turn that began in `n₀`. -/
def Passes (n₀ : N) (x : Turn N Eff) (n : N) : Prop := n = x.node ∨ ∃ k, n = x.cutNode n₀ k

/-- A turn starts at its node. -/
@[simp] theorem start_node (n : N) : (start n : Turn N Eff).node = n := rfl

/-- A turn starts with no trace. -/
@[simp] theorem start_trace (n : N) : (start n : Turn N Eff).trace = [] := rfl

/-- A turn starts with no effects. -/
@[simp] theorem start_effects (n : N) : (start n : Turn N Eff).effects = [] := rfl

/-- A change changes the node. -/
@[simp] theorem modify_node (f : N → N) (x : Turn N Eff) : (x.modify f).node = f x.node := rfl

/-- A change shows nothing. -/
@[simp] theorem modify_trace (f : N → N) (x : Turn N Eff) : (x.modify f).trace = x.trace := rfl

/-- A change has no effect. -/
@[simp] theorem modify_effects (f : N → N) (x : Turn N Eff) :
    (x.modify f).effects = x.effects := rfl

/-- An effect leaves the node alone. -/
@[simp] theorem emit_node (e : Eff) (x : Turn N Eff) : (x.emit e).node = x.node := rfl

/-- An effect is recorded with the node as it is. -/
@[simp] theorem emit_trace (e : Eff) (x : Turn N Eff) :
    (x.emit e).trace = x.trace ++ [(e, x.node)] := rfl

/-- An effect is added behind the others. -/
@[simp] theorem emit_effects (e : Eff) (x : Turn N Eff) :
    (x.emit e).effects = x.effects ++ [e] := by
  simp [effects]

/-- A loop keeps what each of its passes keeps. -/
theorem foldl_keeps {α β : Type} (f : Turn N Eff → β) {op : Turn N Eff → α → Turn N Eff}
    (h : ∀ x a, f (op x a) = f x) (l : List α) (x : Turn N Eff) : f (l.foldl op x) = f x := by
  induction l generalizing x with
  | nil => rfl
  | cons a l ih => exact (ih (op x a)).trans (h x a)

/-- A loop relates its beginning to its end as each of its passes does. -/
theorem foldl_related {α : Type} {J : Turn N Eff → Turn N Eff → Prop} (hdone : ∀ x, J x x)
    (hnext : ∀ {x y z}, J x y → J y z → J x z) (f : Turn N Eff → α → Turn N Eff) (l : List α)
    (hf : ∀ y, ∀ a ∈ l, J y (f y a)) (x : Turn N Eff) : J x (l.foldl f x) := by
  induction l generalizing x with
  | nil => exact hdone x
  | cons a l ih =>
    refine hnext (hf x a List.mem_cons_self) ?_
    exact ih (fun y b hb => hf y b (List.mem_cons_of_mem _ hb)) (f x a)

/-- An effect of the trace is the last one before some cut. -/
theorem cut_of_mem_trace {x : Turn N Eff} {e : Eff} {n : N} (h : (e, n) ∈ x.trace) (n₀ : N) :
    ∃ k es, x.cutEffects k = es ++ [e] ∧ x.cutNode n₀ k = n := by
  obtain ⟨k, hk, hget⟩ := List.getElem_of_mem h
  refine ⟨k + 1, (x.trace.take k).map Prod.fst, ?_, ?_⟩
  · rw [cutEffects, List.take_succ_eq_append_getElem hk, hget, List.map_append]
    rfl
  · rw [cutNode, List.take_succ_eq_append_getElem hk, hget]
    simp

/-! ## Following a turn -/

variable {A : Type}

/-- What a turn is followed with: the moves of the abstract state, the predicate that
has to hold at every effect (given the effects so far), and the effects that may be
assumed absent. -/
structure Discipline (N Eff A : Type) where
  step : A → A → Prop
  durable : List Eff → A → N → Prop
  legal : Eff → Prop

/-- `x`, which began in `n₀` beside `a₀`, has been followed: `durable` holds at every
cut and `P` holds now, provided every effect involved is legal. -/
def Tracks (d : Discipline N Eff A) (a₀ : A) (n₀ : N) (P : List Eff → A → N → Prop)
    (x : Turn N Eff) : Prop :=
  (∀ k, (∀ e ∈ x.cutEffects k, d.legal e) →
    ∃ a, Relation.ReflTransGen d.step a₀ a ∧ d.durable (x.cutEffects k) a (x.cutNode n₀ k)) ∧
  ((∀ e ∈ x.effects, d.legal e) →
    ∃ a, Relation.ReflTransGen d.step a₀ a ∧ P x.effects a x.node)

variable {d : Discipline N Eff A} {a₀ : A} {n₀ : N} {P Q : List Eff → A → N → Prop}
  {x : Turn N Eff}

/-- A turn is followed from its beginning. -/
theorem tracks_start (hd : d.durable [] a₀ n₀) (hP : P [] a₀ n₀) :
    Tracks d a₀ n₀ P (start n₀) := by
  refine ⟨fun k _ => ⟨a₀, .refl, ?_⟩, fun _ => ⟨a₀, .refl, hP⟩⟩
  simpa [cutEffects, cutNode] using hd

/-- The predicate may be weakened, and the abstract state may move on its own. -/
theorem Tracks.silent (h : Tracks d a₀ n₀ P x) {y : Turn N Eff} (ht : y.trace = x.trace)
    (hPQ : ∀ a, P x.effects a x.node →
      ∃ b, Relation.ReflTransGen d.step a b ∧ Q x.effects b y.node) :
    Tracks d a₀ n₀ Q y := by
  have he : y.effects = x.effects := by unfold effects; rw [ht]
  refine ⟨?_, ?_⟩
  · intro k hk
    simp only [cutEffects, cutNode, ht] at hk ⊢
    exact h.1 k hk
  · intro hl
    rw [he] at hl ⊢
    obtain ⟨a, ha, hp⟩ := h.2 hl
    obtain ⟨b, hb, hq⟩ := hPQ a hp
    exact ⟨b, ha.trans hb, hq⟩

/-- Weakening of the predicate. -/
theorem Tracks.mono (h : Tracks d a₀ n₀ P x) (hPQ : ∀ a, P x.effects a x.node →
    Q x.effects a x.node) : Tracks d a₀ n₀ Q x :=
  h.silent rfl fun a hp => ⟨a, .refl, hPQ a hp⟩

/-- An effect: `durable` has to hold right after it. -/
theorem Tracks.emit (h : Tracks d a₀ n₀ P x) (e : Eff)
    (hPQ : ∀ a, d.legal e → P x.effects a x.node → ∃ b, Relation.ReflTransGen d.step a b ∧
      d.durable (x.effects ++ [e]) b x.node ∧ Q (x.effects ++ [e]) b x.node) :
    Tracks d a₀ n₀ Q (x.emit e) := by
  have hnow : (∀ e' ∈ x.effects ++ [e], d.legal e') → ∃ b,
      Relation.ReflTransGen d.step a₀ b ∧ d.durable (x.effects ++ [e]) b x.node ∧
      Q (x.effects ++ [e]) b x.node := by
    intro hl
    obtain ⟨a, ha, hp⟩ := h.2 fun e' he' => hl e' (List.mem_append_left _ he')
    obtain ⟨b, hb, hd, hq⟩ := hPQ a (hl e (by simp)) hp
    exact ⟨b, ha.trans hb, hd, hq⟩
  refine ⟨?_, ?_⟩
  · intro k hk
    by_cases hlen : k ≤ x.trace.length
    · -- the cut falls before the new effect
      have htake : (x.trace ++ [(e, x.node)]).take k = x.trace.take k :=
        List.take_append_of_le_length hlen
      simp only [cutEffects, cutNode, emit_trace, htake] at hk ⊢
      exact h.1 k hk
    · have htake : (x.trace ++ [(e, x.node)]).take k = x.trace ++ [(e, x.node)] :=
        List.take_of_length_le (by simp; omega)
      have heffs : (x.emit e).cutEffects k = x.effects ++ [e] := by
        simp [cutEffects, htake, effects]
      have hnode : (x.emit e).cutNode n₀ k = x.node := by simp [cutNode, htake]
      rw [heffs] at hk ⊢
      rw [hnode]
      obtain ⟨b, hb, hd, -⟩ := hnow hk
      exact ⟨b, hb, hd⟩
  · intro hl
    rw [emit_effects] at hl ⊢
    obtain ⟨b, hb, -, hq⟩ := hnow hl
    exact ⟨b, hb, hq⟩

/-- A loop whose body is followed is followed. -/
theorem Tracks.foldl {β : Type} (f : Turn N Eff → β → Turn N Eff) (l : List β)
    (hf : ∀ y, ∀ b ∈ l, Tracks d a₀ n₀ P y → Tracks d a₀ n₀ P (f y b))
    (h : Tracks d a₀ n₀ P x) : Tracks d a₀ n₀ P (l.foldl f x) := by
  induction l generalizing x with
  | nil => exact h
  | cons b l ih =>
    exact ih (fun y c hc => hf y c (List.mem_cons_of_mem _ hc)) (hf x b List.mem_cons_self h)

/-- What is reached is reached by steps. -/
theorem Tracks.reached (h : Tracks d a₀ n₀ P x) :
    Tracks d a₀ n₀ (fun es a n => Relation.ReflTransGen d.step a₀ a ∧ P es a n) x := by
  refine ⟨h.1, ?_⟩
  intro hl
  obtain ⟨a, ha, hP⟩ := h.2 hl
  exact ⟨a, ha, ha, hP⟩

/-- A turn that cannot have got here goes on as it likes. -/
theorem Tracks.absurd (h : Tracks d a₀ n₀ P x) (hno : ∀ es a, ¬ P es a x.node) {y : Turn N Eff}
    {t : List (Eff × N)} (ht : y.trace = x.trace ++ t) : Tracks d a₀ n₀ Q y := by
  refine ⟨?_, ?_⟩
  · intro k hk
    have htake : y.trace.take k = x.trace.take k ++ t.take (k - x.trace.length) := by
      rw [ht, List.take_append]
    by_cases hlen : k ≤ x.trace.length
    · have hnil : t.take (k - x.trace.length) = [] := by
        rw [Nat.sub_eq_zero_of_le hlen, List.take_zero]
      simp only [cutEffects, cutNode, htake, hnil, List.append_nil] at hk ⊢
      exact h.1 k hk
    · exfalso
      have hall : ∀ e ∈ x.effects, d.legal e := by
        intro e he
        apply hk
        rw [cutEffects, htake, List.take_of_length_le (by omega), List.map_append]
        exact List.mem_append_left _ he
      obtain ⟨a, -, hP⟩ := h.2 hall
      exact hno _ a hP
  · intro hl
    exfalso
    have hall : ∀ e ∈ x.effects, d.legal e := by
      intro e he
      apply hl
      rw [effects, ht, List.map_append]
      exact List.mem_append_left _ he
    obtain ⟨a, -, hP⟩ := h.2 hall
    exact hno _ a hP

/-! ## Continuations of a turn -/

/-- `y` continues `x`: the actor moves along `R` only, and the effects are in `ok`. -/
structure Quiet (R : N → N → Prop) (ok : Eff → Prop) (x y : Turn N Eff) : Prop where
  trace : ∃ t, y.trace = x.trace ++ t ∧ ∀ p ∈ t, ok p.1 ∧ R x.node p.2
  node : R x.node y.node

namespace Quiet

variable {R : N → N → Prop} {ok : Eff → Prop} {x y z : Turn N Eff}

/-- Doing nothing is quiet. -/
theorem refl (hR : ∀ n, R n n) (x : Turn N Eff) : Quiet R ok x x :=
  ⟨⟨[], by simp, by simp⟩, hR _⟩

/-- Quiet code in a row is quiet. -/
theorem trans (hR : ∀ {a b c}, R a b → R b c → R a c) (h : Quiet R ok x y)
    (h' : Quiet R ok y z) : Quiet R ok x z := by
  obtain ⟨t, ht, hok⟩ := h.trace
  obtain ⟨t', ht', hok'⟩ := h'.trace
  refine ⟨⟨t ++ t', by rw [ht', ht, List.append_assoc], fun p hp => ?_⟩, hR h.node h'.node⟩
  rcases List.mem_append.mp hp with hp | hp
  · exact hok p hp
  · exact ⟨(hok' p hp).1, hR h.node (hok' p hp).2⟩

/-- A change within the relation is quiet. -/
theorem modify {f : N → N} (hf : R x.node (f x.node)) : Quiet R ok x (x.modify f) :=
  ⟨⟨[], by simp, by simp⟩, hf⟩

/-- An admitted effect is quiet. -/
theorem emit {e : Eff} (hR : ∀ n, R n n) (he : ok e) : Quiet R ok x (x.emit e) :=
  ⟨⟨[(e, x.node)], rfl, by simp [he, hR]⟩, hR _⟩

/-- A loop of quiet rounds is quiet. -/
theorem foldl {β : Type} (hr : ∀ n, R n n) (ht : ∀ {a b c}, R a b → R b c → R a c)
    (f : Turn N Eff → β → Turn N Eff) (l : List β)
    (hf : ∀ y, ∀ b ∈ l, Quiet R ok y (f y b)) : Quiet R ok x (l.foldl f x) := by
  induction l generalizing x with
  | nil => exact refl hr x
  | cons b l ih =>
    exact (hf x b List.mem_cons_self).trans ht (ih fun y c hc => hf y c (List.mem_cons_of_mem _ hc))

/-- A cut of the continuation falls into the turn so far, or leaves the actor in a state
that `R` allows. -/
theorem cut (h : Quiet R ok x y) (n₀ : N) (k : ℕ) :
    y.cutEffects k <+: x.effects ∨ R x.node (y.cutNode n₀ k) := by
  obtain ⟨t, ht, hok⟩ := h.trace
  have htake : y.trace.take k = x.trace.take k ++ t.take (k - x.trace.length) := by
    rw [ht, List.take_append]
  rcases List.eq_nil_or_concat (t.take (k - x.trace.length)) with hnil | ⟨t', p, hcat⟩
  · left
    rw [cutEffects, htake, hnil, List.append_nil]
    exact (List.take_prefix k x.trace).map Prod.fst
  · right
    have hcut : y.cutNode n₀ k = p.2 := by
      rw [cutNode, htake, hcat]
      simp
    have hmem : p ∈ t.take (k - x.trace.length) := by
      rw [hcat, List.concat_eq_append]
      exact List.mem_append_right _ (List.mem_singleton_self p)
    rw [hcut]
    exact (hok p (List.mem_of_mem_take hmem)).2

end Quiet

/-- A continuation is followed when the predicate is kept along `R` and by the effects
in `ok`, and is strong enough for a crash. -/
theorem Tracks.quiet {R : N → N → Prop} {ok : Eff → Prop} {y : Turn N Eff}
    (h : Tracks d a₀ n₀ P x) (hq : Quiet R ok x y)
    (hnode : ∀ es a n n', R n n' → P es a n → P es a n')
    (heff : ∀ es a n e, ok e → P es a n → P (es ++ [e]) a n)
    (hd : ∀ es a n, P es a n → d.durable es a n) : Tracks d a₀ n₀ P y := by
  obtain ⟨⟨t, ht, hok⟩, hnow⟩ := hq
  have hext : ∀ (t : List (Eff × N)) (es : List Eff) (a : A) (n : N), (∀ p ∈ t, ok p.1) →
      P es a n → P (es ++ t.map Prod.fst) a n := by
    intro t
    induction t with
    | nil => intro es a n _ hP; simpa using hP
    | cons p t ih =>
      intro es a n hok hP
      have hP' := heff es a n p.1 (hok p List.mem_cons_self) hP
      have hih := ih _ a n (fun q hq => hok q (List.mem_cons_of_mem _ hq)) hP'
      rw [List.append_assoc] at hih
      exact hih
  refine ⟨?_, ?_⟩
  · intro k hk
    have htake : y.trace.take k = x.trace.take k ++ t.take (k - x.trace.length) := by
      rw [ht, List.take_append]
    rcases List.eq_nil_or_concat (t.take (k - x.trace.length)) with hnil | ⟨t', p, hcat⟩
    · -- the cut falls before the continuation
      simp only [cutEffects, cutNode, htake, hnil, List.append_nil] at hk ⊢
      exact h.1 k hk
    · have hlen : ¬ k ≤ x.trace.length := fun hle => by
        simp [Nat.sub_eq_zero_of_le hle] at hcat
      have hmem : ∀ q ∈ t.take (k - x.trace.length), ok q.1 ∧ R x.node q.2 := fun q hq =>
        hok q (List.mem_of_mem_take hq)
      have heffs : y.cutEffects k = x.effects ++ (t.take (k - x.trace.length)).map Prod.fst := by
        rw [cutEffects, htake, List.take_of_length_le (by omega), List.map_append, effects]
      have hcut : y.cutNode n₀ k = p.2 := by
        rw [cutNode, htake, hcat]
        simp
      rw [heffs] at hk ⊢
      rw [hcut]
      obtain ⟨a, ha, hP⟩ := h.2 fun e he => hk e (List.mem_append_left _ he)
      have hP' := hext _ _ a _ (fun q hq => (hmem q hq).1) hP
      exact ⟨a, ha, hd _ a _ (hnode _ a _ _ (hmem p (by simp [hcat])).2 hP')⟩
  · intro hl
    have heffs : y.effects = x.effects ++ t.map Prod.fst := by simp [effects, ht]
    rw [heffs] at hl ⊢
    obtain ⟨a, ha, hP⟩ := h.2 fun e he => hl e (List.mem_append_left _ he)
    exact ⟨a, ha, hext _ _ a _ (fun p hp => (hok p hp).1) (hnode _ a _ _ hnow hP)⟩

end Turn
