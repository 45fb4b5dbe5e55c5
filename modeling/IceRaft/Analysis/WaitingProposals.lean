import IceRaft.Analysis.Transitions
import IceRaft.Interface.Conditions

/-!
# Proposals that wait for ever

A proposal is answered by the commit step of a leader only.  A step down and `Shutdown`
leave the list of those that wait as it is.
-/

set_option autoImplicit false

namespace IceRaft

open Relation Cluster

/-- What can activate a process: after `Shutdown` the event loop takes no message and no
timer. -/
def Process.Takes {σ : Type} (p : Process σ) (input : Input) : Prop :=
  p.looping = true ∨ input.isRpc = true

instance {σ : Type} (p : Process σ) (input : Input) : Decidable (p.Takes input) :=
  inferInstanceAs (Decidable (_ ∨ _))

/-- No proposal waits when a leader sees a higher term, and none when the loop is told to
end. -/
def NobodyWaits {σ : Type} : Condition σ := fun _ n input _ =>
  (n.sm.role = .leader → ∀ term ∈ input.term?, n.sm.currentTerm < term → n.pending = []) ∧
    (input = .message .shutdown → n.pending = [])

instance {σ : Type} (cfg : RaftConfig) (n : RaftNodeInner σ) (input : Input)
    (crashAt : Option ℕ) : Decidable (NobodyWaits cfg n input crashAt) :=
  inferInstanceAs (Decidable (_ ∧ _))

/-- A node that does not lead, or whose loop has ended, keeps nobody waiting. -/
def NoneAbandoned {σ : Type} (p : Process σ) : Prop :=
  p.node.sm.role ≠ .leader ∨ p.looping = false → p.node.pending = []

variable {σ : Type} [Storage σ] {cfg : RaftConfig} {input : Input}

/-! ## One turn -/

/-- Only a proposal makes somebody wait. -/
theorem turn_pending_nil {p : Process σ} (hinput : ∀ proposal, input ≠ .message (.propose proposal))
    (hnil : p.node.pending = []) : (p.turn cfg input).node.pending = [] := by
  refine Process.turn_keeps (I := fun m => m.pending = []) (fun m m' hmove hm => ?_) hnil
  cases hmove with
  | accept index hpropose hrole => exact absurd hpropose (hinput _)
  | answer hrole =>
    show m.pending.filter _ = []
    rw [show m.pending = [] from hm]
    rfl
  | _ => exact hm

/-- A leader that sees no higher term stays leader. -/
theorem turn_leader {p : Process σ} (hlead : p.node.sm.role = .leader)
    (hterm : ∀ term ∈ input.term?, term ≤ p.node.sm.currentTerm) :
    (p.turn cfg input).node.sm.role = .leader := by
  have hkeeps : (p.turn cfg input).node.volatile.sm.role = .leader ∧
      (p.turn cfg input).node.volatile.sm.currentTerm = p.node.sm.currentTerm := by
    refine Process.turn_keeps (I := fun m => m.sm.role = .leader ∧
      m.sm.currentTerm = p.node.sm.currentTerm) (fun m m' hmove hm => ?_) ⟨hlead, rfl⟩
    cases hmove with
    | stepDown leader hinput hlt =>
      have := hterm _ hinput
      rw [hm.2] at hlt
      omega
    | stand hinput hrole => exact absurd hm.1 hrole
    | count hinput hrole =>
      rw [hm.1] at hrole
      cases hrole
    | lead last hrole hquorum =>
      rw [hm.1] at hrole
      cases hrole
    | progress peer f hrole hf =>
      obtain ⟨progress, heq⟩ := NodeTurn.updateProgress_eq peer f m.sm
      show (NodeTurn.updateProgress peer f m.sm).role = _ ∧ _
      rw [heq]
      exact hm
    | _ => exact hm
  exact hkeeps.1

/-- A node that does not lead refuses a proposal. -/
theorem onProposal_refused {x : NodeTurn σ} (hrole : x.sm.role ≠ .leader) (proposal : Proposal) :
    (x.onProposal cfg proposal).node = x.node := by
  obtain ⟨data, tx⟩ := proposal
  unfold NodeTurn.onProposal
  dsimp only
  rw [if_pos hrole]
  cases tx with
  | none => rfl
  | some tx => rfl

/-- One activation. -/
theorem NoneAbandoned.act {p : Process σ} {crashAt : Option ℕ} (htakes : p.Takes input)
    (hcond : NobodyWaits cfg p.node input crashAt) (h : NoneAbandoned p) :
    NoneAbandoned (p.act cfg input crashAt) := by
  intro hlate
  cases crashAt with
  | some k =>
    obtain ⟨term, vote, commit, hboot⟩ :=
      Process.boot_volatile ((p.turn cfg input).cutNode p.node k).storage
    exact congrArg Volatile.pending hboot
  | none =>
    show (p.turn cfg input).node.pending = []
    by_cases hpropose : ∃ proposal, input = .message (.propose proposal)
    · obtain ⟨proposal, rfl⟩ := hpropose
      have hloop : p.looping = true := htakes.resolve_right Bool.false_ne_true
      by_cases hrole : p.node.sm.role = .leader
      · -- the leader stays one, and its loop goes on
        exfalso
        rcases hlate with hnot | hended
        · exact hnot (turn_leader hrole nofun)
        · have hstill : (p.looping && true) = false := hended
          rw [hloop] at hstill
          cases hstill
      · have hsame : (p.turn cfg (.message (.propose proposal))).node = p.node :=
          onProposal_refused (x := Turn.start p.node) hrole proposal
        rw [hsame]
        exact h (.inl hrole)
    · refine turn_pending_nil (fun proposal heq => hpropose ⟨proposal, heq⟩) ?_
      by_cases hrole : p.node.sm.role = .leader
      · rcases hlate with hnot | hended
        · by_cases hterm : ∀ term ∈ input.term?, term ≤ p.node.sm.currentTerm
          · exact absurd (turn_leader hrole hterm) hnot
          · simp only [not_forall, Nat.not_le] at hterm
            obtain ⟨term, hmem, hlt⟩ := hterm
            exact hcond.1 hrole term hmem hlt
        · by_cases hshutdown : input = .message .shutdown
          · exact hcond.2 hshutdown
          · refine h (.inr ?_)
            have hboth : (p.looping && !decide (input = .message .shutdown)) = false := hended
            rw [decide_eq_false hshutdown] at hboth
            simpa using hboth
      · exact h (.inl hrole)

/-! ## Runs -/

/-- **No proposal is abandoned** in a run in which nobody waits whenever a leader sees a
higher term or the loop is told to end. -/
theorem none_abandoned (cfg : RaftConfig) (s : σ) (es : List (Input × Option ℕ))
    (hrun : Runs.Within (fun p e => p.act cfg e.1 e.2)
      (fun p e => p.Takes e.1 ∧ NobodyWaits cfg p.node e.1 e.2) (Process.boot s) es) :
    NoneAbandoned ((Process.boot s).exec cfg es) := by
  refine Runs.invariant NoneAbandoned (fun p e h hok => h.act hok.1 hok.2) ?_ hrun
  intro _
  obtain ⟨term, vote, commit, hboot⟩ := Process.boot_volatile s
  exact congrArg Volatile.pending hboot

/-- A leader of a cluster of two commits its proposal, and then steps down. -/
def answeredRun : List (Input × Option ℕ) :=
  [(.timer true false, none), (.message (.voteResponse 2 ⟨1, true⟩), none),
    (.message (.propose ⟨[7], some 0⟩), none),
    (.message (.appendResponse 2 1 ⟨1, true, 0, 0⟩), none),
    (.requestVote ⟨2, 2, 1, 1, false⟩, none), (.message .shutdown, none)]

/-- Every proposal of this run has its answer, or waits at a leader. -/
theorem none_abandoned_answeredRun :
    NoneAbandoned ((Process.boot MemStorage.new).exec ⟨1, [2], 100, 300, 600, 128⟩ answeredRun) :=
  none_abandoned _ MemStorage.new answeredRun (by decide +kernel)

/-- The same with the request before the response, and with `Shutdown` before it. -/
theorem proposal_abandoned :
    let won : List (Input × Option ℕ) :=
      [(.timer true false, none), (.message (.voteResponse 2 ⟨1, true⟩), none),
        (.message (.propose ⟨[7], some 0⟩), none)]
    let deposed := (Process.boot MemStorage.new).exec ⟨1, [2], 100, 300, 600, 128⟩
      (won ++ [(.requestVote ⟨2, 2, 1, 1, false⟩, none)])
    let ended := (Process.boot MemStorage.new).exec ⟨1, [2], 100, 300, 600, 128⟩
      (won ++ [(.message .shutdown, none)])
    deposed.node.sm.role = .follower ∧ deposed.node.pending = [(1, 0)] ∧
      ended.looping = false ∧ ended.node.pending = [(1, 0)] := by
  decide +kernel

end IceRaft
