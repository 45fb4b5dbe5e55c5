import IceRaft.Analysis.History
import IceRaft.Lib.Possibility

/-!
# Schedules

What some nodes of a cluster can bring about among themselves when nothing crashes and no packet
is lost or copied: packets between them are delivered, and of the timers and of the calls of
clients only those happen that the schedule names.
-/

set_option autoImplicit false

namespace IceRaft

/-- A packet from a node of `Q` to a node of `Q`. -/
def Packet.Among (Q : Finset NodeId) : Packet → Prop
  | .request src _ task => src ∈ Q ∧ task.peer ∈ Q
  | .response dst msg => (∃ peer ∈ Q, (Input.message msg).responder? = some peer) ∧ dst ∈ Q

namespace Cluster

variable {σ : Type} [Storage σ] {cc : ClusterConfig} {c : Cluster σ} {Q : Finset NodeId}
  {own : Action → Prop} {i j : NodeId} {input : Input}

/-- An election timeout of a node of `Q`. -/
def Timeout (Q : Finset NodeId) (a : Action) : Prop := ∃ i ∈ Q, a = .timer i true false

/-- An election timeout of a node of `Q`, a heartbeat timeout of `i`, or a proposal of `data` to
`i`. -/
def Upkeep (Q : Finset NodeId) (i : NodeId) (data : Bytes) (a : Action) : Prop :=
  Timeout Q a ∨ a = .timer i false true ∨ a = .client i (.propose data)

/-- What happens is in `own`, or it is the delivery of a packet from a node of `Q` to a node of
`Q`; and no crash comes with it. -/
def Orderly (Q : Finset NodeId) (own : Action → Prop) (c : Cluster σ) (e : Event) : Prop :=
  e.crashAt = none ∧
    (own e.action ∨ ∃ k p, e.action = .deliver k ∧ c.net[k]? = some p ∧ p.Among Q)

omit [Storage σ] in
/-- A schedule may name more. -/
theorem Orderly.mono {own own' : Action → Prop} (himp : ∀ a, own a → own' a) {e : Event}
    (h : Orderly Q own c e) : Orderly Q own' c e := ⟨h.1, h.2.imp_left (himp e.action)⟩

/-- An orderly schedule leads from `c` to a state in `P`. -/
abbrev Can (cc : ClusterConfig) (Q : Finset NodeId) (own : Action → Prop) (P : Cluster σ → Prop)
    (c : Cluster σ) : Prop :=
  Runs.Possible (step cc) (Orderly Q own) P c

/-- `d` is `c` after process `i` has run `input`, on behalf of `asker`: what it sends is on the
network, and so is everything that was there before, but for the packet `gone`. -/
structure Activated (cc : ClusterConfig) (c : Cluster σ) (i : NodeId) (input : Input)
    (asker : Option (NodeId × RpcTask)) (gone : Option Packet) (d : Cluster σ) : Prop where
  proc : d.proc i = (c.proc i).act (cc.config i) input none
  others : ∀ j, j ≠ i → d.proc j = c.proc j
  kept : ∀ p ∈ c.net, some p ≠ gone → p ∈ d.net
  sent : ∀ e ∈ ((c.proc i).turn (cc.config i) input).effects, ∀ p,
    e.packet i asker = some p → p ∈ d.net

namespace Activated

variable {d : Cluster σ} {asker : Option (NodeId × RpcTask)} {gone : Option Packet}

/-- The activated process has run its input. -/
theorem node (hd : Activated cc c i input asker gone d) :
    (d.proc i).node = ((c.proc i).turn (cc.config i) input).node := by
  rw [hd.proc]
  rfl

/-- So its Raft state is that of the turn. -/
theorem sm (hd : Activated cc c i input asker gone d) :
    d.sm i = ((c.proc i).turn (cc.config i) input).node.sm := congrArg RaftNodeInner.sm hd.node

/-- The others are as they were. -/
theorem sm_other (hd : Activated cc c i input asker gone d) {j : NodeId} (hj : j ≠ i) :
    d.sm j = c.sm j := congrArg (fun p => p.node.sm) (hd.others j hj)

end Activated

/-- An event whose packets stay but for its own is an activation. -/
theorem activated_step {a : Action} {gone : Option Packet}
    (hin : c.input? cc a = some (i, input))
    (hkept : ∀ p ∈ c.net, some p ≠ gone → p ∈ c.netAfter a) :
    Activated cc c i input (c.asker a) gone (c.step cc ⟨a, none⟩) := by
  have hstep : c.step cc ⟨a, none⟩ = c.activate cc i input ⟨a, none⟩ := by
    unfold step
    dsimp only
    rw [hin]
  rw [hstep]
  refine ⟨if_pos rfl, ?_, ?_, ?_⟩
  · intro j hj
    exact if_neg hj
  · intro p hp hgone
    exact List.mem_append_left _ (hkept p hp hgone)
  · intro e he p hp
    exact List.mem_append_right _ (List.mem_filterMap.mpr ⟨e, he, hp⟩)

/-- The packets that were not delivered are still there. -/
theorem mem_eraseIdx_of_ne {p q : Packet} {net : List Packet} {k : ℕ} (hk : net[k]? = some q)
    (hp : p ∈ net) (hne : p ≠ q) : p ∈ net.eraseIdx k := by
  obtain ⟨m, hm⟩ := List.mem_iff_getElem?.mp hp
  refine List.mem_eraseIdx_iff_getElem?.mpr ⟨m, ?_, hm⟩
  rintro rfl
  exact hne (Option.some.inj (hm.symm.trans hk))

/-- A timer of the schedule fires. -/
theorem can_timer {electionDue heartbeatDue : Bool}
    (hown : own (.timer i electionDue heartbeatDue)) (hi : i ∈ cc.members)
    (hloop : (c.proc i).looping = true) :
    Can cc Q own (Activated cc c i (.timer electionDue heartbeatDue) none none) c := by
  refine .next (e := ⟨.timer i electionDue heartbeatDue, none⟩) ⟨rfl, .inl hown⟩ ?_
  exact activated_step (a := .timer i electionDue heartbeatDue) (if_pos ⟨hi, hloop⟩)
    fun p hp _ => hp

/-- A call of the schedule comes in. -/
theorem can_call {call : ClientCall} (hown : own (.client i call)) (hi : i ∈ cc.members)
    (hloop : (c.proc i).looping = true) :
    Can cc Q own (Activated cc c i (.message (call.message c.nextSender)) none none) c := by
  refine .next (e := ⟨.client i call, none⟩) ⟨rfl, .inl hown⟩ ?_
  exact activated_step (a := .client i call) (if_pos ⟨hi, hloop⟩) fun p hp _ => hp

/-- A request that is still waited for is handled. -/
theorem can_ask {src : NodeId} {task : RpcTask} (h : .request src true task ∈ c.net)
    (hQ : Q ⊆ cc.members) (hsrc : src ∈ Q) (hpeer : task.peer ∈ Q) :
    Can cc Q own (Activated cc c task.peer task.input (some (src, task))
      (some (.request src true task))) c := by
  obtain ⟨k, hk⟩ := List.mem_iff_getElem?.mp h
  have hin : c.input? cc (.deliver k) = some (task.peer, task.input) := by
    simp only [input?, hk]
    exact if_pos (hQ hpeer)
  have hasker : c.asker (.deliver k) = some (src, task) := by
    simp only [asker, hk]
  refine .next (e := ⟨.deliver k, none⟩) ⟨rfl, .inr ⟨k, _, rfl, hk, hsrc, hpeer⟩⟩ ?_
  rw [← hasker]
  apply activated_step hin
  intro p hp hgone
  exact mem_eraseIdx_of_ne hk hp fun heq => hgone (congrArg some heq)

/-- A response of node `j` is handled. -/
theorem can_answer {msg : RaftMessage} (h : .response i msg ∈ c.net) (hQ : Q ⊆ cc.members)
    (hi : i ∈ Q) (hj : j ∈ Q) (hresp : (Input.message msg).responder? = some j)
    (hloop : (c.proc i).looping = true) :
    Can cc Q own (Activated cc c i (.message msg) none (some (.response i msg))) c := by
  obtain ⟨k, hk⟩ := List.mem_iff_getElem?.mp h
  have hin : c.input? cc (.deliver k) = some (i, .message msg) := by
    simp only [input?, hk]
    exact if_pos ⟨hQ hi, hloop⟩
  have hasker : c.asker (.deliver k) = none := by
    simp only [asker, hk]
  refine .next (e := ⟨.deliver k, none⟩) ⟨rfl, .inr ⟨k, _, rfl, hk, ⟨j, hj, hresp⟩, hi⟩⟩ ?_
  rw [← hasker]
  apply activated_step hin
  intro p hp hgone
  exact mem_eraseIdx_of_ne hk hp fun heq => hgone (congrArg some heq)

end Cluster

end IceRaft
