import IceRaft.Analysis.ElectionSafety
import IceRaft.Analysis.History
import IceRaft.Analysis.NodeMachine
import IceRaft.Analysis.TurnSteps
import Mathlib.Algebra.Order.Group.Multiset

/-!
# Calls are conserved

A call brings a channel into a node.  The node answers on it at once or keeps it among the
pending proposals, and a notification either answers or keeps waiting.  So over any storage the
channels a node has answered on, and those that wait, are the channels that callers brought:
nothing is answered twice, and only a crash loses a call.
-/

set_option autoImplicit false

namespace IceRaft

open Cluster

/-- The channel that an effect answers on. -/
def Effect.channel? : Effect → Option Sender
  | .answered tx _ | .answeredLeader tx _ | .answeredTerm tx _ => some tx
  | _ => none

/-- The channels that have had an answer. -/
def repliedOn (history : List Effect) : Multiset Sender := ↑(history.filterMap Effect.channel?)

/-- The channels of the pending proposals. -/
def RaftNodeInner.waiting {σ : Type} (n : RaftNodeInner σ) : Multiset Sender :=
  ↑(n.pending.map Prod.snd)

/-- The channel of the call that a message brings. -/
def RaftMessage.caller? : RaftMessage → Option Sender
  | .propose proposal => proposal.tx
  | .readIndex tx | .getLeader tx | .getTerm tx => some tx
  | _ => none

/-- The channel of the call that an input brings. -/
def Input.caller? : Input → Option Sender
  | .message msg => msg.caller?
  | _ => none

/-- The replies of two histories in a row add up. -/
theorem repliedOn_append (h h' : List Effect) :
    repliedOn (h ++ h') = repliedOn h + repliedOn h' := by
  unfold repliedOn
  rw [List.filterMap_append]
  rfl

/-- A message that asks for no reply brings no channel. -/
theorem RaftMessage.caller?_of_silent {msg : RaftMessage} (h : msg.silent) :
    msg.caller? = none := by
  cases msg with
  | propose _ => exact h.elim
  | readIndex _ => exact h.elim
  | getLeader _ => exact h.elim
  | getTerm _ => exact h.elim
  | _ => rfl

/-! ## One turn -/

section Turns

variable {σ : Type} {x y z : NodeTurn σ}

/-- The channels that the turn has answered on, and those that wait. -/
def NodeTurn.callers (x : NodeTurn σ) : Multiset Sender :=
  repliedOn x.effects + x.node.waiting

/-- `y` continues `x` with the same callers. -/
def Conserves (x y : NodeTurn σ) : Prop := y.callers = x.callers

namespace Conserves

/-- No code, no channel lost. -/
theorem done (x : NodeTurn σ) : Conserves x x := rfl

/-- Code in a row loses no channel. -/
theorem next (h : Conserves x y) (h' : Conserves y z) : Conserves x z := Eq.trans h' h

/-- A change that leaves the waiting alone. -/
theorem change {f : RaftNodeInner σ → RaftNodeInner σ}
    (hf : (f x.node).pending = x.node.pending) : Conserves x (x.update f) := by
  unfold Conserves NodeTurn.callers RaftNodeInner.waiting
  rw [Turn.modify_node, hf]
  rfl

/-- An effect that answers nobody. -/
theorem emit {e : Effect} (he : e.channel? = none) : Conserves x (x.effect e) := by
  have hnone : repliedOn [e] = 0 := by
    unfold repliedOn
    rw [List.filterMap_cons_none he]
    rfl
  unfold Conserves NodeTurn.callers
  rw [Turn.emit_effects, repliedOn_append, hnone, add_zero]
  rfl

/-- The Raft state holds no channel. -/
theorem modifySm (f : RaftStateMachine → RaftStateMachine) (x : NodeTurn σ) :
    Conserves x (x.modifySm f) := by
  unfold NodeTurn.modifySm
  exact change rfl

/-- The counters hold no channel. -/
theorem modifyMetrics (f : RaftMetrics → RaftMetrics) (x : NodeTurn σ) :
    Conserves x (x.modifyMetrics f) := by
  unfold NodeTurn.modifyMetrics
  exact change rfl

/-- The disk holds no channel. -/
theorem read {α : Type} (op : σ → Except RaftError α × σ) (x : NodeTurn σ) :
    Conserves x (x.read op).2 := by
  have hstore : Conserves x (x.update fun n => { n with storage := (op x.node.storage).2 }) :=
    change rfl
  exact hstore

/-- A write replies to nobody. -/
theorem write {α : Type} (op : σ → Except RaftError α × σ) (x : NodeTurn σ) :
    Conserves x (x.write op).2 := by
  have hstore : Conserves x (x.update fun n => { n with storage := (op x.node.storage).2 }) :=
    change rfl
  exact hstore.next (emit rfl)

/-- A notification answers those whom the commit index has reached, and keeps the others. -/
theorem notifyPending (x : NodeTurn σ) : Conserves x x.notifyPending := by
  unfold Conserves NodeTurn.callers
  have hanswered : repliedOn ((x.node.pending.filter fun w => decide (w.1 ≤ x.sm.commitIndex)).map
      fun w => Effect.answered w.2 (.ok w.1)) =
        ↑((x.node.pending.filter fun w => decide (w.1 ≤ x.sm.commitIndex)).map Prod.snd) := by
    unfold repliedOn
    rw [List.filterMap_map, ← List.filterMap_eq_map]
    rfl
  have hkept : x.notifyPending.node.waiting =
      ↑((x.node.pending.filter fun w => !decide (w.1 ≤ x.sm.commitIndex)).map Prod.snd) := by
    unfold RaftNodeInner.waiting
    rw [NodeTurn.notifyPending_node]
    simp only [← decide_not, Nat.not_le]
  rw [NodeTurn.notifyPending_effects, repliedOn_append, hanswered, hkept, add_assoc]
  refine congrArg (repliedOn x.effects + ·) ?_
  rw [Multiset.coe_add, ← List.map_append]
  exact Multiset.coe_eq_coe.mpr ((List.filter_append_perm _ _).map _)

variable [Storage σ]

/-- Nothing but a call changes the callers. -/
theorem stepLaw (cfg : RaftConfig) : StepLaw cfg (fun _ => True) (Conserves (σ := σ)) where
  done := done
  next := next
  modifySm := modifySm
  modifyMetrics := modifyMetrics
  setSnapshotBuf _ _ := change rfl
  note {e} he x := by
    refine emit ?_
    cases e with
    | answered _ _ => exact he.elim
    | answeredLeader _ _ => exact he.elim
    | answeredTerm _ _ => exact he.elim
    | _ => rfl
  firstIndex := read _
  lastIndex := read _
  term _ := read _
  snapshot := read _
  entries _ _ _ := read _
  save _ := write _
  append _ := write _
  applySnapshot _ := write _
  heartbeat _ _ _ _ := emit rfl
  send := by
    intro peer prev prevTerm lo hi max es x y h
    have hread : Conserves x (x.read (Storage.entries lo hi max)).2 := read _ x
    rw [h] at hread
    exact hread.next (emit rfl)
  apply := by
    intro lo hi es x y h
    have hread : Conserves x (x.read (Storage.entries lo hi none)).2 := read _ x
    rw [h] at hread
    refine hread.next (Turn.foldl_related done next _ _ (fun z e _ => ?_) y)
    exact (modifySm _ z).next (emit rfl)
  notify := notifyPending

end Conserves

/-- An answer serves one caller. -/
theorem NodeTurn.callers_answer {e : Effect} {tx : Sender} (he : e.channel? = some tx)
    (x : NodeTurn σ) : (x.effect e).callers = x.callers + {tx} := by
  have hone : repliedOn [e] = {tx} := by
    unfold repliedOn
    rw [List.filterMap_cons_some he]
    rfl
  unfold NodeTurn.callers
  rw [Turn.emit_effects, repliedOn_append, hone]
  exact add_right_comm _ _ _

variable [Storage σ]

/-- A proposal is answered at once, or it waits. -/
theorem NodeTurn.callers_onProposal (cfg : RaftConfig) (proposal : Proposal) (x : NodeTurn σ) :
    (x.onProposal cfg proposal).callers = x.callers + ↑proposal.tx.toList := by
  have hlaw := Conserves.stepLaw (σ := σ) cfg
  unfold NodeTurn.onProposal
  dsimp only
  split
  · split
    · rename_i tx htx
      rw [htx]
      exact callers_answer rfl x
    · rename_i htx
      rw [htx]
      exact (add_zero _).symm
  · generalize hwritten : (NodeTurn.write _ _ : Except RaftError Unit × NodeTurn σ) = written
    have hwrite : Conserves x written.2 := by
      rw [← hwritten]
      exact hlaw.next (hlaw.lastIndexOr0 x) (hlaw.append trivial _)
    obtain ⟨result, y⟩ := written
    have hcallers : y.callers = x.callers := hwrite
    cases result with
    | error err =>
      dsimp only
      split
      · rename_i tx htx
        rw [htx, ← hcallers]
        exact callers_answer rfl y
      · rename_i htx
        rw [htx, ← hcallers]
        exact (add_zero _).symm
    | ok _ =>
      refine Eq.trans (hlaw.replicateAll _) ?_
      split
      · rename_i tx htx
        refine Eq.trans (Conserves.emit rfl) ?_
        rw [htx, ← hcallers]
        unfold NodeTurn.callers RaftNodeInner.waiting
        rw [Turn.modify_effects, Turn.modify_node, List.map_append, ← Multiset.coe_add, ← add_assoc]
        rfl
      · rename_i htx
        rw [htx, ← hcallers]
        exact (add_zero _).symm

/-- A turn adds the caller that its input brings, and loses nobody. -/
theorem NodeTurn.callers_run (cfg : RaftConfig) (input : Input) (x : NodeTurn σ) :
    (NodeTurn.run cfg input x).callers = x.callers + ↑input.caller?.toList := by
  by_cases hcall : ∀ msg, input = .message msg → msg.silent
  · have hnone : input.caller? = none := by
      cases input with
      | message msg => exact RaftMessage.caller?_of_silent (hcall msg rfl)
      | _ => rfl
    rw [hnone]
    exact ((Conserves.stepLaw cfg).run (fun _ _ => trivial) hcall x).trans (add_zero _).symm
  · push Not at hcall
    obtain ⟨msg, rfl, hcall⟩ := hcall
    cases msg with
    | propose proposal => exact NodeTurn.callers_onProposal cfg proposal x
    | getLeader tx => exact callers_answer rfl x
    | getTerm tx => exact callers_answer rfl x
    | readIndex tx => exact callers_answer rfl x
    | _ => exact (hcall trivial).elim

end Turns

/-! ## A process -/

variable {σ : Type} [Storage σ]

namespace Process

/-- The channels that a process has answered on, and those that wait in it. -/
def callers {σ : Type} (p : Process σ) : Multiset Sender := repliedOn p.history + p.node.waiting

/-- Nobody waits in a process that has just booted, and it has answered nobody. -/
theorem callers_boot (s : σ) : (boot s).callers = 0 := by
  obtain ⟨commit, hhist⟩ := boot_history s
  obtain ⟨term, vote, mark, hboot⟩ := boot_volatile s
  have hnil : (boot s).node.pending = [] := congrArg Volatile.pending hboot
  unfold callers RaftNodeInner.waiting
  rw [hhist, hnil]
  rfl

/-- An activation that does not crash keeps the callers of its turn. -/
theorem callers_finish (cfg : RaftConfig) (input : Input) (p : Process σ) :
    (p.act cfg input none).callers = repliedOn p.history + (p.turn cfg input).callers := by
  have hact : (p.act cfg input none).callers =
      repliedOn (p.history ++ (p.turn cfg input).effects) + (p.turn cfg input).node.waiting := rfl
  rw [hact, repliedOn_append, add_assoc]
  rfl

/-- It adds the caller that its input brings. -/
theorem callers_act (cfg : RaftConfig) (input : Input) (p : Process σ) :
    (p.act cfg input none).callers = p.callers + ↑input.caller?.toList := by
  have hstart : NodeTurn.callers (Turn.start p.node) = p.node.waiting := zero_add _
  have hturn : (p.turn cfg input).callers = p.node.waiting + ↑input.caller?.toList := by
    unfold turn
    rw [NodeTurn.callers_run, hstart]
  rw [callers_finish, hturn, ← add_assoc]
  rfl

/-- A crash loses those who wait, and the answers that did not go out. -/
theorem callers_act_le (cfg : RaftConfig) (input : Input) (crashAt : Option ℕ) (p : Process σ) :
    (p.act cfg input crashAt).callers ≤ p.callers + ↑input.caller?.toList := by
  cases crashAt with
  | none => exact (callers_act cfg input p).le
  | some k =>
    have hcut : repliedOn ((p.turn cfg input).cutEffects k) ≤ (p.turn cfg input).callers := by
      refine le_trans ?_ (Multiset.le_add_right _ _)
      unfold repliedOn Turn.cutEffects Turn.effects
      rw [List.map_take]
      exact Multiset.coe_le.mpr ((List.take_sublist k _).filterMap _).subperm
    have hact : (p.act cfg input (some k)).callers =
        repliedOn p.history + repliedOn ((p.turn cfg input).cutEffects k) := by
      have hboot := callers_boot ((p.turn cfg input).cutNode p.node k).storage
      have hsplit : (p.act cfg input (some k)).callers =
          repliedOn (p.history ++ (p.turn cfg input).cutEffects k ++
            (boot ((p.turn cfg input).cutNode p.node k).storage).history) +
          (boot ((p.turn cfg input).cutNode p.node k).storage).node.waiting := rfl
      unfold callers at hboot
      rw [hsplit, repliedOn_append, add_assoc, hboot, add_zero, repliedOn_append]
    rw [hact, ← callers_act, callers_finish]
    gcongr

end Process

/-! ## The network brings no call -/

/-- The packet brings no call. -/
def Packet.silent : Packet → Prop
  | .request _ _ _ => True
  | .response _ msg => msg.silent

/-- A packet asks for no reply after the death of its sender either. -/
theorem Packet.silent_orphan {p q : Packet} {i : NodeId} (hp : p.silent)
    (h : p.orphan i = some q) : q.silent := by
  cases p with
  | request src waiting task =>
    cases h
    trivial
  | response dst msg =>
    obtain ⟨-, heq⟩ := Option.ite_none_left_eq_some.mp h
    cases heq
    exact hp

/-- What a node sends to others asks for no reply on a channel. -/
theorem Effect.packet_silent {e : Effect} {i : NodeId} {asker : Option (NodeId × RpcTask)}
    {p : Packet} (h : e.packet i asker = some p) : p.silent := by
  obtain ⟨task, rfl, rfl⟩ | ⟨src, peer, req, resp, rfl, rfl⟩ |
    ⟨src, peer, last, req, resp, rfl, rfl⟩ | ⟨src, peer, last, req, resp, rfl, rfl⟩ :=
    Effect.packet_cases h
  · trivial
  · trivial
  · trivial
  · trivial

namespace Cluster

variable {cc : ClusterConfig} {c : Cluster σ} {i : NodeId}

/-- So nothing on the network ever does. -/
theorem silent_step (hnet : ∀ p ∈ c.net, p.silent) (e : Event) :
    ∀ p ∈ (c.step cc e).net, p.silent := by
  intro p hp
  unfold step at hp
  split at hp
  · rename_i i input hin
    rcases List.mem_append.mp hp with hold | hnew
    · unfold survivors at hold
      split at hold
      · exact hnet p (Simulation.mem_netAfter hold)
      · obtain ⟨q, hq, horphan⟩ := List.mem_filterMap.mp hold
        exact Packet.silent_orphan (hnet q (Simulation.mem_netAfter hq)) horphan
    · unfold added at hnew
      dsimp only at hnew
      split at hnew
      · obtain ⟨eff, -, hpacket⟩ := List.mem_filterMap.mp hnew
        exact Effect.packet_silent hpacket
      · obtain ⟨q, hq, horphan⟩ := List.mem_filterMap.mp hnew
        obtain ⟨eff, -, hpacket⟩ := List.mem_filterMap.mp hq
        exact Packet.silent_orphan (Effect.packet_silent hpacket) horphan
  · exact hnet p (Simulation.mem_netAfter hp)

omit [Storage σ] in
/-- Only a client calls, and on a new channel. -/
theorem caller_of_input (hnet : ∀ p ∈ c.net, p.silent) {e : Action} {input : Input} {tx : Sender}
    (hin : c.input? cc e = some (i, input)) (htx : input.caller? = some tx) :
    tx = c.nextSender := by
  cases e with
  | timer j electionDue heartbeatDue =>
    obtain ⟨-, heq⟩ := Option.ite_none_right_eq_some.mp hin
    cases heq
    cases htx
  | client j call =>
    obtain ⟨-, heq⟩ := Option.ite_none_right_eq_some.mp hin
    cases heq
    cases call with
    | propose data => exact (Option.some.inj htx).symm
    | readIndex => exact (Option.some.inj htx).symm
    | leader => exact (Option.some.inj htx).symm
    | term => exact (Option.some.inj htx).symm
    | _ => cases htx
  | ping j =>
    obtain ⟨-, heq⟩ := Option.ite_none_right_eq_some.mp hin
    cases heq
    cases htx
  | deliver k =>
    dsimp only [input?] at hin
    cases hk : c.net[k]? with
    | none =>
      rw [hk] at hin
      cases hin
    | some p =>
      have hp := hnet p (List.mem_of_getElem? hk)
      rw [hk] at hin
      cases p with
      | request src waiting task =>
        obtain ⟨-, heq⟩ := Option.ite_none_right_eq_some.mp hin
        cases heq
        cases task <;> cases htx
      | response dst msg =>
        obtain ⟨-, heq⟩ := Option.ite_none_right_eq_some.mp hin
        cases heq
        rw [Input.caller?, RaftMessage.caller?_of_silent hp] at htx
        cases htx
  | duplicate k => cases hin
  | lose k => cases hin

/-! ## A run -/

/-- The call that an event brings, and the node it reaches. -/
def call? {σ : Type} (cc : ClusterConfig) (c : Cluster σ) (e : Event) : Option (NodeId × Sender) :=
  (c.input? cc e.action).bind fun q => q.2.caller?.map fun tx => (q.1, tx)

/-- The calls of the run from `c` along `es`, oldest first. -/
def calls {σ : Type} [Storage σ] (cc : ClusterConfig) (c : Cluster σ) (es : List Event) :
    List (NodeId × Sender) :=
  Runs.outputs (step cc) (call? cc) c es

/-- The channels of the calls that reach node `i`. -/
def channelsTo (i : NodeId) (l : List (NodeId × Sender)) : Multiset Sender :=
  ↑((l.filter fun q => decide (q.1 = i)).map Prod.snd)

variable {e : Event} {es : List Event} {input : Input}

omit [Storage σ] in
/-- The channels of two lists of calls add up. -/
theorem channelsTo_append (i : NodeId) (l l' : List (NodeId × Sender)) :
    channelsTo i (l ++ l') = channelsTo i l + channelsTo i l' := by
  unfold channelsTo
  rw [List.filter_append, List.map_append]
  rfl

omit [Storage σ] in
/-- The call of the activated node is the one of its input. -/
theorem channelsTo_of_input (hin : c.input? cc e.action = some (i, input)) :
    channelsTo i (c.call? cc e).toList = ↑input.caller?.toList := by
  unfold call?
  rw [hin, Option.bind_some]
  cases input.caller? with
  | none => rfl
  | some tx =>
    have hself : [(i, tx)].filter (fun q => decide (q.1 = i)) = [(i, tx)] :=
      List.filter_cons_of_pos (decide_eq_true rfl)
    exact congrArg (fun l => (↑(l.map Prod.snd) : Multiset Sender)) hself

omit [Storage σ] in
/-- No call reaches a node that is not activated. -/
theorem channelsTo_of_idle (hidle : ∀ input, c.input? cc e.action ≠ some (i, input)) :
    channelsTo i (c.call? cc e).toList = 0 := by
  have hnone : ∀ q ∈ (c.call? cc e).toList, ¬ decide (q.1 = i) = true := by
    intro q hq hqi
    unfold call? at hq
    obtain ⟨⟨j, input⟩, hin, hq⟩ := Option.bind_eq_some_iff.mp (Option.mem_toList.mp hq)
    obtain ⟨tx, -, rfl⟩ := Option.map_eq_some_iff.mp hq
    obtain rfl := of_decide_eq_true hqi
    exact hidle input hin
  unfold channelsTo
  rw [List.filter_eq_nil_iff.mpr hnone]
  rfl

/-- If the event activates node `i`, it does not crash. -/
def Spared {σ : Type} (cc : ClusterConfig) (i : NodeId) (c : Cluster σ) (e : Event) : Prop :=
  (c.input? cc e.action).map Prod.fst = some i → e.crashAt = none

instance {σ : Type} (cc : ClusterConfig) (i : NodeId) (c : Cluster σ) (e : Event) :
    Decidable (c.Spared cc i e) := inferInstanceAs (Decidable (_ → _))

/-- One event brings a node at most the channel of its call. -/
theorem callers_step_le (cc : ClusterConfig) (c : Cluster σ) (e : Event) (i : NodeId) :
    ((c.step cc e).proc i).callers ≤ (c.proc i).callers + channelsTo i (c.call? cc e).toList := by
  by_cases hidle : ∀ input, c.input? cc e.action ≠ some (i, input)
  · rw [proc_of_idle hidle, channelsTo_of_idle hidle, add_zero]
  · push Not at hidle
    obtain ⟨input, hin⟩ := hidle
    rw [proc_step hin, channelsTo_of_input hin]
    exact Process.callers_act_le _ _ _ _

/-- Without a crash it brings the node just that. -/
theorem callers_step (hspared : c.Spared cc i e) :
    ((c.step cc e).proc i).callers = (c.proc i).callers + channelsTo i (c.call? cc e).toList := by
  by_cases hidle : ∀ input, c.input? cc e.action ≠ some (i, input)
  · rw [proc_of_idle hidle, channelsTo_of_idle hidle, add_zero]
  · push Not at hidle
    obtain ⟨input, hin⟩ := hidle
    have hnone : e.crashAt = none := hspared (congrArg (Option.map Prod.fst) hin)
    rw [proc_step hin, channelsTo_of_input hin, hnone]
    exact Process.callers_act _ _ _

/-- A node knows no channel but those of its calls. -/
theorem callers_exec_le (cc : ClusterConfig) (c : Cluster σ) (es : List Event) (i : NodeId) :
    ((exec cc c es).proc i).callers ≤ (c.proc i).callers + channelsTo i (calls cc c es) := by
  induction es generalizing c with
  | nil => exact (add_zero _).ge
  | cons e es ih =>
    calc ((exec cc (c.step cc e) es).proc i).callers
        ≤ ((c.step cc e).proc i).callers + channelsTo i (calls cc (c.step cc e) es) := ih _
      _ ≤ (c.proc i).callers + channelsTo i (c.call? cc e).toList +
          channelsTo i (calls cc (c.step cc e) es) := by
        gcongr
        exact callers_step_le cc c e i
      _ = (c.proc i).callers + channelsTo i (calls cc c (e :: es)) := by
        rw [add_assoc, ← channelsTo_append]
        rfl

/-- While it does not crash it loses none of them. -/
theorem callers_exec (h : Runs.Within (step cc) (Spared cc i) c es) :
    ((exec cc c es).proc i).callers = (c.proc i).callers + channelsTo i (calls cc c es) := by
  induction es generalizing c with
  | nil => exact (add_zero _).symm
  | cons e es ih =>
    calc ((exec cc (c.step cc e) es).proc i).callers
        = ((c.step cc e).proc i).callers + channelsTo i (calls cc (c.step cc e) es) := ih h.2
      _ = (c.proc i).callers + channelsTo i (c.call? cc e).toList +
          channelsTo i (calls cc (c.step cc e) es) := by rw [callers_step h.1]
      _ = (c.proc i).callers + channelsTo i (calls cc c (e :: es)) := by
        rw [add_assoc, ← channelsTo_append]
        rfl

/-- The channels are numbered in the order of the calls. -/
theorem nextSender_step (cc : ClusterConfig) (c : Cluster σ) (e : Event) :
    c.nextSender ≤ (c.step cc e).nextSender := by
  unfold step
  split
  · exact Nat.le_succ _
  · exact Nat.le_refl _

/-- The call of an event has the next channel, which is then used up. -/
theorem channel_of_call (hnet : ∀ p ∈ c.net, p.silent) {q : NodeId × Sender}
    (h : c.call? cc e = some q) :
    q.2 = c.nextSender ∧ (c.step cc e).nextSender = c.nextSender + 1 := by
  obtain ⟨⟨j, input⟩, hin, hq⟩ := Option.bind_eq_some_iff.mp h
  obtain ⟨tx, htx, rfl⟩ := Option.map_eq_some_iff.mp hq
  refine ⟨caller_of_input hnet hin htx, ?_⟩
  unfold step
  rw [hin]
  rfl

/-- The calls of a run come on channels in increasing order. -/
theorem calls_increasing (hnet : ∀ p ∈ c.net, p.silent) (es : List Event) :
    ((calls cc c es).map Prod.snd).Pairwise (· < ·) ∧
      ∀ q ∈ calls cc c es, c.nextSender ≤ q.2 := by
  induction es generalizing c with
  | nil => exact ⟨List.Pairwise.nil, fun q hq => by cases hq⟩
  | cons e es ih =>
    obtain ⟨hrest, hlater⟩ := ih (silent_step hnet e)
    have hcons : calls cc c (e :: es) = (c.call? cc e).toList ++ calls cc (c.step cc e) es := rfl
    rw [hcons]
    cases hcall : c.call? cc e with
    | none => exact ⟨hrest, fun q hq => (nextSender_step cc c e).trans (hlater q hq)⟩
    | some q =>
      obtain ⟨hq, hnext⟩ := channel_of_call hnet hcall
      have hlt : ∀ q' ∈ calls cc (c.step cc e) es, q.2 < q'.2 := by
        intro q' hq'
        have hle := hlater q' hq'
        rw [hnext, ← hq] at hle
        exact hle
      refine ⟨List.pairwise_cons.mpr ⟨?_, hrest⟩, ?_⟩
      · intro tx htx
        obtain ⟨q', hq', rfl⟩ := List.mem_map.mp htx
        exact hlt q' hq'
      · intro q' hq'
        rcases List.mem_cons.mp hq' with rfl | hq'
        · exact hq.ge
        · exact hq.ge.trans (hlt q' hq').le

end Cluster

/-- **No call is lost or served twice**: over any storage and in every run with any crashes, each
call has a channel of its own, and the channels on which a node has answered, with those that
wait in it, are among the channels of the calls that reached it, each as often as there; in a
run in which the node does not crash they are exactly these.
SRCLINE: iceraft-node/src/node.rs:116-149, 226-267, 471-503, 791-800 -/
theorem calls_conserved (cc : ClusterConfig) (stores : NodeId → σ) (es : List Event) :
    ((calls cc (init stores) es).map Prod.snd).Nodup ∧ ∀ i,
      ((exec cc (init stores) es).proc i).callers ≤ channelsTo i (calls cc (init stores) es) ∧
      (Runs.Within (step cc) (Spared cc i) (init stores) es →
        ((exec cc (init stores) es).proc i).callers =
          channelsTo i (calls cc (init stores) es)) := by
  have hnet : ∀ p ∈ (init stores).net, p.silent := fun p hp => by cases hp
  refine ⟨(calls_increasing hnet es).1.imp fun h => h.ne, fun i => ⟨?_, fun hspared => ?_⟩⟩
  · have hle := callers_exec_le cc (init stores) es i
    rwa [show ((init stores).proc i).callers = 0 from Process.callers_boot _, zero_add] at hle
  · have heq := callers_exec hspared
    rwa [show ((init stores).proc i).callers = 0 from Process.callers_boot _, zero_add] at heq

/-- Node 1 is elected and takes a proposal, node 2 crashes when it is asked for the leader, and
node 1 is asked for its term. -/
def askedRun : List Event :=
  [⟨.timer 1 true false, none⟩, ⟨.deliver 1, none⟩, ⟨.deliver 1, none⟩,
    ⟨.client 1 (.propose [7]), none⟩, ⟨.client 2 .leader, some 0⟩, ⟨.client 1 .term, none⟩]

/-- Node 1 has answered one of its two calls and keeps the other; the crash of node 2 loses the
third. -/
theorem calls_conserved_askedRun :
    calls trio (init fun _ => MemStorage.new) askedRun = [(1, 3), (2, 4), (1, 5)] ∧
      ((exec trio (init fun _ => MemStorage.new) askedRun).proc 1).callers =
        channelsTo 1 (calls trio (init fun _ => MemStorage.new) askedRun) ∧
      ((exec trio (init fun _ => MemStorage.new) askedRun).proc 2).callers = 0 :=
  ⟨by decide +kernel, ((calls_conserved trio _ askedRun).2 1).2 (by decide +kernel),
    by decide +kernel⟩

end IceRaft
