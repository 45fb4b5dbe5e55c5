import IceRaft.Model.Cluster

/-!
# Simulations of a cluster

A cluster is followed with an abstract state.  Each node and each packet is related to
the abstract state; an activation of a node moves the abstract state by steps of that
node, which must leave alone what is known of the other nodes and of the packets.  What
remains to be shown for a particular abstraction is one turn of one node, from its
beginning through all its crash points, and one restart.
-/

set_option autoImplicit false

namespace IceRaft

open Relation (ReflTransGen)

/-- Why process `i` is activated with an input: the task that waits for the reply, and
the input, given what is known of the packets on the network. -/
inductive Cause (packet : Packet → Prop) (i : NodeId) : Option (NodeId × RpcTask) → Input → Prop
  | timer (electionDue heartbeatDue : Bool) :
    Cause packet i none (.timer electionDue heartbeatDue)
  | client (call : ClientCall) (tx : Sender) :
    Cause packet i none (.message (call.message tx))
  | ping : Cause packet i none (.appendEntries RaftClusterClient.pingRequest)
  | request (src : NodeId) (task : RpcTask) :
    packet (.request src true task) → task.peer = i → Cause packet i (some (src, task)) task.input
  | orphan (src : NodeId) (task : RpcTask) :
    packet (.request src false task) → task.peer = i → Cause packet i none task.input
  | response (msg : RaftMessage) :
    packet (.response i msg) → Cause packet i none (.message msg)

namespace Cause

variable {packet : Packet → Prop} {i : NodeId} {asker : Option (NodeId × RpcTask)}

/-- A request that is no ping comes from a packet, and it is the task of that packet that
waits. -/
theorem task {input : Input} (h : Cause packet i asker input) :
    (∃ electionDue heartbeatDue, input = .timer electionDue heartbeatDue) ∨
    (∃ msg, input = .message msg) ∨
    (asker = none ∧ input = .appendEntries RaftClusterClient.pingRequest) ∨
    ∃ src waiting task, packet (.request src waiting task) ∧ task.peer = i ∧
      task.input = input ∧ ∀ q, asker = some q → q = (src, task) := by
  cases h with
  | timer ed hd => exact .inl ⟨ed, hd, rfl⟩
  | client call tx => exact .inr (.inl ⟨_, rfl⟩)
  | response msg hp => exact .inr (.inl ⟨_, rfl⟩)
  | ping => exact .inr (.inr (.inl ⟨rfl, rfl⟩))
  | request src task hp hpeer =>
    exact .inr (.inr (.inr
      ⟨src, true, task, hp, hpeer, rfl, fun q hq => (Option.some.inj hq).symm⟩))
  | orphan src task hp hpeer =>
    exact .inr (.inr (.inr ⟨src, false, task, hp, hpeer, rfl, nofun⟩))

/-- A request for a vote was on the network, and the reply goes to who sent it. -/
theorem requestVote {req : RequestVoteRequest} (h : Cause packet i asker (.requestVote req)) :
    ∃ src waiting, packet (.request src waiting (.requestVote i req)) ∧
      ∀ q, asker = some q → q = (src, .requestVote i req) := by
  obtain ⟨_, _, he⟩ | ⟨_, he⟩ | ⟨-, he⟩ | ⟨src, waiting, task, hp, hpeer, he, hq⟩ := h.task
  · cases he
  · cases he
  · cases he
  · cases task with
    | requestVote peer req' => cases hpeer; cases he; exact ⟨src, waiting, hp, hq⟩
    | appendEntries peer last req' => cases he
    | installSnapshot peer last req' => cases he

/-- So was a batch, if it is not the probe of a client. -/
theorem appendEntries {req : AppendEntriesRequest}
    (h : Cause packet i asker (.appendEntries req)) :
    (asker = none ∧ req = RaftClusterClient.pingRequest) ∨
    ∃ src waiting last, packet (.request src waiting (.appendEntries i last req)) ∧
      ∀ q, asker = some q → q = (src, .appendEntries i last req) := by
  obtain ⟨_, _, he⟩ | ⟨_, he⟩ | ⟨hnone, he⟩ | ⟨src, waiting, task, hp, hpeer, he, hq⟩ := h.task
  · cases he
  · cases he
  · exact .inl ⟨hnone, Input.appendEntries.inj he⟩
  · cases task with
    | requestVote peer req' => cases he
    | appendEntries peer last req' =>
      cases hpeer
      cases he
      exact .inr ⟨src, waiting, last, hp, hq⟩
    | installSnapshot peer last req' => cases he

/-- So was a snapshot. -/
theorem installSnapshot {req : InstallSnapshotRequest}
    (h : Cause packet i asker (.installSnapshot req)) :
    ∃ src waiting last, packet (.request src waiting (.installSnapshot i last req)) ∧
      ∀ q, asker = some q → q = (src, .installSnapshot i last req) := by
  obtain ⟨_, _, he⟩ | ⟨_, he⟩ | ⟨-, he⟩ | ⟨src, waiting, task, hp, hpeer, he, hq⟩ := h.task
  · cases he
  · cases he
  · cases he
  · cases task with
    | requestVote peer req' => cases he
    | appendEntries peer last req' => cases he
    | installSnapshot peer last req' =>
      cases hpeer; cases he; exact ⟨src, waiting, last, hp, hq⟩

/-- A message that no client can send comes from a packet. -/
theorem message {msg : RaftMessage} (h : Cause packet i asker (.message msg)) :
    (∃ call tx, msg = ClientCall.message tx call) ∨ packet (.response i msg) := by
  generalize hin : Input.message msg = input at h
  cases h with
  | client call tx => cases hin; exact .inl ⟨call, tx, rfl⟩
  | response msg' hp => cases hin; exact .inr hp
  | timer ed hd => cases hin
  | ping => cases hin
  | request src task _ _ => cases task <;> cases hin
  | orphan src task _ _ => cases task <;> cases hin

/-- The response of a voter was on the network. -/
theorem voteResponse {peer : NodeId} {resp : RequestVoteResponse}
    (h : Cause packet i asker (.message (.voteResponse peer resp))) :
    packet (.response i (.voteResponse peer resp)) := by
  obtain ⟨call, tx, he⟩ | hp := h.message
  · cases call <;> cases he
  · exact hp

/-- So was the response to a batch. -/
theorem appendResponse {peer : NodeId} {last : ℕ} {resp : AppendEntriesResponse}
    (h : Cause packet i asker (.message (.appendResponse peer last resp))) :
    packet (.response i (.appendResponse peer last resp)) := by
  obtain ⟨call, tx, he⟩ | hp := h.message
  · cases call <;> cases he
  · exact hp

/-- So was the response to a snapshot. -/
theorem snapshotResponse {peer : NodeId} {last : ℕ} {resp : InstallSnapshotResponse}
    (h : Cause packet i asker (.message (.snapshotResponse peer last resp))) :
    packet (.response i (.snapshotResponse peer last resp)) := by
  obtain ⟨call, tx, he⟩ | hp := h.message
  · cases call <;> cases he
  · exact hp

/-- When nothing is asked of the packets, any input may arrive. -/
theorem of_true (i : NodeId) (input : Input) : Cause (fun _ => True) i none input := by
  cases input with
  | appendEntries req => exact .orphan 0 (.appendEntries i 0 req) trivial rfl
  | requestVote req => exact .orphan 0 (.requestVote i req) trivial rfl
  | installSnapshot req => exact .orphan 0 (.installSnapshot i 0 req) trivial rfl
  | message msg => exact .response msg trivial
  | timer electionDue heartbeatDue => exact .timer electionDue heartbeatDue

end Cause

/-- What an abstract state says of a cluster, and how it may move.  The moves of a node
keep what is said of the other nodes and of the packets. -/
structure Abstraction (σ A : Type) where
  /-- the moves of node `i` -/
  step : NodeId → A → A → Prop
  /-- the invariant of the abstract states -/
  good : A → Prop
  /-- what holds of a node, with its history, between two turns -/
  node : A → NodeId → List Effect → RaftNodeInner σ → Prop
  /-- what holds of a node, with its history, wherever it may crash -/
  durable : A → NodeId → List Effect → RaftNodeInner σ → Prop
  /-- what holds of a packet on the network -/
  packet : A → Packet → Prop
  /-- the effects the runs considered may have -/
  legal : A → NodeId → Effect → Prop
  /-- the condition on the activations of the runs considered, given the history -/
  cond : List Effect → Cluster.Condition σ
  good_step : ∀ {i a b}, step i a b → good a → good b
  node_step : ∀ {i j a b h n}, step i a b → good a → j ≠ i → node a j h n → node b j h n
  packet_step : ∀ {i a b p}, step i a b → good a → packet a p → packet b p
  packet_orphan : ∀ {a src task}, packet a (.request src true task) →
    packet a (.request src false task)

namespace Abstraction

variable {σ A : Type} (S : Abstraction σ A)

/-- What holds of an effect: the packet it puts on the network is as it should be. -/
def effect (a : A) (i : NodeId) (asker : Option (NodeId × RpcTask)) (e : Effect) : Prop :=
  ∀ p, e.packet i asker = some p → S.packet a p

/-- How a turn of `i` that starts beside `a₀` with history `h` is followed. -/
def discipline (a₀ : A) (i : NodeId) (h : List Effect) (asker : Option (NodeId × RpcTask)) :
    Turn.Discipline (RaftNodeInner σ) Effect A where
  step := S.step i
  durable effects a n := S.durable a i (h ++ effects) n ∧ ∀ e ∈ effects, S.effect a i asker e
  legal := S.legal a₀ i

/-- The turn built so far has been followed, and `Q` holds of the abstract state, the
history and the node. -/
def Follows (a₀ : A) (i : NodeId) (h : List Effect) (asker : Option (NodeId × RpcTask))
    (n₀ : RaftNodeInner σ) (Q : A → List Effect → RaftNodeInner σ → Prop) (x : NodeTurn σ) :
    Prop :=
  Turn.Tracks (S.discipline a₀ i h asker) a₀ n₀
    (fun effects a n => S.good a ∧ (∀ e ∈ effects, S.effect a i asker e) ∧ Q a (h ++ effects) n) x

variable {S : Abstraction σ A} {a₀ : A} {i : NodeId} {h : List Effect}
  {asker : Option (NodeId × RpcTask)}
  {n₀ : RaftNodeInner σ} {Q Q' : A → List Effect → RaftNodeInner σ → Prop} {x : NodeTurn σ}

/-- Good abstract states are kept along the steps of a turn. -/
theorem good_steps (S : Abstraction σ A) {a b : A} (hab : ReflTransGen (S.step i) a b)
    (hg : S.good a) : S.good b := by
  induction hab with
  | refl => exact hg
  | tail _ hbc ih => exact S.good_step hbc ih

/-- A packet that was justified stays so along the steps of a turn. -/
theorem packet_steps (S : Abstraction σ A) {a b : A} (hab : ReflTransGen (S.step i) a b)
    (hg : S.good a) {p : Packet} (hp : S.packet a p) : S.packet b p := by
  induction hab with
  | refl => exact hp
  | tail hab hbc ih => exact S.packet_step hbc (good_steps S hab hg) ih

/-- The other nodes stay justified along the steps of a turn. -/
theorem node_steps (S : Abstraction σ A) {a b : A} (hab : ReflTransGen (S.step i) a b)
    (hg : S.good a) {j : NodeId} (hj : j ≠ i) {n : RaftNodeInner σ} (hn : S.node a j h n) :
    S.node b j h n := by
  induction hab with
  | refl => exact hn
  | tail hab hbc ih => exact S.node_step hbc (good_steps S hab hg) hj ih

/-! ## Rules for following a turn -/

/-- A turn starts in the abstract state that stands for its node. -/
theorem Follows.start (hg : S.good a₀) (hd : S.durable a₀ i h n₀) (hQ : Q a₀ h n₀) :
    S.Follows a₀ i h asker n₀ Q (Turn.start n₀) := by
  refine Turn.tracks_start ⟨?_, by simp⟩ ⟨hg, by simp, ?_⟩
  · rw [List.append_nil]; exact hd
  · rw [List.append_nil]; exact hQ

/-- A silent change of the node, with moves of the abstract state. -/
theorem Follows.move (hf : S.Follows a₀ i h asker n₀ Q x) (f : RaftNodeInner σ → RaftNodeInner σ)
    (hQ : ∀ a H, S.good a → Q a H x.node →
      ∃ b, ReflTransGen (S.step i) a b ∧ Q' b H (f x.node)) :
    S.Follows a₀ i h asker n₀ Q' (x.update f) := by
  refine Turn.Tracks.silent hf rfl ?_
  rintro a ⟨hg, he, hq⟩
  obtain ⟨b, hab, hq'⟩ := hQ a _ hg hq
  exact ⟨b, hab, good_steps S hab hg, fun e hm p hp => packet_steps S hab hg (he e hm p hp), hq'⟩

/-- A silent change of the node. -/
theorem Follows.update (hf : S.Follows a₀ i h asker n₀ Q x)
    (f : RaftNodeInner σ → RaftNodeInner σ)
    (hQ : ∀ a H, S.good a → Q a H x.node → Q' a H (f x.node)) :
    S.Follows a₀ i h asker n₀ Q' (x.update f) :=
  hf.move f fun a H hg hq => ⟨a, .refl, hQ a H hg hq⟩

/-- A change of the Raft state, with moves of the abstract state. -/
theorem Follows.moveSm (hf : S.Follows a₀ i h asker n₀ Q x)
    {f : RaftStateMachine → RaftStateMachine}
    (hQ : ∀ a H, S.good a → Q a H x.node →
      ∃ b, ReflTransGen (S.step i) a b ∧ Q' b H { x.node with sm := f x.node.sm }) :
    S.Follows a₀ i h asker n₀ Q' (x.modifySm f) := by
  unfold NodeTurn.modifySm
  exact hf.move _ hQ

/-- A change of the Raft state. -/
theorem Follows.modifySm (hf : S.Follows a₀ i h asker n₀ Q x)
    {f : RaftStateMachine → RaftStateMachine}
    (hQ : ∀ a H, S.good a → Q a H x.node → Q' a H { x.node with sm := f x.node.sm }) :
    S.Follows a₀ i h asker n₀ Q' (x.modifySm f) := by
  unfold NodeTurn.modifySm
  exact hf.update _ hQ

/-- A change of the metrics. -/
theorem Follows.modifyMetrics (hf : S.Follows a₀ i h asker n₀ Q x) {f : RaftMetrics → RaftMetrics}
    (hQ : ∀ a H, S.good a → Q a H x.node → Q' a H { x.node with metrics := f x.node.metrics }) :
    S.Follows a₀ i h asker n₀ Q' (x.modifyMetrics f) := by
  unfold NodeTurn.modifyMetrics
  exact hf.update _ hQ

/-- Weakening. -/
theorem Follows.mono (hf : S.Follows a₀ i h asker n₀ Q x)
    (hQ : ∀ a H, S.good a → Q a H x.node → Q' a H x.node) :
    S.Follows a₀ i h asker n₀ Q' x :=
  hf.update id hQ

/-- An effect, with moves of the abstract state before it. -/
theorem Follows.effect (hf : S.Follows a₀ i h asker n₀ Q x) (e : Effect)
    (hQ : ∀ a H, S.legal a₀ i e → S.good a → Q a H x.node →
      ∃ b, ReflTransGen (S.step i) a b ∧ S.durable b i (H ++ [e]) x.node ∧
        S.effect b i asker e ∧ Q' b (H ++ [e]) x.node) :
    S.Follows a₀ i h asker n₀ Q' (x.effect e) := by
  apply Turn.Tracks.emit hf e
  rintro a hl ⟨hg, he, hq⟩
  obtain ⟨b, hab, hd, hep, hq'⟩ := hQ a _ hl hg hq
  have heffs : ∀ e' ∈ x.effects ++ [e], S.effect b i asker e' := by
    intro e' hm
    rcases List.mem_append.mp hm with hm | hm
    · exact fun p hp => packet_steps S hab hg (he e' hm p hp)
    · rw [List.mem_singleton.mp hm]; exact hep
  rw [List.append_assoc] at hd hq'
  exact ⟨b, hab, ⟨hd, heffs⟩, good_steps S hab hg, heffs, hq'⟩

/-- A continuation along `R` with effects in `ok`. -/
theorem Follows.quiet {R : RaftNodeInner σ → RaftNodeInner σ → Prop} {ok : Effect → Prop}
    {y : NodeTurn σ} (hf : S.Follows a₀ i h asker n₀ Q x) (hq : Turn.Quiet R ok x y)
    (hnode : ∀ a H n n', R n n' → Q a H n → Q a H n')
    (heff : ∀ a H n e, ok e → Q a H n → Q a (H ++ [e]) n ∧ S.effect a i asker e)
    (hd : ∀ a H n, Q a H n → S.durable a i H n) : S.Follows a₀ i h asker n₀ Q y := by
  refine Turn.Tracks.quiet hf hq ?_ ?_ ?_
  · rintro es a n n' hR ⟨hg, he, hQ⟩
    exact ⟨hg, he, hnode a _ n n' hR hQ⟩
  · rintro es a n e hok ⟨hg, he, hQ⟩
    obtain ⟨hQ', he'⟩ := heff a _ n e hok hQ
    refine ⟨hg, fun e₁ h₁ => ?_, by rw [← List.append_assoc]; exact hQ'⟩
    rcases List.mem_append.mp h₁ with h₁ | h₁
    · exact he e₁ h₁
    · rw [List.mem_singleton.mp h₁]; exact he'
  · rintro es a n ⟨-, he, hQ⟩
    exact ⟨hd a _ n hQ, he⟩

/-- What the moves of node `i` keep still holds. -/
theorem Follows.carry (hf : S.Follows a₀ i h asker n₀ Q x) (hg : S.good a₀) {E : A → Prop}
    (hE : E a₀) (hstep : ∀ a b, S.step i a b → S.good a → E a → E b) :
    S.Follows a₀ i h asker n₀ (fun a H n => E a ∧ Q a H n) x := by
  refine Turn.Tracks.mono (Turn.Tracks.reached hf) ?_
  rintro a ⟨hab, hga, he, hQ⟩
  refine ⟨hga, he, ?_, hQ⟩
  have hreach : Relation.ReflTransGen (S.step i) a₀ a := hab
  clear hga he hQ hab
  induction hreach with
  | refl => exact hE
  | tail hab hbc ih => exact hstep _ _ hbc (good_steps S hab hg) ih

/-- A fact about the node as it is now may be used to follow the rest of the turn. -/
theorem Follows.assume (hf : S.Follows a₀ i h asker n₀ Q x) {C : Prop}
    (hC : ∀ a H, S.good a → Q a H x.node → C) {y : NodeTurn σ}
    {R : RaftNodeInner σ → RaftNodeInner σ → Prop} {ok : Effect → Prop}
    (hxy : Turn.Quiet R ok x y) (hy : C → S.Follows a₀ i h asker n₀ Q' y) :
    S.Follows a₀ i h asker n₀ Q' y := by
  by_cases hc : C
  · exact hy hc
  · obtain ⟨t, ht, -⟩ := hxy.trace
    refine Turn.Tracks.absurd hf ?_ ht
    rintro es a ⟨hg, -, hQ⟩
    exact hc (hC a _ hg hQ)

/-- A loop. -/
theorem Follows.foldl {β : Type} (f : NodeTurn σ → β → NodeTurn σ) (l : List β)
    (hf : ∀ y, ∀ b ∈ l, S.Follows a₀ i h asker n₀ Q y → S.Follows a₀ i h asker n₀ Q (f y b))
    (hx : S.Follows a₀ i h asker n₀ Q x) : S.Follows a₀ i h asker n₀ Q (l.foldl f x) :=
  Turn.Tracks.foldl f l hf hx

end Abstraction

/-- Every turn and every restart of node `i`, with configuration `cfg`, keeps the
relation. -/
structure Simulation {σ A : Type} [Storage σ] (S : Abstraction σ A) (cfg : RaftConfig)
    (i : NodeId) : Prop where
  turn : ∀ {a h n asker input crashAt}, S.good a → S.node a i h n →
    Cause (S.packet a) i asker input → S.cond h cfg n input crashAt →
    S.Follows a i h asker n (S.node · i) (NodeTurn.run cfg input (Turn.start n))
  restart : ∀ {a h n input k}, S.good a → S.cond h cfg n input (some k) →
    let turn := NodeTurn.run cfg input (Turn.start n)
    let cut := turn.cutNode n k
    S.durable a i (h ++ turn.cutEffects k) cut →
    S.node a i (h ++ turn.cutEffects k ++ (Process.boot cut.storage).history)
      (Process.boot cut.storage).node

namespace Simulation

variable {σ A : Type} [Storage σ] {cc : ClusterConfig}

open Cluster Abstraction

/-- One activation of a process. -/
theorem act {S : Abstraction σ A} {cfg : RaftConfig} {i : NodeId} (sim : Simulation S cfg i)
    {a : A} {p : Process σ} {asker : Option (NodeId × RpcTask)} {input : Input}
    {crashAt : Option ℕ} (hg : S.good a) (hn : S.node a i p.history p.node)
    (hcause : Cause (S.packet a) i asker input) (hcond : S.cond p.history cfg p.node input crashAt)
    (hlegal : ∀ e ∈ p.emitted cfg input crashAt, S.legal a i e) :
    ∃ b, ReflTransGen (S.step i) a b ∧ S.good b ∧
      S.node b i (p.act cfg input crashAt).history (p.act cfg input crashAt).node ∧
      ∀ e ∈ p.emitted cfg input crashAt, S.effect b i asker e := by
  have hturn := sim.turn hg hn hcause hcond
  cases crashAt with
  | none =>
    obtain ⟨b, hab, hgb, heff, hnb⟩ := hturn.2 hlegal
    exact ⟨b, hab, hgb, hnb, heff⟩
  | some k =>
    obtain ⟨b, hab, hd, heff⟩ := hturn.1 k hlegal
    have hgb := good_steps S hab hg
    exact ⟨b, hab, hgb, sim.restart hgb hcond hd, heff⟩

/-- The cluster is related to the abstract state. -/
structure Holds (cc : ClusterConfig) (S : Abstraction σ A) (c : Cluster σ) (a : A) : Prop where
  good : S.good a
  node : ∀ i ∈ cc.members, S.node a i (c.proc i).history (c.proc i).node
  packet : ∀ p ∈ c.net, S.packet a p

variable {S : Abstraction σ A} {c : Cluster σ} {a : A}

omit [Storage σ] in
/-- Delivery and loss put nothing on the network. -/
theorem mem_netAfter {p : Packet} {e : Action} (h : p ∈ c.netAfter e) : p ∈ c.net := by
  cases e with
  | timer i ed hd => exact h
  | client i call => exact h
  | ping i => exact h
  | deliver k => exact List.mem_of_mem_eraseIdx h
  | duplicate k =>
    rcases List.mem_append.mp h with h | h
    · exact h
    · exact List.mem_of_getElem? (Option.mem_toList.mp h)
  | lose k => exact List.mem_of_mem_eraseIdx h

omit [Storage σ] in
/-- What a crash leaves of a packet is as it should be. -/
theorem packet_of_orphan {i : NodeId} {p p' : Packet} (hp : S.packet a p)
    (h : p.orphan i = some p') : S.packet a p' := by
  cases p with
  | request src waiting task =>
    simp only [Packet.orphan, Option.some.injEq] at h
    subst h
    cases waiting with
    | false => exact hp
    | true =>
      by_cases hsrc : src = i
      · simpa [hsrc] using S.packet_orphan (hsrc ▸ hp)
      · simpa [hsrc] using hp
  | response dst msg =>
    simp only [Packet.orphan] at h
    split at h
    · cases h
    · cases h; exact hp

omit [Storage σ] in
/-- An activation has a cause. -/
theorem cause_of_input {e : Action} {i : NodeId} {input : Input} (h : Holds cc S c a)
    (hin : c.input? cc e = some (i, input)) :
    i ∈ cc.members ∧ Cause (S.packet a) i (c.asker e) input := by
  cases e with
  | timer j ed hd =>
    simp only [input?, Option.ite_none_right_eq_some, Option.some.injEq, Prod.mk.injEq] at hin
    obtain ⟨⟨hm, -⟩, rfl, rfl⟩ := hin
    exact ⟨hm, .timer ed hd⟩
  | client j call =>
    simp only [input?, Option.ite_none_right_eq_some, Option.some.injEq, Prod.mk.injEq] at hin
    obtain ⟨⟨hm, -⟩, rfl, rfl⟩ := hin
    exact ⟨hm, .client call c.nextSender⟩
  | ping j =>
    simp only [input?, Option.ite_none_right_eq_some, Option.some.injEq, Prod.mk.injEq] at hin
    obtain ⟨hm, rfl, rfl⟩ := hin
    exact ⟨hm, .ping⟩
  | deliver k =>
    simp only [input?] at hin
    simp only [asker]
    cases hk : c.net[k]? with
    | none => simp [hk] at hin
    | some p =>
      have hp : S.packet a p := h.packet p (List.mem_of_getElem? hk)
      rw [hk] at hin
      cases p with
      | request src waiting task =>
        simp only [Option.ite_none_right_eq_some, Option.some.injEq, Prod.mk.injEq] at hin
        obtain ⟨hm, rfl, rfl⟩ := hin
        cases waiting with
        | true => exact ⟨hm, .request src task hp rfl⟩
        | false => exact ⟨hm, .orphan src task hp rfl⟩
      | response dst msg =>
        simp only [Option.ite_none_right_eq_some, Option.some.injEq, Prod.mk.injEq] at hin
        obtain ⟨⟨hm, -⟩, rfl, rfl⟩ := hin
        exact ⟨hm, .response msg hp⟩
  | duplicate k => simp [input?] at hin
  | lose k => simp [input?] at hin

/-- One event. -/
theorem holds_step (sim : ∀ i ∈ cc.members, Simulation S (cc.config i) i)
    (h : Holds cc S c a) {e : Event}
    (hcond : ∀ i input, c.input? cc e.action = some (i, input) →
      S.cond (c.proc i).history (cc.config i) (c.proc i).node input e.crashAt)
    (hlegal : ∀ i input, c.input? cc e.action = some (i, input) →
      ∀ eff ∈ (c.proc i).emitted (cc.config i) input e.crashAt, S.legal a i eff) :
    ∃ b, ReflTransGen (fun a b => ∃ i, S.step i a b) a b ∧ Holds cc S (c.step cc e) b := by
  unfold Cluster.step
  cases hin : c.input? cc e.action with
  | none =>
    exact ⟨a, .refl, h.good, h.node, fun p hp => h.packet p (mem_netAfter hp)⟩
  | some q =>
    obtain ⟨i, input⟩ := q
    obtain ⟨hi, hcause⟩ := cause_of_input h hin
    obtain ⟨b, hab, hgb, hnb, heff⟩ :=
      (sim i hi).act h.good (h.node i hi) hcause (hcond i input hin) (hlegal i input hin)
    have hlift : ReflTransGen (fun a b => ∃ i, S.step i a b) a b :=
      ReflTransGen.mono (fun _ _ (hs : S.step i _ _) => ⟨i, hs⟩) a b hab
    refine ⟨b, hlift, hgb, ?_, ?_⟩
    · intro j hj
      by_cases hji : j = i
      · subst hji; simpa [activate] using hnb
      · simpa [activate, hji] using node_steps S hab h.good hji (h.node j hj)
    · -- the packets that were there, and those the effects added
      have hold : ∀ p ∈ c.netAfter e.action, S.packet b p := fun p hp =>
        packet_steps S hab h.good (h.packet p (mem_netAfter hp))
      have hnew : ∀ p ∈ ((c.proc i).emitted (cc.config i) input e.crashAt).filterMap
          (Effect.packet i (c.asker e.action)), S.packet b p := by
        intro p hp
        obtain ⟨eff, hm, hpe⟩ := List.mem_filterMap.mp hp
        exact heff eff hm p hpe
      intro p hp
      simp only [activate, survivors, added] at hp
      rcases List.mem_append.mp hp with hp | hp
      · split at hp
        · exact hold p hp
        · obtain ⟨p₀, hm, ho⟩ := List.mem_filterMap.mp hp
          exact packet_of_orphan (hold p₀ hm) ho
      · split at hp
        · exact hnew p hp
        · obtain ⟨p₀, hm, ho⟩ := List.mem_filterMap.mp hp
          exact packet_of_orphan (hnew p₀ hm) ho

/-- A run. -/
theorem holds_run (sim : ∀ i ∈ cc.members, Simulation S (cc.config i) i)
    {ok : Cluster σ → Event → Prop}
    (hcond : ∀ c e, ok c e → ∀ i input, c.input? cc e.action = some (i, input) →
      S.cond (c.proc i).history (cc.config i) (c.proc i).node input e.crashAt)
    (hlegal : ∀ c a e, ok c e → Holds cc S c a → ∀ i input, c.input? cc e.action = some (i, input) →
      ∀ eff ∈ (c.proc i).emitted (cc.config i) input e.crashAt, S.legal a i eff)
    (h : Holds cc S c a) {es : List Event} (hw : Runs.Within (Cluster.step cc) ok c es) :
    ∃ b, ReflTransGen (fun a b => ∃ i, S.step i a b) a b ∧ Holds cc S (exec cc c es) b := by
  induction es generalizing c a with
  | nil => exact ⟨a, .refl, h⟩
  | cons e es ih =>
    obtain ⟨b, hab, hb⟩ := holds_step sim h (hcond c e hw.1) (hlegal c a e hw.1 h)
    obtain ⟨d, hbd, hd⟩ := ih hb hw.2
    exact ⟨d, hab.trans hbd, hd⟩

end Simulation

end IceRaft
