import IceRaft.Analysis.Chronicle
import IceRaft.Analysis.LeaderLog

/-!
# The leader a node knows

`leader_id` is a hint: a node sets it to itself when it is elected, and to the sender of a
request of its term.  Over any storage and across crashes the hint of a node that has entered a
term is never wrong: it names a node that was leader in that term.  In term zero nobody leads, and
what a node names there is the leader 0 of a client's ping.
-/

set_option autoImplicit false

namespace IceRaft

open Cluster

variable {cc : ClusterConfig} {fault : RaftError → Prop} {w : Record} {i j l : NodeId}
  {m m' : Volatile} {es : List Effect} {term : ℕ}

/-- The record says that `l` was leader in `term`. -/
structure Led (cc : ClusterConfig) (w : Record) (l : NodeId) (term : ℕ) : Prop where
  mem : l ∈ cc.members
  shown : w l (.becameLeader term)
  pos : 1 ≤ term

/-- It stays on record. -/
theorem Led.add (h : Led cc w l term) : Led cc (w.add i es) l term :=
  ⟨h.mem, Record.le_add h.shown, h.pos⟩

/-- What a node of `term` may name: a leader of it, and in term zero what a ping names. -/
inductive Named (cc : ClusterConfig) (w : Record) (l : NodeId) (term : ℕ) : Prop
  | led (h : Led cc w l term)
  | pinged (hleader : l = RaftClusterClient.pingRequest.leaderId)
    (hterm : term = RaftClusterClient.pingRequest.term)

/-- It may go on. -/
theorem Named.add (h : Named cc w l term) : Named cc (w.add i es) l term := by
  cases h with
  | led h => exact .led h.add
  | pinged hleader hterm => exact .pinged hleader hterm

/-- Who is named in a term that a node can lead has led it. -/
theorem Named.led_of_pos (h : Named cc w l term) (hpos : 1 ≤ term) : Led cc w l term := by
  cases h with
  | led h => exact h
  | pinged hleader hterm =>
    subst hterm
    exact absurd hpos (Nat.not_succ_le_zero 0)

/-- The leader that an answer names. -/
def Effect.names : Effect → Option NodeId
  | .answeredLeader _ leader => leader
  | .answered _ (.error (.notLeader leader)) => leader
  | _ => none

/-- The storage never makes up a leader. -/
def Faultless (fault : RaftError → Prop) : Prop := ∀ leader, ¬ fault (.notLeader (some leader))

/-- What holds of node `i`: its hint, its own leadership, and its answers are on record. -/
structure Hinted (cc : ClusterConfig) (fault : RaftError → Prop) (w : Record) (i : NodeId)
    (m : Volatile) : Prop where
  hint : ∀ l, m.sm.leaderId = some l → Named cc w l m.sm.currentTerm
  stands : m.sm.role = .candidate → 1 ≤ m.sm.currentTerm
  leads : m.sm.role = .leader → Led cc w i m.sm.currentTerm
  told : Faultless fault → ∀ e, w i e → ∀ l, e.names = some l → ∃ term, Named cc w l term

/-- What holds of a packet: a request of a leader is of a term it led, and goes to a peer. -/
structure FromLeader (cc : ClusterConfig) (w : Record) (p : Packet) : Prop where
  append : ∀ src waiting peer last req,
    p = .request src waiting (.appendEntries peer last req) →
      Led cc w req.leaderId req.term ∧ peer ≠ req.leaderId
  snapshot : ∀ src waiting peer last req,
    p = .request src waiting (.installSnapshot peer last req) →
      Led cc w req.leaderId req.term ∧ peer ≠ req.leaderId

/-- A packet that is no request of a leader. -/
theorem FromLeader.of_other {p : Packet}
    (h : ∀ src waiting task, p = .request src waiting task → ∃ peer req,
      task = .requestVote peer req) : FromLeader cc w p := by
  constructor
  · intro src waiting peer last req heq
    obtain ⟨peer', req', htask⟩ := h _ _ _ heq
    cases htask
  · intro src waiting peer last req heq
    obtain ⟨peer', req', htask⟩ := h _ _ _ heq
    cases htask

/-- A request on the network stays one of a leader on record. -/
theorem FromLeader.add {p : Packet} (h : FromLeader cc w p) : FromLeader cc (w.add i es) p :=
  ⟨fun src waiting peer last req heq =>
      (h.append src waiting peer last req heq).imp_left Led.add,
    fun src waiting peer last req heq =>
      (h.snapshot src waiting peer last req heq).imp_left Led.add⟩

namespace Hinted

/-- An effect that names nobody, or the hint. -/
theorem emit (h : Hinted cc fault w i m) {e : Effect}
    (he : Faultless fault → ∀ l, e.names = some l → m.sm.leaderId = some l) :
    Hinted cc fault (w.add i [e]) i m where
  hint l hl := (h.hint l hl).add
  stands := h.stands
  leads hrole := (h.leads hrole).add
  told hf e' he' l hl := by
    rcases Record.add_self.mp he' with hold | hnew
    · obtain ⟨term, hnamed⟩ := h.told hf e' hold l hl
      exact ⟨term, hnamed.add⟩
    · rw [List.mem_singleton.mp hnew] at hl
      exact ⟨_, (h.hint l (he hf l hl)).add⟩

/-- A change of the memory that keeps term, role and hint. -/
theorem congr (h : Hinted cc fault w i m) (hterm : m'.sm.currentTerm = m.sm.currentTerm)
    (hrole : m'.sm.role = m.sm.role) (hhint : m'.sm.leaderId = m.sm.leaderId) :
    Hinted cc fault w i m' := by
  refine ⟨?_, ?_, ?_, h.told⟩
  · rw [hterm, hhint]
    exact h.hint
  · rw [hterm, hrole]
    exact h.stands
  · rw [hterm, hrole]
    exact h.leads

end Hinted

/-- The leader an input names may be named in the term the input carries; if it has led that
term, it is another node. -/
theorem Cause.names {asker : Option (NodeId × RpcTask)} {input : Input}
    (hcause : Cause (FromLeader cc w) i asker input) (hterm : input.term? = some term)
    (hleader : input.leader? = some l) : Named cc w l term ∧ (1 ≤ term → i ≠ l) := by
  cases input with
  | appendEntries req =>
    cases hterm
    cases hleader
    obtain ⟨-, rfl⟩ | ⟨src, waiting, last, hp, -⟩ := hcause.appendEntries
    · exact ⟨.pinged rfl rfl, fun hpos => absurd hpos (Nat.not_succ_le_zero 0)⟩
    · obtain ⟨hled, hne⟩ := hp.append src waiting i last req rfl
      exact ⟨.led hled, fun _ => hne⟩
  | installSnapshot req =>
    cases hterm
    cases hleader
    obtain ⟨src, waiting, last, hp, -⟩ := hcause.installSnapshot
    obtain ⟨hled, hne⟩ := hp.snapshot src waiting i last req rfl
    exact ⟨.led hled, fun _ => hne⟩
  | _ => cases hleader

/-- A shown effect names the hint at most. -/
theorem Shown.names {cfg : RaftConfig} {input : Input} {e : Effect}
    (h : Shown fault cfg input m e) (hf : Faultless fault) (hl : e.names = some l) :
    m.sm.leaderId = some l := by
  cases h with
  | refuse hinput hrole => exact hl
  | leader hinput => exact hl
  | @fail data tx err hinput hrole hfault =>
    cases err with
    | notLeader leader =>
      have hsome : leader = some l := hl
      rw [hsome] at hfault
      exact absurd hfault (hf l)
    | _ => cases hl
  | _ => cases hl

/-- The packets of a shown effect. -/
theorem Shown.fromLeader {cfg : RaftConfig} {input : Input} {e : Effect}
    {asker : Option (NodeId × RpcTask)} {p : Packet} (h : Shown fault cfg input m e)
    (hid : cfg.id = i) (hpeers : i ∉ cfg.peers)
    (hled : m.sm.role = .leader → Led cc w i m.sm.currentTerm)
    (hp : e.packet i asker = some p) : FromLeader cc w p := by
  have hself {peer leader : NodeId} (hpeer : peer ∈ cfg.peers) (hl : leader = cfg.id) :
      peer ≠ leader := by
    rintro rfl
    rw [hl, hid] at hpeer
    exact hpeers hpeer
  have hreply (reply : RpcReply) (hr : (Effect.replied reply).packet i asker = some p) :
      FromLeader cc w p := by
    refine .of_other fun src waiting task heq => ?_
    subst heq
    obtain ⟨task, hspawned, -⟩ | ⟨_, _, _, _, -, hresp⟩ | ⟨_, _, _, _, _, -, hresp⟩ |
      ⟨_, _, _, _, _, -, hresp⟩ := Effect.packet_cases hr
    · cases hspawned
    · cases hresp
    · cases hresp
    · cases hresp
  cases h with
  | @ask peer req _ _ _ _ =>
    cases hp
    exact .of_other fun src waiting task heq => by
      cases heq
      exact ⟨peer, req, rfl⟩
  | @send peer last req hpeer hrole hterm hl hcommit hlast =>
    cases hp
    refine ⟨fun src waiting peer' last' req' heq => ?_, fun _ _ _ _ _ heq => by cases heq⟩
    cases heq
    rw [hl, hterm, hid]
    exact ⟨hled hrole, hid ▸ hself hpeer rfl⟩
  | @ship peer last req hpeer hrole hterm hl hlast =>
    cases hp
    refine ⟨fun _ _ _ _ _ heq => (by cases heq), fun src waiting peer' last' req' heq => ?_⟩
    cases heq
    rw [hl, hterm, hid]
    exact ⟨hled hrole, hid ▸ hself hpeer rfl⟩
  | vote hinput hterm hvote => exact hreply _ hp
  | acknowledge hinput hr => exact hreply _ hp
  | receipt hinput hr => exact hreply _ hp
  | _ => cases hp

/-- **Step lemma**: every move of a node keeps its hint on record. -/
theorem Hinted.act {asker : Option (NodeId × RpcTask)} {input : Input} {o : Option Effect}
    (hi : i ∈ cc.members) (hcause : Cause (FromLeader cc w) i asker input)
    (hact : Act fault (cc.config i) input m o m') (h : Hinted cc fault w i m) :
    Hinted cc fault (w.add i o.toList) i m' := by
  have hid := cc.config_id i hi
  have hquiet : Hinted cc fault (w.add i []) i m := by
    rw [Record.add_nil]
    exact h
  cases hact with
  | emit hshown => exact h.emit fun hf l hl => hshown.names hf hl
  | stepDown hinput hlt =>
    refine ⟨fun l hl => ?_, nofun, nofun, hquiet.told⟩
    rw [Option.toList_none, Record.add_nil]
    exact (hcause.names hinput hl).1
  | hint hinput hterm =>
    subst hinput
    refine ⟨fun l hl => ?_, hquiet.stands, hquiet.leads, hquiet.told⟩
    rw [Option.toList_none, Record.add_nil]
    exact (hcause.names (congrArg some hterm) hl).1
  | stand hinput hrole => exact ⟨nofun, fun _ => Nat.le_add_left 1 _, nofun, hquiet.told⟩
  | lead last hrole hquorum =>
    have hled : Led cc (w.add i [.becameLeader m.sm.currentTerm]) i m.sm.currentTerm :=
      ⟨hi, Record.add_self.mpr (.inr (List.mem_singleton_self _)), h.stands hrole⟩
    have htold := (h.emit (e := .becameLeader m.sm.currentTerm) fun _ _ hl => by cases hl).told
    refine ⟨fun l hl => ?_, nofun, fun _ => hled, htold⟩
    cases hl
    rw [hid]
    exact .led hled
  | report hreport hrole =>
    obtain ⟨progress, heq⟩ := NodeTurn.updateProgress_eq _ _ _
    rw [heq]
    exact hquiet.congr rfl rfl rfl
  | accept hinput hrole hterm =>
    exact (h.emit fun _ _ hl => by cases hl).congr rfl rfl rfl
  | apply entry hinput hrole => exact (h.emit fun _ _ hl => by cases hl).congr rfl rfl rfl
  | _ => exact hquiet.congr rfl rfl rfl

/-- What is known of leaders in a cluster. -/
def leaderChronicle (cc : ClusterConfig) (fault : RaftError → Prop) : Chronicle cc fault where
  node := Hinted cc fault
  packet := FromLeader cc
  allows _ _ _ := True
  allows_act _ _ := trivial
  node_add := by
    intro w i j es m hj h
    refine ⟨fun l hl => (h.hint l hl).add, h.stands, fun hrole => (h.leads hrole).add, ?_⟩
    intro hf e he l hl
    rw [Record.add_of_ne hj] at he
    obtain ⟨term, hnamed⟩ := h.told hf e he l hl
    exact ⟨term, hnamed.add⟩
  packet_add := FromLeader.add
  packet_orphan h :=
    ⟨fun src waiting peer last req heq => by cases heq; exact h.append _ true peer last req rfl,
      fun src waiting peer last req heq => by cases heq; exact h.snapshot _ true peer last req rfl⟩
  start _ _ _ _ := ⟨nofun, nofun, nofun, fun _ _ he => he.elim⟩
  crash h _ _ _ := ⟨nofun, nofun, nofun, h.told⟩
  act hi hcause _ hact h := by
    have hafter := h.act hi hcause hact
    refine ⟨hafter, ?_⟩
    rintro e rfl p hp
    cases hact with
    | emit hshown =>
      exact hshown.fromLeader (cc.config_id _ hi) (cc.config_peers _ hi) hafter.leads hp
    | lead last hrole hquorum => cases hp
    | accept hinput hrole hterm => cases hp
    | apply entry hinput hrole => cases hp

/-! ## In a run -/

/-- `MemStorage` fails with errors about the log only. -/
theorem MemStorage.faultless : Faultless (StorageFault MemStorage) := by
  rintro leader ⟨es, s, herr⟩
  cases herr

variable {σ : Type} [Storage σ]

/-- Every run has a record of its leaders. -/
theorem leaderChronicle_exec (cc : ClusterConfig) (stores : NodeId → σ) (es : List Event) :
    ∃ w, (leaderChronicle cc (StorageFault σ)).Holds (exec cc (init stores) es) w :=
  Chronicle.holds_exec (fun _ _ _ => trivial) stores es

/-- What is on record has happened. -/
theorem Led.led {c : Cluster σ} (hw : (leaderChronicle cc (StorageFault σ)).Holds c w)
    (h : Led cc w l term) : term ∈ leaderships (c.proc l).history :=
  mem_leaderships.mpr ((hw.shown l h.mem).1 _ h.shown)

/-- Nodes 2 and 3 hear of node 1, a client pings node 2, and it is asked for the leader. -/
def heardRun : List Event :=
  wonRun ++ [⟨.deliver 1, none⟩, ⟨.deliver 1, none⟩, ⟨.ping 2, none⟩, ⟨.client 2 .leader, none⟩]

/-- A ping reaches node 2 in term zero, and node 2 tells a client of leader 0. -/
example :
    let c := exec trio (init fun _ => MemStorage.new)
      [⟨.ping 2, none⟩, ⟨.client 2 .leader, none⟩]
    (c.sm 2).leaderId = some 0 ∧ (c.proc 2).history.filterMap Effect.names = [0] := by
  decide +kernel

/-- **A leader has no rival.**  As long as no term has two leaders, no request of a leader that
is on its way to a node is of a term that node leads.
SRCLINE: iceraft-node/src/node.rs:302-323, 418-424, 574-667 -/
theorem leader_without_rival (cc : ClusterConfig) (stores : NodeId → σ) (es : List Event)
    (i src : NodeId) (waiting : Bool) (task : RpcTask) (term : ℕ)
    (hunique : (exec cc (init stores) es).UniqueLeaders cc) (hi : i ∈ cc.members)
    (hlead : (exec cc (init stores) es).Leads i term)
    (hp : .request src waiting task ∈ (exec cc (init stores) es).net) (hpeer : task.peer = i)
    (hleader : task.input.leader? ≠ none) : task.input.term? ≠ some term := by
  obtain ⟨w, hw⟩ := leaderChronicle_exec cc stores es
  have hfrom : FromLeader cc w (.request src waiting task) := hw.packet _ hp
  have hself : Led cc w i term := by
    rw [← hlead.2]
    exact (hw.node i hi).leads hlead.1
  have hrival {l : NodeId} (hled : Led cc w l term) (hne : task.peer ≠ l) : False :=
    hne (hpeer.trans (hunique i hi l hled.mem term (hself.led hw) (hled.led hw)))
  intro hterm
  cases task with
  | requestVote peer req => exact hleader rfl
  | appendEntries peer last req =>
    cases hterm
    obtain ⟨hled, hne⟩ := hfrom.append _ _ _ _ _ rfl
    exact hrival hled hne
  | installSnapshot peer last req =>
    cases hterm
    obtain ⟨hled, hne⟩ := hfrom.snapshot _ _ _ _ _ rfl
    exact hrival hled hne

/-- Node 2 leads term 2, and its first request is on its way to node 1, which leads term 1. -/
theorem leader_without_rival_succeededRun :
    (exec trio (init fun _ => MemStorage.new) (ackedRun ++ succeededRun)).Leads 1 1 ∧
      (Input.appendEntries ⟨2, 2, 2, 1, [], 0⟩).term? ≠ some 1 :=
  ⟨by decide +kernel, leader_without_rival trio (fun _ => MemStorage.new)
    (ackedRun ++ succeededRun) 1 2 true (.appendEntries 1 2 ⟨2, 2, 2, 1, [], 0⟩) 1
    (by decide +kernel) (by decide) (by decide +kernel) (by decide +kernel) rfl (by decide)⟩

end IceRaft
