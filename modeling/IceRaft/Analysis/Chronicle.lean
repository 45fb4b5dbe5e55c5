import IceRaft.Analysis.History
import IceRaft.Analysis.NodeMachine
import IceRaft.Analysis.Simulation

/-!
# Chronicles

What every node of a cluster has shown so far is a record that only grows.  A chronicle says
what holds of the memory of a node and of a packet, given that record.  If the moves of the
machine keep it, and a boot brings it about, it holds in every run over any storage, crashes
included.
-/

set_option autoImplicit false

namespace IceRaft

open Cluster Abstraction Labelled

/-- What each node has shown. -/
abbrev Record := NodeId → Effect → Prop

/-- The record after `i` has shown `es` as well. -/
def Record.add (w : Record) (i : NodeId) (es : List Effect) : Record :=
  fun j e => w j e ∨ j = i ∧ e ∈ es

namespace Record

variable {w : Record} {i j : NodeId} {es es' : List Effect} {e : Effect}

/-- A record only grows. -/
theorem le_add (h : w j e) : w.add i es j e := .inl h

/-- A node gets the effects it shows. -/
theorem add_self : w.add i es i e ↔ w i e ∨ e ∈ es := by
  unfold add
  rw [and_iff_right rfl]

/-- The others get none. -/
theorem add_of_ne (h : j ≠ i) : w.add i es j = w j := by
  funext e
  exact propext (or_iff_left fun hj => h hj.1)

/-- Nothing shown, nothing recorded. -/
@[simp] theorem add_nil (w : Record) (i : NodeId) : w.add i [] = w := by
  funext j e
  exact propext (or_iff_left fun hj => List.not_mem_nil hj.2)

/-- Effects may be recorded one after the other. -/
theorem add_add (w : Record) (i : NodeId) (es es' : List Effect) :
    (w.add i es).add i es' = w.add i (es ++ es') := by
  funext j e
  apply propext
  unfold add
  rw [List.mem_append, and_or_left, or_assoc]

end Record

/-- The memory right after a boot. -/
def Volatile.booted (term : ℕ) (vote : Option NodeId) (commit : ℕ) : Volatile :=
  ⟨{ currentTerm := term, votedFor := vote, commitIndex := commit, lastApplied := commit }, []⟩

/-- What holds of the nodes and of the packets of a cluster, given what has been shown. -/
structure Chronicle (cc : ClusterConfig) (fault : RaftError → Prop) where
  node : Record → NodeId → Volatile → Prop
  packet : Record → Packet → Prop
  /-- the inputs of the runs considered, given the memory they meet -/
  allows : NodeId → Volatile → Input → Prop
  allows_act : ∀ {i m input o m'}, allows i m input → Act fault (cc.config i) input m o m' →
    allows i m' input
  node_add : ∀ {w i j es m}, j ≠ i → node w j m → node (w.add i es) j m
  packet_add : ∀ {w i es p}, packet w p → packet (w.add i es) p
  packet_orphan : ∀ {w src task}, packet w (.request src true task) →
    packet w (.request src false task)
  start : ∀ i term vote commit, node (fun _ _ => False) i (.booted term vote commit)
  /-- what a crash leaves of the memory -/
  crash : ∀ {w i m}, node w i m → ∀ term vote commit, node w i (.booted term vote commit)
  act : ∀ {w i asker input m o m'}, i ∈ cc.members → Cause (packet w) i asker input →
    allows i m input → Act fault (cc.config i) input m o m' → node w i m →
    node (w.add i o.toList) i m' ∧
      ∀ e, o = some e → ∀ p, e.packet i asker = some p → packet (w.add i o.toList) p

/-- A cause, after more has become known of the packets. -/
theorem Cause.mono {packet packet' : Packet → Prop} {i : NodeId}
    {asker : Option (NodeId × RpcTask)} {input : Input} (h : Cause packet i asker input)
    (himp : ∀ p, packet p → packet' p) : Cause packet' i asker input := by
  cases h with
  | timer electionDue heartbeatDue => exact .timer electionDue heartbeatDue
  | client call tx => exact .client call tx
  | ping => exact .ping
  | request src task hp hpeer => exact .request src task (himp _ hp) hpeer
  | orphan src task hp hpeer => exact .orphan src task (himp _ hp) hpeer
  | response msg hp => exact .response msg (himp _ hp)

namespace Chronicle

variable {cc : ClusterConfig} {fault : RaftError → Prop} (C : Chronicle cc fault) {σ : Type}

/-- The record agrees with a history, but for the marks of the boots. -/
def Matches (w : Record) (i : NodeId) (h : List Effect) : Prop :=
  (∀ e, w i e → e ∈ h) ∧ ∀ e ∈ h, w i e ∨ ∃ commit, e = .restored commit

/-- A record and a history that match grow together. -/
theorem Matches.add {w : Record} {i : NodeId} {h es : List Effect} (hw : Matches w i h) :
    Matches (w.add i es) i (h ++ es) := by
  refine ⟨fun e he => ?_, fun e he => ?_⟩
  · rcases Record.add_self.mp he with hold | hnew
    · exact List.mem_append_left _ (hw.1 e hold)
    · exact List.mem_append_right _ hnew
  · rcases List.mem_append.mp he with hold | hnew
    · exact (hw.2 e hold).imp_left Record.le_add
    · exact .inl (Record.add_self.mpr (.inr hnew))

/-- A chronicle as an abstraction of a cluster over any storage. -/
def abstraction (σ : Type) : Abstraction σ Record where
  step i a b := ∃ es, b = a.add i es
  good _ := True
  node a i h n := Matches a i h ∧ C.node a i n.volatile
  durable a i h _ := Matches a i h ∧ ∃ m, C.node a i m
  packet := C.packet
  legal _ _ _ := True
  cond _ cfg n input _ := C.allows cfg.id n.volatile input
  good_step _ _ := trivial
  node_step := by
    rintro i j a b h n ⟨es, rfl⟩ - hj ⟨hmatch, hn⟩
    refine ⟨?_, C.node_add hj hn⟩
    unfold Matches
    rw [Record.add_of_ne hj]
    exact hmatch
  packet_step := by
    rintro i a b p ⟨es, rfl⟩ - hp
    exact C.packet_add hp
  packet_orphan := C.packet_orphan

/-- A walk of the machine keeps what the chronicle says, and its packets are as they
should be. -/
theorem walk {w : Record} {i : NodeId} {asker : Option (NodeId × RpcTask)} {input : Input}
    {m m' : Volatile} {es : List Effect} (hi : i ∈ cc.members)
    (hcause : Cause (C.packet w) i asker input) (hallow : C.allows i m input)
    (h : Walk (Act fault (cc.config i) input) m es m') (hn : C.node w i m) :
    C.node (w.add i es) i m' ∧
      ∀ e ∈ es, ∀ p, e.packet i asker = some p → C.packet (w.add i es) p := by
  have hwalk : C.allows i m' input ∧ C.node (w.add i es) i m' ∧
      ∀ e ∈ es, ∀ p, e.packet i asker = some p → C.packet (w.add i es) p := by
    refine h.keeps (I := fun es m => C.allows i m input ∧ C.node (w.add i es) i m ∧
      ∀ e ∈ es, ∀ p, e.packet i asker = some p → C.packet (w.add i es) p) ?_ ?_
    · rw [Record.add_nil]
      exact ⟨hallow, hn, nofun⟩
    · rintro es m o m' hact ⟨hallow, hn, hp⟩
      obtain ⟨hn', hp'⟩ := C.act hi (hcause.mono fun _ => C.packet_add) hallow hact hn
      rw [Record.add_add] at hn' hp'
      refine ⟨C.allows_act hallow hact, hn', fun e he p hpe => ?_⟩
      rcases List.mem_append.mp he with hold | hnew
      · rw [← Record.add_add]
        exact C.packet_add (hp e hold p hpe)
      · exact hp' e (Option.mem_toList.mp hnew) p hpe
  exact hwalk.2

variable [Storage σ] {C : Chronicle cc (StorageFault σ)}

/-- A chronicle that every act keeps is a simulation. -/
theorem simulation {i : NodeId} (hi : i ∈ cc.members) :
    Simulation (C.abstraction σ) (cc.config i) i where
  turn := by
    rintro a h n asker input crashAt - ⟨hmatch, hn⟩ hcause hallow
    have hallow' : C.allows i n.volatile input := by
      rw [← cc.config_id i hi]
      exact hallow
    have hwalk := Process.turn_walk (cc.config i) input ⟨n, true, []⟩
    refine ⟨fun k _ => ?_, fun _ => ?_⟩
    · obtain ⟨m, hcut⟩ := Process.emitted_walk (cc.config i) input (some k) ⟨n, true, []⟩
      obtain ⟨hn', hp⟩ := C.walk hi hcause hallow' hcut hn
      exact ⟨_, .single ⟨_, rfl⟩, ⟨hmatch.add, m, hn'⟩, hp⟩
    · obtain ⟨hn', hp⟩ := C.walk hi hcause hallow' hwalk hn
      exact ⟨_, .single ⟨_, rfl⟩, trivial, hp, hmatch.add, hn'⟩
  restart := by
    rintro a h n input k - - turn cut ⟨hmatch, m, hn⟩
    obtain ⟨term, vote, commit, hboot⟩ := Process.boot_volatile cut.storage
    refine ⟨⟨fun e he => List.mem_append_left _ (hmatch.1 e he), fun e he => ?_⟩, ?_⟩
    · rcases List.mem_append.mp he with hold | hnew
      · exact hmatch.2 e hold
      · obtain ⟨mark, hhistory⟩ := Process.boot_history cut.storage
        rw [hhistory] at hnew
        exact .inr ⟨mark, List.mem_singleton.mp hnew⟩
    · rw [hboot]
      exact C.crash hn term vote commit

/-- What the chronicle says of a cluster. -/
structure Holds (c : Cluster σ) (w : Record) : Prop where
  shown : ∀ i ∈ cc.members, Matches w i (c.proc i).history
  node : ∀ i ∈ cc.members, C.node w i (c.proc i).node.volatile
  packet : ∀ p ∈ c.net, C.packet w p

/-- The nodes, packets and records of a cluster are what the simulation asks for. -/
theorem Holds.simulated {c : Cluster σ} {w : Record} (h : C.Holds c w) : Simulation.Holds cc (C.abstraction σ) c w :=
  ⟨trivial, fun i hi => ⟨h.shown i hi, h.node i hi⟩, h.packet⟩

/-- At the start nothing is on record. -/
theorem holds_init (stores : NodeId → σ) :
    C.Holds (init stores) fun _ _ => False where
  shown i _ := by
    obtain ⟨mark, hhistory⟩ := Process.boot_history (stores i)
    refine ⟨nofun, fun e he => .inr ⟨mark, ?_⟩⟩
    have hmem : e ∈ (Process.boot (stores i)).history := he
    rw [hhistory] at hmem
    exact List.mem_singleton.mp hmem
  node i _ := by
    obtain ⟨term, vote, commit, hboot⟩ := Process.boot_volatile (stores i)
    show C.node _ i (Process.boot (stores i)).node.volatile
    rw [hboot]
    exact C.start i term vote commit
  packet := nofun

/-- The inputs of a run are all allowed. -/
def Allowed (c : Cluster σ) (e : Event) : Prop :=
  ∀ i input, c.input? cc e.action = some (i, input) → C.allows i (c.proc i).node.volatile input

/-- **Run lemma.** -/
theorem holds_run {c : Cluster σ} {w : Record} (h : C.Holds c w) {es : List Event}
    (hallow : Runs.Within (Cluster.step cc) C.Allowed c es) :
    ∃ w', (∀ i e, w i e → w' i e) ∧ C.Holds (exec cc c es) w' := by
  have hcond : ∀ c e, C.Allowed c e → ∀ i input, c.input? cc e.action = some (i, input) →
      (C.abstraction σ).cond (c.proc i).history (cc.config i) (c.proc i).node input
        e.crashAt := by
    intro c e hok i input hin
    show C.allows (cc.config i).id (c.proc i).node.volatile input
    rw [cc.config_id i (mem_of_input hin)]
    exact hok i input hin
  obtain ⟨w', hgrow, hw'⟩ := Simulation.holds_run (fun i hi => C.simulation hi) hcond
    (fun _ _ _ _ _ _ _ _ _ _ => trivial) h.simulated hallow
  refine ⟨w', ?_, fun i hi => (hw'.node i hi).1, fun i hi => (hw'.node i hi).2, hw'.packet⟩
  clear hw'
  induction hgrow with
  | refl => exact fun _ _ he => he
  | tail _ hstep ih =>
    obtain ⟨i, es, rfl⟩ := hstep
    exact fun j e he => Record.le_add (ih j e he)

/-- Where every input is allowed. -/
theorem holds_exec (hall : ∀ i m input, C.allows i m input) (stores : NodeId → σ)
    (es : List Event) : ∃ w, C.Holds (exec cc (init stores) es) w := by
  have hallow : Runs.Within (Cluster.step cc) C.Allowed (init stores) es :=
    Runs.within_of_forall fun _ _ i input _ => hall i _ input
  obtain ⟨w, -, hw⟩ := C.holds_run (C.holds_init stores) hallow
  exact ⟨w, hw⟩

end Chronicle

end IceRaft
