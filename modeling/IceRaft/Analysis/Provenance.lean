import IceRaft.Analysis.History
import IceRaft.Analysis.MemLog
import IceRaft.Analysis.Simulation
import IceRaft.Analysis.TurnSteps
import IceRaft.Interface.FlakyStorage

/-!
# Where entries come from

An entry is made in one place, where a leader takes a proposal.  Everything else carries
entries from storages into packets and back.  So what a log holds, a packet carries or an
application is sent was proposed by a client.
-/

set_option autoImplicit false

namespace IceRaft

open Cluster Abstraction FaithfulEntries

/-! ## Storages that make no entry up -/

namespace MemStorage

/-- A log holds what it held, and the batch. -/
theorem mem_of_mem_appendEntries {s : MemStorage} {batch : List LogEntry} {e : LogEntry}
    (h : e ∈ (s.appendEntries batch).entries) : e ∈ s.entries ∨ e ∈ batch := by
  cases batch with
  | nil => exact .inl h
  | cons head rest =>
    rcases List.mem_append.mp h with hkept | hbatch
    · left
      dsimp only at hkept
      split at hkept
      · split at hkept
        · exact List.mem_of_mem_take hkept
        · exact hkept
      · exact hkept
    · exact .inr hbatch

/-- A snapshot brings no entry. -/
theorem mem_of_mem_applySnapshot {s : MemStorage} {snap : Snapshot} {e : LogEntry}
    (h : e ∈ (s.applySnapshot snap).entries) : e ∈ s.entries := by
  unfold applySnapshot at h
  dsimp only at h
  split at h
  · split at h
    · cases h
    · exact List.mem_of_mem_drop h
  · exact h

/-- What is read is in the log. -/
theorem mem_of_readEntries {s : MemStorage} {lo hi : ℕ} {max : Option ℕ} {es : List LogEntry}
    (h : s.readEntries lo hi max = .ok es) {e : LogEntry} (he : e ∈ es) : e ∈ s.entries := by
  have hwhole : ∀ es', s.readEntries lo hi none = .ok es' → ∀ e ∈ es', e ∈ s.entries := by
    intro es' hread e' hmem
    unfold readEntries at hread
    dsimp only at hread
    split at hread
    · cases hread
    · split at hread
      · cases hread
      · split at hread
        · cases hread
          cases hmem
        · cases hread
          exact List.mem_of_mem_drop (List.mem_of_mem_take hmem)
  cases max with
  | none => exact hwhole es h e he
  | some max =>
    rw [readEntries_capped] at h
    cases hread : s.readEntries lo hi none with
    | error err =>
      rw [hread] at h
      cases h
    | ok es' =>
      rw [hread] at h
      cases h
      exact hwhole es' hread e ((CappedPrefix.page_isPrefix _ _ es').subset he)

end MemStorage

instance : FaithfulEntries MemStorage where
  hasEntry s e := e ∈ s.entries
  of_save _ _ _ h := h
  of_load _ _ h := h
  of_firstIndex _ _ h := h
  of_lastIndex _ _ h := h
  of_term _ _ _ h := h
  of_entries _ _ _ _ _ h := h
  of_snapshot _ _ h := h
  of_append _ _ _ h := MemStorage.mem_of_mem_appendEntries h
  of_applySnapshot _ _ _ h := MemStorage.mem_of_mem_applySnapshot h
  hasEntry_of_read _ _ _ _ _ h _ he := MemStorage.mem_of_readEntries h he

/-- A save that fails adds nothing, either. -/
instance {σ : Type} [Storage σ] [FaithfulEntries σ] : FaithfulEntries (FlakyStorage σ) where
  hasEntry s e := hasEntry s.store e
  of_save hs s e h := by
    obtain ⟨store, outcomes⟩ := s
    cases outcomes with
    | nil => exact of_save hs store e h
    | cons o rest =>
      cases o with
      | none => exact of_save hs store e h
      | some err => exact h
  of_load s := of_load s.store
  of_firstIndex s := of_firstIndex s.store
  of_lastIndex s := of_lastIndex s.store
  of_term i s := of_term i s.store
  of_entries lo hi max s := of_entries lo hi max s.store
  of_snapshot s := of_snapshot s.store
  of_append es s := of_append es s.store
  of_applySnapshot snap s := of_applySnapshot snap s.store
  hasEntry_of_read lo hi max s := hasEntry_of_read lo hi max s.store

/-! ## One turn -/

variable {σ : Type} [Storage σ] [FaithfulEntries σ]

/-- The storage of the node holds only entries in `P`. -/
def Drawn (P : LogEntry → Prop) (n : RaftNodeInner σ) : Prop := ∀ e, hasEntry n.storage e → P e

/-- The effect shows only entries in `P`. -/
def Effect.drawn (P : LogEntry → Prop) : Effect → Prop
  | .spawned (.appendEntries _ _ req) => ∀ e ∈ req.entries, P (protoEntryToLogEntry e)
  | .applied e => P e
  | _ => True

/-- `y` continues `x` and takes its entries from `P`. -/
def Draws (P : LogEntry → Prop) (x y : NodeTurn σ) : Prop :=
  Drawn P x.node → Turn.Quiet (fun n n' => Drawn P n → Drawn P n') (Effect.drawn P) x y

/-- The entry a leader makes of `data`. -/
def RaftNodeInner.entryFor {σ : Type} [Storage σ] (data : Bytes) (n : RaftNodeInner σ) :
    LogEntry :=
  ⟨n.sm.currentTerm, unwrapOr (Storage.lastIndex n.storage).1 0 + 1, data, .normal⟩

namespace Draws

variable {P : LogEntry → Prop} {x y z : NodeTurn σ} {cfg : RaftConfig}

/-- No code, no entry. -/
theorem done (x : NodeTurn σ) : Draws P x x := fun _ => .refl (fun _ h => h) x

/-- Code in a row draws its entries from one source. -/
theorem next (h : Draws P x y) (h' : Draws P y z) : Draws P x z := by
  intro hx
  have hxy := h hx
  exact hxy.trans (fun hab hbc ha => hbc (hab ha)) (h' (hxy.node hx))

/-- A change draws from where the node has its entries. -/
theorem change {f : RaftNodeInner σ → RaftNodeInner σ}
    (hf : Drawn P x.node → Drawn P (f x.node)) : Draws P x (x.update f) := fun _ => .modify hf

/-- The Raft state holds no entry. -/
theorem modifySm (f : RaftStateMachine → RaftStateMachine) (x : NodeTurn σ) :
    Draws P x (x.modifySm f) := by
  unfold NodeTurn.modifySm
  exact change fun h => h

/-- The counters hold no entry. -/
theorem modifyMetrics (f : RaftMetrics → RaftMetrics) (x : NodeTurn σ) :
    Draws P x (x.modifyMetrics f) := by
  unfold NodeTurn.modifyMetrics
  exact change fun h => h

/-- An effect draws from the source if what it shows does. -/
theorem emit {e : Effect} (he : e.drawn P) : Draws P x (x.effect e) :=
  fun _ => .emit (fun _ h => h) he

/-- A read draws from the source if it brings the disk no entry. -/
theorem read {α : Type} {op : σ → Except RaftError α × σ}
    (hop : ∀ s e, hasEntry (op s).2 e → hasEntry s e) (x : NodeTurn σ) :
    Draws P x (x.read op).2 := by
  have hstore : Draws P x (x.update fun n => { n with storage := (op x.node.storage).2 }) :=
    change fun h e he => h e (hop _ e he)
  exact hstore

/-- A write draws from the source if what it writes does. -/
theorem write {α : Type} {op : σ → Except RaftError α × σ}
    (hop : ∀ s e, hasEntry (op s).2 e → hasEntry s e ∨ P e) (x : NodeTurn σ) :
    Draws P x (x.write op).2 := by
  have hstore : Draws P x (x.update fun n => { n with storage := (op x.node.storage).2 }) :=
    change fun h e he => (hop _ e he).elim (h e) id
  exact hstore.next (emit trivial)

/-- What is read from a storage was in it. -/
theorem read_entries {lo hi : ℕ} {max : Option ℕ} {es : List LogEntry}
    (hx : Drawn P x.node) (h : x.read (Storage.entries lo hi max) = (.ok es, y)) :
    ∀ e ∈ es, P e :=
  fun e he => hx e (hasEntry_of_read lo hi max _ es (congrArg Prod.fst h) e he)

/-- An answer shows no entry. -/
theorem notifyPending (x : NodeTurn σ) : Draws P x x.notifyPending := by
  unfold NodeTurn.notifyPending
  refine next (change fun h => h) (Turn.foldl_related done next _ _ (fun y w _ => ?_) _)
  unfold NodeTurn.notifyOne
  split
  · exact emit trivial
  · exact change fun h => h

/-- Everything but a proposal takes its entries from what is there. -/
theorem stepLaw (P : LogEntry → Prop) (cfg : RaftConfig) :
    StepLaw cfg (fun es => ∀ e ∈ es, P e) (Draws (σ := σ) P) where
  done := done
  next := next
  modifySm := modifySm
  modifyMetrics := modifyMetrics
  setSnapshotBuf _ _ := change fun h => h
  note {e} he x := by
    refine emit ?_
    cases e with
    | spawned task =>
      cases task with
      | appendEntries _ _ _ => exact he.elim
      | _ => trivial
    | applied _ => exact he.elim
    | _ => trivial
  firstIndex := read of_firstIndex
  lastIndex := read of_lastIndex
  term i := read (of_term i)
  snapshot := read of_snapshot
  entries lo hi max := read (of_entries lo hi max)
  save hs := write fun s e he => .inl (of_save hs s e he)
  append hes := write fun s e he => (of_append _ s e he).imp_right (hes e)
  applySnapshot snap := write fun s e he => .inl (of_applySnapshot snap s e he)
  heartbeat _ _ _ _ := emit fun e he => by cases he
  send := by
    intro peer prev prevTerm lo hi max es x y h hx
    have hread : Draws P x (x.read (Storage.entries lo hi max)).2 := read (of_entries _ _ _) x
    have hes := read_entries hx h
    rw [h] at hread
    refine hread.next (emit ?_) hx
    intro e he
    obtain ⟨e', he', rfl⟩ := List.mem_map.mp he
    rw [protoEntryToLogEntry_logEntryToProtoEntry]
    exact hes e' he'
  apply := by
    intro lo hi es x y h hx
    have hread : Draws P x (x.read (Storage.entries lo hi none)).2 := read (of_entries _ _ _) x
    have hes := read_entries hx h
    rw [h] at hread
    refine hread.next (Turn.foldl_related done next _ _ (fun z e he => ?_) y) hx
    exact (modifySm _ z).next (emit (hes e he))
  notify := notifyPending

/-- The one place where an entry is made. -/
theorem onProposal (proposal : Proposal) (x : NodeTurn σ)
    (hentry : x.sm.role = .leader → P (x.node.entryFor proposal.data)) :
    Draws P x (x.onProposal cfg proposal) := by
  unfold NodeTurn.onProposal
  dsimp only
  split
  · split
    · exact emit trivial
    · exact done x
  · rename_i hrole
    have hnew := hentry (Decidable.not_not.mp hrole)
    generalize hwritten : (NodeTurn.write _ _ : Except RaftError Unit × NodeTurn σ) = written
    have hwrite : Draws P x written.2 := by
      rw [← hwritten]
      refine ((stepLaw P cfg).lastIndexOr0 x).next ((stepLaw P cfg).append ?_ _)
      intro e he
      rw [List.mem_singleton.mp he]
      exact hnew
    obtain ⟨result, y⟩ := written
    cases result with
    | error err =>
      refine hwrite.next ?_
      dsimp only
      split
      · exact emit trivial
      · exact done y
    | ok _ =>
      refine hwrite.next (next ?_ ((stepLaw P cfg).replicateAll _))
      split
      · refine next (change ?_) (emit trivial)
        exact fun h => h
      · exact done y

end Draws

/-! ## A run -/

/-- The packet carries only entries in `P`, and no response is a proposal. -/
def Packet.drawn (P : LogEntry → Prop) : Packet → Prop
  | .request _ _ (.appendEntries _ _ req) => ∀ e ∈ req.entries, P (protoEntryToLogEntry e)
  | .response _ (.propose _) => False
  | _ => True

variable {P : LogEntry → Prop} {cc : ClusterConfig} {c : Cluster σ} {i : NodeId}

/-- A turn draws from what the node has, what its input brings, and the entry of its proposal. -/
theorem run_draws {cfg : RaftConfig} {asker : Option (NodeId × RpcTask)} {input : Input}
    {x : NodeTurn σ} (hcause : Cause (Packet.drawn P) i asker input)
    (hentry : ∀ proposal, input = .message (.propose proposal) → x.sm.role = .leader →
      P (x.node.entryFor proposal.data)) : Draws P x (NodeTurn.run cfg input x) := by
  by_cases hcall : ∀ msg, input = .message msg → msg.silent
  · refine (Draws.stepLaw P cfg).run ?_ hcall x
    rintro req rfl e he
    obtain ⟨e', he', rfl⟩ := List.mem_map.mp he
    obtain ⟨-, rfl⟩ | ⟨src, waiting, last, hpacket, -⟩ := hcause.appendEntries
    · cases he'
    · exact hpacket e' he'
  · push Not at hcall
    obtain ⟨msg, rfl, hcall⟩ := hcall
    cases msg with
    | propose proposal => exact .onProposal proposal x (hentry proposal rfl)
    | getLeader tx => exact .emit trivial
    | getTerm tx => exact .emit trivial
    | readIndex tx => exact .emit trivial
    | _ => exact (hcall trivial).elim

/-- What holds of a node: it holds and has applied only entries in `P`. -/
structure DrawnNode (P : LogEntry → Prop) (h : List Effect) (n : RaftNodeInner σ) : Prop where
  stored : Drawn P n
  applied : ∀ e, Effect.applied e ∈ h → P e

/-- All entries come from `P`, where all that leaders make of proposals are in `P`. -/
def drawing (P : LogEntry → Prop) : Abstraction σ Unit where
  step _ _ _ := False
  good _ := True
  node _ _ h n := DrawnNode P h n
  durable _ _ h n := DrawnNode P h n
  packet _ p := p.drawn P
  legal _ _ _ := True
  cond _ _ n input _ := ∀ proposal, input = .message (.propose proposal) → n.sm.role = .leader →
    P (n.entryFor proposal.data)
  good_step hs := hs.elim
  node_step hs := hs.elim
  packet_step hs := hs.elim
  packet_orphan {_ _ task} hp := by
    cases task with
    | appendEntries peer last req => exact hp
    | _ => trivial

/-- The packet of an effect that takes its entries from `P`. -/
theorem Effect.drawn.packet {e : Effect} (he : e.drawn P)
    {asker : Option (NodeId × RpcTask)} : (drawing (σ := σ) P).effect () i asker e := by
  intro p hp
  obtain ⟨task, rfl, rfl⟩ | ⟨src, peer, req, resp, rfl, rfl⟩ |
    ⟨src, peer, last, req, resp, rfl, rfl⟩ | ⟨src, peer, last, req, resp, rfl, rfl⟩ :=
    Effect.packet_cases hp
  · cases task with
    | appendEntries peer last req => exact he
    | _ => trivial
  · trivial
  · trivial
  · trivial

/-- A node stays drawn as it shows what is drawn. -/
theorem DrawnNode.append {h : List Effect} {n : RaftNodeInner σ} (hn : DrawnNode P h n)
    {e : Effect} (he : e.drawn P) : DrawnNode P (h ++ [e]) n := by
  refine ⟨hn.stored, fun e' hmem => ?_⟩
  rcases List.mem_append.mp hmem with hold | hnew
  · exact hn.applied e' hold
  · obtain rfl := List.mem_singleton.mp hnew
    exact he

/-- A restart only reads the hard state. -/
theorem DrawnNode.boot {h : List Effect} {n : RaftNodeInner σ} (hn : DrawnNode P h n) :
    DrawnNode P (h ++ (Process.boot n.storage).history) (Process.boot n.storage).node := by
  have hstore : (Process.boot n.storage).node.storage = (Storage.loadHardState n.storage).2 := by
    unfold Process.boot NodeTurn.restore
    dsimp only
    split
    · rename_i heq
      exact (congrArg (fun r => r.2.node.storage) heq).symm
    · rename_i heq
      exact (congrArg (fun r => r.2.node.storage) heq).symm
  obtain ⟨commit, hhist⟩ := Process.boot_history n.storage
  rw [hhist]
  refine DrawnNode.append ⟨?_, hn.applied⟩ trivial
  intro e he
  rw [hstore] at he
  exact hn.stored e (of_load _ e he)

/-- Every turn keeps all entries drawn from the source. -/
theorem drawing_simulation (P : LogEntry → Prop) (cfg : RaftConfig) (i : NodeId) :
    Simulation (drawing (σ := σ) P) cfg i where
  turn := by
    intro a h n asker input crashAt hg hn hcause hcond
    have hstart : (drawing P).Follows a i h asker n (fun _ H n => DrawnNode P H n)
        (Turn.start n) := Follows.start hg hn hn
    refine hstart.quiet (run_draws hcause hcond hn.stored) ?_ ?_ ?_
    · exact fun _ _ _ _ hkeep hq => ⟨hkeep hq.stored, hq.applied⟩
    · exact fun _ _ _ _ he hq => ⟨hq.append he, he.packet⟩
    · exact fun _ _ _ hq => hq
  restart _ _ hd := hd.boot

/-! ## What leaders take -/

namespace Cluster

/-- The entry that an event makes a leader write. -/
def taken? {σ : Type} [Storage σ] (cc : ClusterConfig) (c : Cluster σ) (e : Event) :
    Option LogEntry :=
  match c.input? cc e.action with
  | some (i, .message (.propose proposal)) =>
    if (c.sm i).role = .leader then some ((c.proc i).node.entryFor proposal.data) else none
  | _ => none

/-- The entries that leaders wrote in the run from `c` along `es`, in the order in which they
took the proposals. -/
def taken {σ : Type} [Storage σ] (cc : ClusterConfig) (c : Cluster σ) (es : List Event) :
    List LogEntry :=
  Runs.outputs (step cc) (taken? cc) c es

end Cluster

/-- The payload of the proposal a client submits. -/
def Event.payload? (e : Event) : Option Bytes :=
  match e.action with
  | .client _ (.propose data) => some data
  | _ => none

omit [FaithfulEntries σ] in
/-- The proposal that reaches a leader is the one it takes. -/
theorem taken?_of_input {e : Event} {proposal : Proposal}
    (hin : c.input? cc e.action = some (i, .message (.propose proposal)))
    (hrole : (c.sm i).role = .leader) :
    c.taken? cc e = some ((c.proc i).node.entryFor proposal.data) := by
  unfold Cluster.taken?
  rw [hin]
  exact if_pos hrole

omit [FaithfulEntries σ] in
/-- What a leader takes is a proposal. -/
theorem exists_of_taken? {e : Event} {entry : LogEntry} (h : c.taken? cc e = some entry) :
    ∃ i proposal, c.input? cc e.action = some (i, .message (.propose proposal)) ∧
      (c.sm i).role = .leader ∧ (c.proc i).node.entryFor proposal.data = entry := by
  unfold Cluster.taken? at h
  split at h
  · rename_i i proposal hin
    obtain ⟨hrole, hentry⟩ := Option.ite_none_right_eq_some.mp h
    exact ⟨i, proposal, hin, hrole, Option.some.inj hentry⟩
  · cases h

omit [Storage σ] [FaithfulEntries σ] in
/-- Only a client proposes. -/
theorem payload?_of_input (hnet : ∀ p ∈ c.net, p.drawn P) {e : Event} {proposal : Proposal}
    (hin : c.input? cc e.action = some (i, .message (.propose proposal))) :
    e.payload? = some proposal.data := by
  obtain ⟨action, crashAt⟩ := e
  cases action with
  | timer j electionDue heartbeatDue =>
    obtain ⟨-, heq⟩ := Option.ite_none_right_eq_some.mp hin
    cases heq
  | client j call =>
    obtain ⟨-, heq⟩ := Option.ite_none_right_eq_some.mp hin
    cases call with
    | propose data =>
      cases heq
      rfl
    | _ => cases heq
  | ping j =>
    obtain ⟨-, heq⟩ := Option.ite_none_right_eq_some.mp hin
    cases heq
  | deliver k =>
    dsimp only [input?] at hin
    cases hk : c.net[k]? with
    | none =>
      rw [hk] at hin
      cases hin
    | some p =>
      have hp := hnet p (List.mem_of_getElem? hk)
      rw [hk] at hin
      cases p with
      | request src waiting task =>
        obtain ⟨-, heq⟩ := Option.ite_none_right_eq_some.mp hin
        cases task with
        | requestVote _ _ => cases heq
        | appendEntries _ _ _ => cases heq
        | installSnapshot _ _ _ => cases heq
      | response dst msg =>
        obtain ⟨-, heq⟩ := Option.ite_none_right_eq_some.mp hin
        cases heq
        exact hp.elim
  | duplicate k => cases hin
  | lose k => cases hin

/-- A run in which all that leaders take is in `P`. -/
theorem drawing_run {stores : NodeId → σ} {es : List Event}
    (hstores : ∀ i ∈ cc.members, ∀ e, hasEntry (stores i) e → P e)
    (htaken : ∀ e ∈ taken cc (init stores) es, P e) :
    Simulation.Holds cc (drawing P) (exec cc (init stores) es) () := by
  have hinit : Simulation.Holds cc (drawing P) (init stores) () := by
    refine ⟨trivial, ?_, fun p hp => by cases hp⟩
    intro i hi
    have hbase : DrawnNode P [] (RaftNodeInner.new (stores i)) :=
      ⟨hstores i hi, fun e he => by cases he⟩
    exact hbase.boot
  obtain ⟨u, -, hrun⟩ := Simulation.holds_run (fun i _ => drawing_simulation P (cc.config i) i)
    (fun c e htake i input hin proposal hinput hrole =>
      htake _ (taken?_of_input (by rw [← hinput]; exact hin) hrole))
    (fun _ _ _ _ _ _ _ _ _ _ => trivial) hinit (Runs.within_outputs htaken)
  exact hrun

/-- Every entry of the cluster is in `P`: those in storages, those on their way to a follower,
and those sent to an application. -/
structure Genuine (cc : ClusterConfig) (P : LogEntry → Prop) (c : Cluster σ) : Prop where
  stored : ∀ i ∈ cc.members, ∀ e, hasEntry (c.store i) e → P e
  sent : ∀ src waiting peer last req,
    Packet.request src waiting (.appendEntries peer last req) ∈ c.net →
      ∀ e ∈ req.entries, P (protoEntryToLogEntry e)
  applied : ∀ i ∈ cc.members, ∀ e ∈ applications (c.proc i).history, P e

/-- Every entry of a run was taken from a caller, or was there at the start. -/
theorem genuine_run (cc : ClusterConfig) (stores : NodeId → σ) (es : List Event) :
    Genuine cc (fun e => e ∈ taken cc (init stores) es ∨ ∃ i ∈ cc.members, hasEntry (stores i) e)
      (exec cc (init stores) es) := by
  have hrun : Simulation.Holds cc (drawing fun e => e ∈ taken cc (init stores) es ∨
      ∃ i ∈ cc.members, hasEntry (stores i) e) (exec cc (init stores) es) () :=
    drawing_run (fun i hi e he => .inr ⟨i, hi, he⟩) fun e he => .inl he
  refine ⟨fun i hi => (hrun.node i hi).stored, ?_, ?_⟩
  · exact fun src waiting peer last req hp => hrun.packet _ hp
  · exact fun i hi e he => (hrun.node i hi).applied e (mem_applications.mp he)

/-- What leaders take are proposals of clients, each taken at most once. -/
theorem taken_payloads (cc : ClusterConfig) (stores : NodeId → σ) (es : List Event) :
    ((taken cc (init stores) es).map LogEntry.data).Sublist (es.filterMap Event.payload?) := by
  induction es using List.reverseRecOn with
  | nil => exact List.Sublist.refl _
  | append_singleton es e ih =>
    have hsplit : taken cc (init stores) (es ++ [e]) =
        taken cc (init stores) es ++ ((exec cc (init stores) es).taken? cc e).toList := by
      unfold taken
      rw [Runs.outputs_append]
      exact congrArg _ (List.append_nil _)
    rw [hsplit, List.map_append, List.filterMap_append]
    refine ih.append ?_
    cases htake : (exec cc (init stores) es).taken? cc e with
    | none => exact List.nil_sublist _
    | some entry =>
      obtain ⟨i, proposal, hin, -, hentry⟩ := exists_of_taken? htake
      have hrun : Simulation.Holds cc (drawing fun _ => True) (exec cc (init stores) es) () :=
        drawing_run (fun _ _ _ _ => trivial) fun _ _ => trivial
      have hpayload : e.payload? = some proposal.data :=
        payload?_of_input (P := fun _ => True) hrun.packet hin
      rw [List.filterMap_cons, hpayload, ← hentry]
      exact List.Sublist.refl _

/-- **Nothing is made up**: over any storage that makes no entry up, in every run with any
crashes, an entry that is stored, sent or applied was in a storage at the start, or a leader
wrote it for a proposal, in its own term and behind its own log; and the payloads of what the
leaders wrote are those of proposals that clients submitted, each at most once and in the order in
which the event loops of the leaders took them.  An entry counts as written when it is handed to
the storage, also where that append fails.
SRCLINE: iceraft-node/src/node.rs:116-129, 344-352, 471-503, 574-637, 803-818 -/
theorem entries_were_proposed (cc : ClusterConfig) (stores : NodeId → σ) (es : List Event) :
    Genuine cc (fun e => e ∈ taken cc (init stores) es ∨ ∃ i ∈ cc.members, hasEntry (stores i) e)
        (exec cc (init stores) es) ∧
      ((taken cc (init stores) es).map LogEntry.data).Sublist (es.filterMap Event.payload?) :=
  ⟨genuine_run cc stores es, taken_payloads cc stores es⟩

end IceRaft
