import IceRaft.Analysis.BookkeepingRun
import IceRaft.Analysis.CommitSafety
import IceRaft.Analysis.Delivery

/-!
# Answers to proposals

The channel of a proposal is used once, so the entry it was accepted as is unique.  A
pending proposal waits for an index; it is answered for its own entry as long as nothing
replaces the entry at that index while it waits.  The code keeps the pending list when the
node steps down, and the log under it may then be overwritten.
-/

set_option autoImplicit false

namespace IceRaft

open Cluster Abstraction MemStorage

/-- No snapshot is ever sent. -/
def Wire.plain : Wire := ⟨fun _ => True, fun _ => False⟩

/-- A log without a snapshot begins at its first index. -/
theorem logKept_of_none {cfg : RaftConfig} {n : RaftNodeInner MemStorage} {input : Input}
    {crashAt : Option ℕ} (h : n.storage.snapshot = none) : LogKept cfg n input crashAt := by
  have hfirst := firstIndex_of_none h
  refine ⟨?_, ?_⟩
  · unfold StartsInLog
    split
    · intro _ _
      omega
    · trivial
  · unfold SnapshotsAdvance
    split
    · intro _
      omega
    · trivial

/-! ## Channels -/

/-- The channel an input carries. -/
def Input.sender? : Input → Option Sender
  | .message (.propose proposal) => proposal.tx
  | .message (.readIndex tx) => some tx
  | _ => none

/-- Only a client brings a channel, and it is a new one. -/
theorem sender_of_input {W : Wire} {cc : ClusterConfig} {c : Cluster MemStorage} {e : Action}
    {i : NodeId} {input : Input} {tx : Sender} (hnet : ∀ p ∈ c.net, PacketTidy W p)
    (hin : c.input? cc e = some (i, input)) (htx : input.sender? = some tx) :
    tx = c.nextSender := by
  cases e with
  | timer j ed hd =>
    simp only [input?, Option.ite_none_right_eq_some, Option.some.injEq, Prod.mk.injEq] at hin
    obtain ⟨-, -, rfl⟩ := hin
    cases htx
  | client j call =>
    simp only [input?, Option.ite_none_right_eq_some, Option.some.injEq, Prod.mk.injEq] at hin
    obtain ⟨-, -, rfl⟩ := hin
    cases call with
    | propose data => exact (Option.some.inj htx).symm
    | readIndex => exact (Option.some.inj htx).symm
    | _ => cases htx
  | ping j =>
    simp only [input?, Option.ite_none_right_eq_some, Option.some.injEq, Prod.mk.injEq] at hin
    obtain ⟨-, -, rfl⟩ := hin
    cases htx
  | deliver k =>
    simp only [input?] at hin
    cases hk : c.net[k]? with
    | none => simp [hk] at hin
    | some p =>
      have htidy := hnet p (List.mem_of_getElem? hk)
      rw [hk] at hin
      cases p with
      | request src waiting task =>
        simp only [Option.ite_none_right_eq_some, Option.some.injEq, Prod.mk.injEq] at hin
        obtain ⟨-, -, rfl⟩ := hin
        cases task <;> cases htx
      | response dst msg =>
        simp only [Option.ite_none_right_eq_some, Option.some.injEq, Prod.mk.injEq] at hin
        obtain ⟨-, -, rfl⟩ := hin
        cases msg with
        | propose proposal =>
          obtain ⟨data, ptx⟩ := proposal
          have hptx : ptx = some tx := htx
          subst hptx
          exact absurd rfl (htidy.response dst (.propose data) tx)
        | readIndex tx' => exact absurd rfl (htidy.response dst .readIndex tx')
        | _ => cases htx
  | duplicate k => simp [input?] at hin
  | lose k => simp [input?] at hin

/-- The channels of the accepted proposals are below a bound, and no snapshot is there. -/
structure SendersBelow (bound : Sender) (H : List Effect) (n : RaftNodeInner MemStorage) :
    Prop where
  snapshot : n.storage.snapshot = none
  below : ∀ tx e, Effect.accepted tx e ∈ H → tx < bound

/-- An effect that accepts on no newer channel keeps the bound. -/
theorem SendersBelow.append {bound : Sender} {H : List Effect} {n n' : RaftNodeInner MemStorage}
    {eff : Effect} (hs : SendersBelow bound H n) (hsnap : n'.storage.snapshot = n.storage.snapshot)
    (heff : ∀ tx e, eff = .accepted tx e → tx < bound) : SendersBelow bound (H ++ [eff]) n' := by
  refine ⟨hsnap.trans hs.snapshot, ?_⟩
  intro tx e hmem
  rcases List.mem_append.mp hmem with hmem | hmem
  · exact hs.below tx e hmem
  · exact heff tx e (List.mem_singleton.mp hmem).symm

/-- A turn accepts on the channel of its own input at most. -/
theorem senders_keeps {h : List Effect} {n₀ : RaftNodeInner MemStorage} {input : Input}
    {bound : Sender} (hbound : ∀ tx, input.sender? = some tx → tx < bound) :
    Keeps .plain h n₀ input (SendersBelow bound) fun _ _ => True where
  aside hsame _ _ hI := ⟨hsame.snapshot.trans hI.snapshot, hI.below⟩
  note := by
    intro H n e he hI
    refine hI.append rfl ?_
    rintro tx e' rfl
    exact he.elim
  save hI := hI.append rfl nofun
  batch _ _ _ _ _ _ _ _ _ _ _ hI := hI.append (appendEntries_snapshot _ _) nofun
  commit _ _ hI := ⟨hI.snapshot, hI.below⟩
  extend _ _ _ hI := hI.append (appendEntries_snapshot _ _) nofun
  accept := by
    intro n e tx hin _ _ hI
    refine hI.append rfl ?_
    intro tx' e' heq
    obtain ⟨rfl, -⟩ := Effect.accepted.inj heq
    exact hbound tx (by rw [hin]; rfl)
  forget _ hI := ⟨hI.snapshot, hI.below⟩
  answer _ _ hI := hI.append rfl nofun
  readIndex _ hI := hI.append rfl nofun
  store _ _ hW := hW.elim
  cover _ _ _ _ _ hI := ⟨hI.snapshot, hI.below⟩
  apply _ _ _ _ hI := hI.append rfl nofun
  send _ _ _ := trivial
  sendSnapshot := by
    intro H n snap leaderId hsnap hI
    rw [hI.snapshot] at hsnap
    cases hsnap
  at_answer _ _ _ _ := trivial
  at_readIndex _ _ := trivial
  at_other _ := trivial

/-- So the channels in a history are those of the inputs. -/
theorem senders_booking (bound : Sender) : Booking .plain (SendersBelow bound)
    fun _ _ _ input _ => ∀ tx, input.sender? = some tx → tx < bound where
  keeps _ _ hcond := senders_keeps hcond
  kept _ hI _ := logKept_of_none hI.snapshot
  boot _ _ hI := hI.append rfl nofun

/-- No log has a snapshot, and every channel of an accepted proposal was handed out. -/
abbrev SendersUsed (cc : ClusterConfig) (c : Cluster MemStorage) : Prop :=
  Booking.Holds .plain (SendersBelow c.nextSender) cc c

/-- No channel is in use at the start. -/
theorem sendersUsed_init {cc : ClusterConfig} :
    SendersUsed cc (init fun _ => MemStorage.new) :=
  Booking.holds_init fun i _ => ⟨nofun, rfl, fun tx e hmem => by cases List.mem_singleton.mp hmem⟩

/-- Every channel in use is one the cluster has given out. -/
theorem SendersUsed.step {cc : ClusterConfig} {c : Cluster MemStorage} (hc : SendersUsed cc c)
    (e : Event) : SendersUsed cc (c.step cc e) := by
  cases hin : c.input? cc e.action with
  | none =>
    unfold Cluster.step
    rw [hin]
    exact ⟨hc.node, fun p hp => hc.packet p (Simulation.mem_netAfter hp)⟩
  | some q =>
    obtain ⟨i, input⟩ := q
    have hraised : Booking.Holds .plain (SendersBelow (c.nextSender + 1)) cc c :=
      ⟨fun j hj => ⟨(hc.node j hj).1, (hc.node j hj).2.snapshot, fun tx e' hmem =>
        Nat.lt_succ_of_lt ((hc.node j hj).2.below tx e' hmem)⟩, hc.packet⟩
    have hnext : (c.step cc e).nextSender = c.nextSender + 1 := by
      unfold Cluster.step
      rw [hin]
      rfl
    unfold SendersUsed
    rw [hnext]
    have hone : Runs.Within (Cluster.step cc) (fun c' e' => c' = c ∧ e' = e) c [e] :=
      ⟨⟨rfl, rfl⟩, trivial⟩
    refine (senders_booking (c.nextSender + 1)).holds_run ?_ hraised hone
    rintro c' e' ⟨rfl, rfl⟩ j input' hin' tx htx
    rw [sender_of_input hc.packet hin' htx]
    exact Nat.lt_succ_self _

/-- A new channel belongs to no accepted proposal. -/
theorem SendersUsed.fresh {cc : ClusterConfig} {c : Cluster MemStorage} (hc : SendersUsed cc c)
    {e : Action} {i : NodeId} {input : Input} {tx : Sender} (hin : c.input? cc e = some (i, input))
    (htx : input.sender? = some tx) (entry : LogEntry) :
    Effect.accepted tx entry ∉ (c.proc i).history := by
  intro hmem
  have hlt := (hc.node i (hc.cause hin).1).2.below tx entry hmem
  rw [sender_of_input hc.packet hin htx] at hlt
  exact Nat.lt_irrefl _ hlt

/-! ## Pending proposals -/

/-- Each accepted proposal has one entry, and each pending one finds it at its index. -/
structure Awaited (h H : List Effect) (n : RaftNodeInner MemStorage) : Prop where
  snapshot : n.storage.snapshot = none
  grown : h <+: H
  once : ∀ tx e e', Effect.accepted tx e ∈ H → Effect.accepted tx e' ∈ H → e = e'
  pending : ∀ w ∈ n.pending, ∃ e, Effect.accepted w.2 e ∈ H ∧ e.index = w.1 ∧
    n.storage.get? w.1 = some e

/-- An effect that accepts no proposal, with a log that keeps the awaited entries. -/
theorem Awaited.append {h H : List Effect} {n n' : RaftNodeInner MemStorage} {eff : Effect}
    (ha : Awaited h H n) (hsnap : n'.storage.snapshot = n.storage.snapshot)
    (heff : ∀ tx e, eff ≠ .accepted tx e) (hsub : n'.pending ⊆ n.pending)
    (hget : ∀ w ∈ n.pending, ∀ e, n.storage.get? w.1 = some e → n'.storage.get? w.1 = some e) :
    Awaited h (H ++ [eff]) n' where
  snapshot := hsnap.trans ha.snapshot
  grown := ha.grown.trans (List.prefix_append _ _)
  once := by
    have hold : ∀ tx e, Effect.accepted tx e ∈ H ++ [eff] → Effect.accepted tx e ∈ H := by
      intro tx e hmem
      rcases List.mem_append.mp hmem with hmem | hmem
      · exact hmem
      · exact absurd (List.mem_singleton.mp hmem).symm (heff tx e)
    exact fun tx e e' he he' => ha.once tx e e' (hold tx e he) (hold tx e' he')
  pending w hw := by
    obtain ⟨e, hmem, hidx, hgot⟩ := ha.pending w (hsub hw)
    exact ⟨e, List.mem_append_left _ hmem, hidx, hget w (hsub hw) e hgot⟩

/-- A proposal of a new channel, with its entry in the log. -/
theorem Awaited.accept {h H : List Effect} {n : RaftNodeInner MemStorage} {e : LogEntry}
    {tx : Sender} (ha : Awaited h H n) (hnew : ∀ e', Effect.accepted tx e' ∉ H)
    (hget : n.storage.get? e.index = some e) :
    Awaited h (H ++ [.accepted tx e]) (n.awaiting (n.pending ++ [(e.index, tx)])) where
  snapshot := ha.snapshot
  grown := ha.grown.trans (List.prefix_append _ _)
  once := by
    have hcases : ∀ tx' e', Effect.accepted tx' e' ∈ H ++ [.accepted tx e] →
        Effect.accepted tx' e' ∈ H ∨ (tx' = tx ∧ e' = e) := by
      intro tx' e' hmem
      rcases List.mem_append.mp hmem with hmem | hmem
      · exact .inl hmem
      · exact .inr (Effect.accepted.inj (List.mem_singleton.mp hmem))
    intro tx' e₁ e₂ h₁ h₂
    rcases hcases tx' e₁ h₁ with hold₁ | ⟨rfl, rfl⟩
    · rcases hcases tx' e₂ h₂ with hold₂ | ⟨rfl, rfl⟩
      · exact ha.once tx' e₁ e₂ hold₁ hold₂
      · exact absurd hold₁ (hnew e₁)
    · rcases hcases tx' e₂ h₂ with hold₂ | ⟨-, rfl⟩
      · exact absurd hold₂ (hnew e₂)
      · rfl
  pending := by
    intro w hw
    rcases List.mem_append.mp hw with hw | hw
    · obtain ⟨e', hmem, hidx, hgot⟩ := ha.pending w hw
      exact ⟨e', List.mem_append_left _ hmem, hidx, hgot⟩
    · rw [List.mem_singleton.mp hw]
      exact ⟨e, List.mem_append_right _ (List.mem_singleton_self _), rfl, hget⟩

/-- What is said of an answer of this turn: the index and the entry are those of the
proposal, and the index is committed. -/
def AnswersRight (h H : List Effect) (n : RaftNodeInner MemStorage) : Prop :=
  ∀ H' tx idx, H = H' ++ [.answered tx (.ok idx)] → h.length ≤ H'.length →
    ∀ e, Effect.accepted tx e ∈ h →
      e.index = idx ∧ idx ≤ n.sm.commitIndex ∧ n.storage.get? idx = some e

/-- A turn that keeps the waiting proposals keeps what they wait for. -/
theorem awaited_keeps {h₀ h : List Effect} {n₀ : RaftNodeInner MemStorage} {cfg : RaftConfig}
    {input : Input} {crashAt : Option ℕ} (hcond : PendingKept cfg n₀ input crashAt)
    (hfresh : ∀ tx, input.sender? = some tx → ∀ e, Effect.accepted tx e ∉ h) (hle : h₀ <+: h) :
    Keeps .plain h n₀ input (Awaited h₀) (AnswersRight h₀) where
  aside := by
    intro H n n' hsame _ _ hI
    refine ⟨hsame.snapshot.trans hI.snapshot, hI.grown, hI.once, ?_⟩
    intro w hw
    rw [hsame.pending] at hw
    obtain ⟨e, hmem, hidx, hget⟩ := hI.pending w hw
    refine ⟨e, hmem, hidx, ?_⟩
    unfold MemStorage.get? at *
    rw [hsame.entries]
    exact hget
  note := by
    intro H n e he hI
    refine hI.append rfl ?_ (List.Subset.refl _) fun _ _ _ hget => hget
    rintro tx e' rfl
    exact he
  save hI := hI.append rfl nofun (List.Subset.refl _) fun _ _ _ hget => hget
  batch := by
    intro H n req hin haccepts hsame _ _ _ hbase hne hcons hlo hhi hI
    subst hin
    have hmap : req.entries.map protoEntryToLogEntry ≠ [] := List.map_eq_nil_iff.not.mpr hne
    refine hI.append (appendEntries_snapshot _ _) nofun (List.Subset.refl _) ?_
    intro w hw e hget
    show (n.storage.appendEntries _).get? w.1 = some e
    rw [hbase.aligned.get?_batch hcons hmap hlo hhi]
    split
    · exact hget
    · rename_i hgt
      rw [hsame.pending] at hw
      rcases hcond haccepts hne w hw with hle | hsame'
      · exact absurd hle hgt
      · rw [hsame', ← hget]
        unfold MemStorage.get?
        rw [hsame.entries]
  commit _ _ hI := ⟨hI.snapshot, hI.grown, hI.once, hI.pending⟩
  extend := by
    intro H n e hbase _ hindex hI
    refine hI.append (appendEntries_snapshot _ _) nofun (List.Subset.refl _) ?_
    intro w _ e' hget
    show (n.storage.appendEntries [e]).get? w.1 = some e'
    unfold MemStorage.get? at *
    rw [hbase.aligned.entries_snoc hindex]
    exact get?_snoc_of_some hget
  accept := by
    intro n e tx hin halign hmem hI
    apply hI.accept _ (halign.get?_of_mem hmem)
    intro e' hmem'
    rcases List.mem_append.mp hmem' with hmem' | hmem'
    · exact hfresh tx (by rw [hin]; rfl) e' hmem'
    · cases List.mem_singleton.mp hmem'
  forget hsub hI := ⟨hI.snapshot, hI.grown, hI.once, fun w hw => hI.pending w (hsub hw)⟩
  answer _ _ hI := hI.append rfl nofun (List.Subset.refl _) fun _ _ _ hget => hget
  readIndex _ hI := hI.append rfl nofun (List.Subset.refl _) fun _ _ _ hget => hget
  store _ _ hW := hW.elim
  cover _ _ _ _ _ hI := ⟨hI.snapshot, hI.grown, hI.once, hI.pending⟩
  apply _ _ _ _ hI := hI.append rfl nofun (List.Subset.refl _) fun _ _ _ hget => hget
  send _ _ _ := trivial
  sendSnapshot := by
    intro H n snap leaderId hsnap hI
    rw [hI.snapshot] at hsnap
    cases hsnap
  at_answer := by
    intro H n w pending hw _ hcommitted hI H' tx idx heq _ e hmem
    obtain ⟨-, hlast⟩ := List.append_singleton_inj.mp heq
    obtain ⟨rfl, hidx⟩ := Effect.answered.inj hlast
    obtain rfl := Except.ok.inj hidx
    obtain ⟨e', hmem', hidx', hget⟩ := hI.pending w hw
    obtain rfl := hI.once _ e e' (hI.grown.subset hmem) hmem'
    exact ⟨hidx', hcommitted, hget⟩
  at_readIndex := by
    intro H n tx' hin hI H' tx idx heq _ e hmem
    obtain ⟨-, hlast⟩ := List.append_singleton_inj.mp heq
    obtain ⟨rfl, -⟩ := Effect.answered.inj hlast
    exact absurd (hle.subset hmem) (hfresh _ (by rw [hin]; rfl) e)
  at_other := by
    intro H n e hother H' tx idx heq
    obtain ⟨-, hlast⟩ := List.append_singleton_inj.mp heq
    exact absurd hlast (hother tx idx)

/-- What is asked at an answer may be weakened. -/
theorem Keeps.weaken_at {W : Wire} {h : List Effect} {n₀ : RaftNodeInner MemStorage} {input : Input}
    {I At At' : List Effect → RaftNodeInner MemStorage → Prop} (K : Keeps W h n₀ input I At)
    (himp : ∀ H n, At H n → At' H n) : Keeps W h n₀ input I At' :=
  { K with
    at_answer := fun hw hsub hle hI => himp _ _ (K.at_answer hw hsub hle hI)
    at_readIndex := fun hin hI => himp _ _ (K.at_readIndex hin hI)
    at_other := fun hother => himp _ _ (K.at_other hother) }

/-- In every uptime that keeps them, a waiting proposal waits for its own entry. -/
theorem awaited_booking : Booking .plain (Awaited []) fun h cfg n input crashAt =>
    PendingKept cfg n input crashAt ∧
      ∀ tx, input.sender? = some tx → ∀ e, Effect.accepted tx e ∉ h where
  keeps _ _ hcond :=
    (awaited_keeps hcond.1 hcond.2 List.nil_prefix).weaken_at fun _ _ _ => trivial
  kept _ hI _ := logKept_of_none hI.snapshot
  boot := by
    intro h n cfg input k _ turn cut _ hI
    exact hI.append rfl nofun (List.nil_subset _) fun _ _ _ hget => hget

/-- **Proposals are answered for their own entries.**  In a run from empty storages, with
any crashes, in which no accepted batch replaces an entry that a pending proposal waits
for, an answer to a proposal that the node accepted as `entry` names the index of `entry`,
which is committed and where the log holds `entry`.
SRCLINE: iceraft-node/src/node.rs:471-503, 791-800 -/
theorem proposal_acknowledged (cc : ClusterConfig) (es : List Event)
    (h : Within cc PendingKept (init fun _ => MemStorage.new) es) :
    ∀ before e after i input tx idx n entry, es = before ++ e :: after →
      (exec cc (init fun _ => MemStorage.new) before).input? cc e.action = some (i, input) →
      (Effect.answered tx (.ok idx), n) ∈
        (((exec cc (init fun _ => MemStorage.new) before).proc i).turn (cc.config i) input).trace →
      Effect.accepted tx entry ∈ ((exec cc (init fun _ => MemStorage.new) before).proc i).history →
        entry.index = idx ∧ idx ≤ n.sm.commitIndex ∧ n.storage.get? idx = some entry := by
  rintro before e after i input tx idx n entry rfl hin hanswer haccepted
  obtain ⟨hbefore, hcond, -⟩ := (Runs.within_append _ _ _).mp h
  have hused := Runs.invariant (SendersUsed cc) (fun c e hc _ => hc.step e) sendersUsed_init hbefore
  have hinit : Booking.Holds .plain (Awaited []) cc (init fun _ => MemStorage.new) :=
    Booking.holds_init fun i _ => ⟨nofun, rfl, List.nil_prefix,
      fun _ _ _ hmem _ => (nomatch List.mem_singleton.mp hmem), nofun⟩
  have hc := awaited_booking.holds_run (fun c e hok j input' hin' =>
    ⟨hok.2.of_input hin', fun _ htx => hok.1.fresh hin' htx⟩) hinit
    (hbefore.with_invariant (SendersUsed cc) (fun c e hc _ => hc.step e) sendersUsed_init)
  obtain ⟨hi, hcause⟩ := hc.cause hin
  obtain ⟨hbase, hI⟩ := hc.node i hi
  have hI' : Awaited ((exec cc (init fun _ => MemStorage.new) before).proc i).history
      ((exec cc (init fun _ => MemStorage.new) before).proc i).history
      ((exec cc (init fun _ => MemStorage.new) before).proc i).node :=
    ⟨hI.snapshot, List.prefix_refl _, hI.once, hI.pending⟩
  have K := awaited_keeps (hcond.of_input hin) (fun _ htx => hused.fresh hin htx)
    (List.prefix_refl ((exec cc (init fun _ => MemStorage.new) before).proc i).history)
  -- nothing of this turn has happened at its start
  have hat : AnswersRight ((exec cc (init fun _ => MemStorage.new) before).proc i).history
      ((exec cc (init fun _ => MemStorage.new) before).proc i).history
      ((exec cc (init fun _ => MemStorage.new) before).proc i).node := by
    intro H' tx' idx' heq hlen
    have := congrArg List.length heq
    rw [List.length_append, List.length_singleton] at this
    omega
  have hturn : BookFollows .plain _ _ (fun _ _ _ _ _ => True) i _ _ _ _ _ :=
    have hkept : LogKept (cc.config i) _ input e.crashAt := logKept_of_none hI.snapshot
    K.turn_follows hbase hI' hat hkept hcause
  obtain ⟨k, effs, heffs, hnode⟩ := Turn.cut_of_mem_trace hanswer
    ((exec cc (init fun _ => MemStorage.new) before).proc i).node
  obtain ⟨_, -, ⟨-, -, hright⟩, -⟩ := hturn.1 k fun _ _ => trivial
  have hend := hright (((exec cc (init fun _ => MemStorage.new) before).proc i).history ++ effs) tx
    idx (by rw [List.append_assoc, ← heffs]; rfl) (by rw [List.length_append]; omega) entry
    haccepted
  rw [← hnode]
  exact hend

/-- The response of node 2 that completes the quorum of `ackedRun`. -/
def ackedBoth : Input := .message (.appendResponse 2 2 ⟨1, true, 0, 0⟩)

/-- In a cluster of three the second proposal is answered with its own index, held at that moment.
-/
theorem proposal_acknowledged_ackedRun :
    ∃ n, (Effect.answered 4 (.ok 2), n) ∈ (((exec trio (init fun _ => MemStorage.new)
        ackedRun.dropLast).proc 1).turn (trio.config 1) ackedBoth).trace ∧
      n.storage.get? 2 = some ⟨1, 2, [8], .normal⟩ := by
  have hanswer : Effect.answered 4 (.ok 2) ∈ (((exec trio (init fun _ => MemStorage.new)
      ackedRun.dropLast).proc 1).turn (trio.config 1) ackedBoth).effects :=
    mem_answers.mp (by decide +kernel)
  obtain ⟨⟨_, n⟩, hmem, rfl⟩ := List.mem_map.mp hanswer
  exact ⟨n, hmem, (proposal_acknowledged trio ackedRun (by decide +kernel) ackedRun.dropLast
    ⟨.deliver 6, none⟩ [] 1 ackedBoth 4 2 n ⟨1, 2, [8], .normal⟩ rfl (by decide +kernel) hmem
    (mem_acceptances.mp (by decide +kernel))).2.2⟩

/-- Node 1 is elected in term 1 and takes a proposal, which reaches nobody.  Node 2 is
elected in term 2 and overwrites it.  Node 1 learns that index 1 is committed, is elected
in term 3, and answers its old proposal at the next heartbeat. -/
def overtakenRun : List Event :=
  [⟨.timer 1 true false, none⟩, ⟨.deliver 1, none⟩, ⟨.deliver 1, none⟩,
    ⟨.client 1 (.propose [7]), none⟩, ⟨.timer 2 true false, none⟩, ⟨.timer 2 true false, none⟩,
    ⟨.deliver 8, none⟩, ⟨.deliver 8, none⟩, ⟨.client 2 (.propose [9]), none⟩, ⟨.deliver 10, none⟩,
    ⟨.deliver 11, none⟩, ⟨.timer 2 false true, none⟩, ⟨.deliver 11, none⟩,
    ⟨.timer 1 true false, none⟩, ⟨.deliver 14, none⟩, ⟨.deliver 14, none⟩,
    ⟨.timer 1 false true, none⟩]

/-- A waiting proposal is answered for an entry that replaced its own. -/
theorem proposal_overtaken :
    let c := exec trio (init fun _ => MemStorage.new) overtakenRun
    Within trio NoCrash (init fun _ => MemStorage.new) overtakenRun ∧ c.UniqueLeaders trio ∧
      (3, ⟨1, 1, [7], .normal⟩) ∈ acceptances (c.proc 1).history ∧
      answers (c.proc 1).history = [(3, 1)] ∧ (c.sm 1).commitIndex = 1 ∧
      (c.store 1).get? 1 = some ⟨2, 1, [9], .normal⟩ := by
  decide +kernel

end IceRaft
