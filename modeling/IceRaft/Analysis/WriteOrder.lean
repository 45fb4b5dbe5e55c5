import IceRaft.Analysis.AgreedLog
import IceRaft.Analysis.WaitingProposals

/-!
# The order of writes

The channel of a call is new, so it tells when the call was made.  A leader gives a proposal
the place behind its log, and its log has everything that was committed by then, or it is out
of date and the proposal is lost.  So a proposal that is answered got a higher index than
whatever had been answered before it was submitted.
-/

set_option autoImplicit false

namespace IceRaft

open ReplicatedLog Cluster Abstraction MemStorage

/-! ## What a turn does with channels -/

/-- A turn accepts only the proposal it is about, and answers only that call and those that
waited before it. -/
structure Traded (h : List Effect) (n₀ : RaftNodeInner MemStorage) (input : Input)
    (H : List Effect) (n : RaftNodeInner MemStorage) : Prop where
  snapshot : n.storage.snapshot = none
  accepted : ∀ tx e, Effect.accepted tx e ∈ H → Effect.accepted tx e ∈ h ∨
    input = .message (.propose ⟨e.data, some tx⟩)
  pending : ∀ w ∈ n.pending, w ∈ n₀.pending ∨
    ∃ data, input = .message (.propose ⟨data, some w.2⟩)
  answered : ∀ tx k, Effect.answered tx (.ok k) ∈ H → Effect.answered tx (.ok k) ∈ h ∨
    (k, tx) ∈ n₀.pending ∨ input.sender? = some tx

variable {cc : ClusterConfig} {a₁ a b : Ghost} {s₁ s : Sender} {c : Cluster MemStorage}
  {e : Event} {i j : NodeId} {h H : List Effect} {n₀ n n' : RaftNodeInner MemStorage}
  {input : Input}

/-- Any effect of a turn. -/
theorem Traded.append {eff : Effect} (ht : Traded h n₀ input H n)
    (hsnap : n'.storage.snapshot = n.storage.snapshot)
    (hpending : ∀ w ∈ n'.pending, w ∈ n.pending ∨
      ∃ data, input = .message (.propose ⟨data, some w.2⟩))
    (haccepted : ∀ tx e, eff = .accepted tx e → input = .message (.propose ⟨e.data, some tx⟩))
    (hanswered : ∀ tx k, eff = .answered tx (.ok k) → (k, tx) ∈ n.pending ∨
      input.sender? = some tx) : Traded h n₀ input (H ++ [eff]) n' where
  snapshot := hsnap.trans ht.snapshot
  accepted tx e hmem := by
    rcases List.mem_append.mp hmem with hmem | hmem
    · exact ht.accepted tx e hmem
    · exact .inr (haccepted tx e (List.mem_singleton.mp hmem).symm)
  pending w hw := by
    rcases hpending w hw with hold | hnew
    · exact ht.pending w hold
    · exact .inr hnew
  answered tx k hmem := by
    rcases List.mem_append.mp hmem with hmem | hmem
    · exact ht.answered tx k hmem
    · rcases hanswered tx k (List.mem_singleton.mp hmem).symm with hwait | hcall
      · rcases ht.pending _ hwait with hold | ⟨data, rfl⟩
        · exact .inr (.inl hold)
        · exact .inr (.inr rfl)
      · exact .inr (.inr hcall)

/-- A turn trades the channel of its input for the entry it accepts. -/
theorem traded_keeps : Keeps .plain h n₀ input (Traded h n₀ input) fun _ _ => True where
  aside hsame _ _ hI := ⟨hsame.snapshot.trans hI.snapshot, hI.accepted,
    by rw [hsame.pending]; exact hI.pending, hI.answered⟩
  note := by
    intro H n e he hI
    refine hI.append rfl (fun w hw => .inl hw) ?_ ?_
    · rintro tx e' rfl
      exact he.elim
    · rintro tx k rfl
      exact he.elim
  save hI := hI.append rfl (fun w hw => .inl hw) nofun nofun
  batch _ _ _ _ _ _ _ _ _ _ _ hI :=
    hI.append (appendEntries_snapshot _ _) (fun w hw => .inl hw) nofun nofun
  commit _ _ hI := ⟨hI.snapshot, hI.accepted, hI.pending, hI.answered⟩
  extend _ _ _ hI := hI.append (appendEntries_snapshot _ _) (fun w hw => .inl hw) nofun nofun
  accept := by
    intro n e tx hin _ _ hI
    refine hI.append rfl ?_ ?_ nofun
    · intro w hw
      rcases List.mem_append.mp hw with hw | hw
      · exact .inl hw
      · rw [List.mem_singleton.mp hw]
        exact .inr ⟨e.data, hin⟩
    · intro tx' e' heq
      obtain ⟨rfl, rfl⟩ := Effect.accepted.inj heq
      exact hin
  forget hsub hI := ⟨hI.snapshot, hI.accepted, fun w hw => hI.pending w (hsub hw), hI.answered⟩
  answer := by
    intro H n w hw _ hI
    refine hI.append rfl (fun w hw => .inl hw) nofun ?_
    intro tx k heq
    obtain ⟨rfl, hk⟩ := Effect.answered.inj heq
    obtain rfl := Except.ok.inj hk
    exact .inl hw
  readIndex := by
    intro H n tx hin hI
    refine hI.append rfl (fun w hw => .inl hw) nofun ?_
    intro tx' k heq
    obtain ⟨rfl, -⟩ := Effect.answered.inj heq
    exact .inr (by rw [hin]; rfl)
  store _ _ hW := hW.elim
  cover _ _ _ _ _ hI := ⟨hI.snapshot, hI.accepted, hI.pending, hI.answered⟩
  apply _ _ _ _ hI := hI.append rfl (fun w hw => .inl hw) nofun nofun
  send _ _ _ := trivial
  sendSnapshot := by
    intro H n snap leaderId hsnap hI
    rw [hI.snapshot] at hsnap
    cases hsnap
  at_answer _ _ _ _ := trivial
  at_readIndex _ _ := trivial
  at_other _ := trivial

/-- What an activation did with channels, up to a crash as well. -/
theorem SendersUsed.traded (hc : SendersUsed cc c)
    (hin : c.input? cc e.action = some (i, input)) :
    ∃ n, Traded (c.proc i).history (c.proc i).node input
        ((c.proc i).history ++ (c.proc i).emitted (cc.config i) input e.crashAt) n ∧
      (e.crashAt = none → n = ((c.proc i).act (cc.config i) input e.crashAt).node) := by
  obtain ⟨hi, hcause⟩ := hc.cause hin
  obtain ⟨hbase, hI⟩ := hc.node i hi
  have hstart : Traded (c.proc i).history (c.proc i).node input (c.proc i).history
      (c.proc i).node :=
    ⟨hI.snapshot, fun _ _ hmem => .inl hmem, fun _ hw => .inl hw, fun _ _ hmem => .inl hmem⟩
  have hkept : LogKept (cc.config i) (c.proc i).node input e.crashAt :=
    logKept_of_none hI.snapshot
  have hturn : BookFollows .plain _ (fun _ _ => True) (fun _ _ _ _ _ => True) i _ _ _ _ _ :=
    traded_keeps.turn_follows hbase hstart trivial hkept hcause
  cases hcrash : e.crashAt with
  | none =>
    obtain ⟨_, -, -, -, -, hend⟩ := hturn.2 fun _ _ => trivial
    exact ⟨_, hend, fun _ => rfl⟩
  | some k =>
    obtain ⟨_, -, ⟨-, hcut, -⟩, -⟩ := hturn.1 k fun _ _ => trivial
    exact ⟨_, hcut, nofun⟩

/-- The entry a leader makes of a proposal. -/
def RaftNodeInner.minted (data : Bytes) (n : RaftNodeInner MemStorage) : LogEntry :=
  ⟨n.sm.currentTerm, n.storage.lastIndex + 1, data, .normal⟩

/-- A leader puts a proposal behind its log. -/
theorem turn_propose {cfg : RaftConfig} {p : Process MemStorage} (hrole : p.node.sm.role = .leader)
    (data : Bytes) (tx : Sender) :
    (p.turn cfg (.message (.propose ⟨data, some tx⟩))).node =
      (p.node.appended [p.node.minted data]).awaiting
        (p.node.pending ++ [((p.node.minted data).index, tx)]) := by
  have hlead : ¬ (NodeTurn.sm (Turn.start p.node)).role ≠ .leader := not_not_intro hrole
  show (NodeTurn.onProposal cfg ⟨data, some tx⟩ (Turn.start p.node)).node = _
  unfold NodeTurn.onProposal
  dsimp only
  rw [if_neg hlead, NodeTurn.lastIndexOr0_eq]
  dsimp only
  rw [NodeTurn.write_append]
  dsimp only
  rw [NodeTurn.replicateAll_node]
  rfl

/-- What is emitted is part of what the turn would emit. -/
theorem Process.answers_emitted_subset (cfg : RaftConfig) (input : Input) (crashAt : Option ℕ)
    (p : Process MemStorage) :
    answers (p.emitted cfg input crashAt) ⊆ (p.turn cfg input).told := by
  rintro ⟨tx, k⟩ hq
  cases crashAt with
  | none => exact hq
  | some m =>
    have hsub : (p.turn cfg input).cutEffects m ⊆ (p.turn cfg input).effects :=
      List.map_subset _ (List.take_subset m _)
    exact mem_answers.mpr (hsub (mem_answers.mp hq))

/-! ## The accounts of a node -/

/-- The log of its term did not reach the entry yet. -/
def Late (a : Ghost) (e : LogEntry) : Prop := (a.canon e.term).length < e.index

/-- What is known of the calls of a process, when the channels below `s` are handed out; of
those from `s₁` on, that their entries were late at the time of `a₁`. -/
structure Accounts (cc : ClusterConfig) (a₁ : Ghost) (s₁ : Sender) (a : Ghost) (s : Sender)
    (q : Process MemStorage) : Prop where
  spent : ∀ r ∈ answers q.history, r.1 < s
  reached : ∀ r ∈ answers q.history, Reached (clusterRules cc True) a r.2
  waiting : ∀ w ∈ q.node.pending, s₁ ≤ w.2 → ∀ e, Effect.accepted w.2 e ∈ q.history → Late a₁ e
  told : ∀ r ∈ answers q.history, s₁ ≤ r.1 → ∀ e, Effect.accepted r.1 e ∈ q.history →
    e.index = r.2 ∧ Chosen cc True a e ∧ Late a₁ e

/-- The account of a process stays true. -/
theorem Accounts.grows {q : Process MemStorage} (hq : Accounts cc a₁ s₁ a s q) (hg : Grows a b)
    {s' : Sender} (hs : s ≤ s') : Accounts cc a₁ s₁ b s' q where
  spent r hr := Nat.lt_of_lt_of_le (hq.spent r hr) hs
  reached r hr := (hq.reached r hr).grows hg
  waiting := hq.waiting
  told r hr hle e he := by
    obtain ⟨hidx, hchosen, hlate⟩ := hq.told r hr hle e he
    exact ⟨hidx, hchosen.grows hg, hlate⟩

/-- The state of a run, seen from an earlier moment at which the abstract state was `a₁` and
the next channel `s₁`. -/
structure Ordered (cc : ClusterConfig) (a₁ : Ghost) (s₁ : Sender) (a : Ghost)
    (c : Cluster MemStorage) : Prop where
  holds : Simulation.Holds cc (replication cc True) c a
  used : SendersUsed cc c
  awaited : Booking.Holds .plain (Awaited []) cc c
  since : Grows a₁ a
  accounts : ∀ i ∈ cc.members, Accounts cc a₁ s₁ a c.nextSender (c.proc i)

/-- Every moment is one to look from. -/
theorem Ordered.restart (hc : Ordered cc a₁ s₁ a c) : Ordered cc a c.nextSender a c where
  holds := hc.holds
  used := hc.used
  awaited := hc.awaited
  since := .refl a
  accounts i hi :=
    { spent := (hc.accounts i hi).spent
      reached := (hc.accounts i hi).reached
      waiting := fun w _ hle e he =>
        absurd hle (Nat.not_le_of_lt ((hc.used.node i hi).2.below w.2 e he))
      told := fun r hr hle => absurd hle (Nat.not_le_of_lt ((hc.accounts i hi).spent r hr)) }

/-! ## One activation -/

/-- An entry that is waited for is chosen when it is answered. -/
theorem chosen_of_answer (hc : Simulation.Holds cc (replication cc True) c a)
    (hb : Simulation.Holds cc (replication cc True) (c.step cc e) b) (hg : Grows a b)
    (hin : c.input? cc e.action = some (i, input))
    (hread : ∀ tx, input ≠ .message (.readIndex tx)) {r : Sender × ℕ}
    (hr : r ∈ answers ((c.proc i).emitted (cc.config i) input e.crashAt)) {entry : LogEntry}
    (hget : (c.store i).get? r.2 = some entry) :
    Chosen cc True b entry := by
  have hi := (Simulation.cause_of_input hc hin).1
  have hri : Replica cc True a i (c.proc i).history (c.proc i).node := hc.node i hi
  have hrb : Replica cc True b i ((c.step cc e).proc i).history ((c.step cc e).proc i).node :=
    hb.node i hi
  have hpl := hri.disk.plain hc.good
  obtain ⟨hpos, -, -⟩ := hpl.aligned.term_of_get? hget
  rw [hpl.firstIndex] at hpos
  rw [hpl.aligned.get?_eq (by rw [hpl.firstIndex]; exact hpos), hpl.firstIndex] at hget
  rw [proc_step hin] at hrb
  obtain ⟨hlead, hcover, -⟩ := Process.emitted_covered hread hr
  rcases hcover with hle | ⟨hle, hterm⟩
  · have hchosen := hri.disk.chosen (hri.memory.commit trivial) hc.good (k := r.2 - 1)
      (by omega) hget
    exact hchosen.grows hg
  · -- its log is still that of the term it led
    have howner := hri.memory.leader hlead
    have hlog := hc.good.1.owner_log _ i howner rfl
    have hterm' : b.term i = a.term i := by
      rw [← hrb.disk.term, hterm]
      exact hri.memory.term
    have hlog' := hb.good.1.owner_log _ i (hg.owner _ i howner) hterm'
    have hgrown : a.log i <+: b.log i := by
      rw [hlog, hlog']
      exact hg.canon _
    rw [hri.disk.entries] at hget
    obtain ⟨t, ht⟩ := hgrown
    obtain ⟨hlt, -⟩ := List.getElem?_eq_some_iff.mp hget
    apply hrb.disk.chosen (hrb.disk.commit trivial) hb.good (k := r.2 - 1) (by omega)
    rw [hrb.disk.entries, ← ht, List.getElem?_append_left hlt]
    exact hget

/-- A proposal that waits since this activation is late. -/
theorem late_of_waiting (hc : Ordered cc a₁ s₁ a c)
    (hawaited : Booking.Holds .plain (Awaited []) cc (c.step cc e))
    (hin : c.input? cc e.action = some (i, input)) {w : ℕ × Sender}
    (hw : w ∈ ((c.step cc e).proc i).node.pending) {data : Bytes}
    (hinput : input = .message (.propose ⟨data, some w.2⟩)) {entry : LogEntry}
    (haccepted : Effect.accepted w.2 entry ∈ ((c.step cc e).proc i).history) :
    Late a₁ entry := by
  have hi := (Simulation.cause_of_input hc.holds hin).1
  obtain ⟨hbase, hI⟩ := hawaited.node i hi
  obtain ⟨entry', hacc, hidx, hget⟩ := hI.pending w hw
  obtain rfl := hI.once _ _ _ haccepted hacc
  -- its channel is new, so it did not wait before
  have hnew : w ∉ (c.proc i).node.pending := by
    intro hold
    obtain ⟨e', hacc', -⟩ := (hc.awaited.node i hi).2.pending w hold
    exact hc.used.fresh hin (by rw [hinput]; rfl) e' hacc'
  rw [proc_step hin] at hw hget hbase
  cases hcrash : e.crashAt with
  | some k =>
    rw [hcrash] at hw
    obtain ⟨term, vote, commit, hboot⟩ := Process.boot_volatile
      (((c.proc i).turn (cc.config i) input).cutNode (c.proc i).node k).storage
    have hnil : ((c.proc i).act (cc.config i) input (some k)).node.pending = [] :=
      congrArg Volatile.pending hboot
    rw [hnil] at hw
    cases hw
  | none =>
    rw [hcrash] at hw hget hbase
    subst hinput
    change w ∈ ((c.proc i).turn (cc.config i) _).node.pending at hw
    change MemStorage.get? ((c.proc i).turn (cc.config i) _).node.storage w.1 = some entry at hget
    change Based ((c.proc i).turn (cc.config i) _).node at hbase
    by_cases hrole : (c.proc i).node.sm.role = .leader
    · rw [turn_propose hrole] at hw hget hbase
      rcases List.mem_append.mp hw with hold | hlast
      · exact absurd hold hnew
      · have hri : Replica cc True a i (c.proc i).history (c.proc i).node := hc.holds.node i hi
        obtain ⟨-, hlog⟩ := leader_canon hc.holds hi ⟨hrole, rfl⟩
        have hplace : w.1 = ((c.proc i).node.minted data).index :=
          congrArg Prod.fst (List.mem_singleton.mp hlast)
        have hminted := hbase.aligned.get?_of_mem (List.mem_append_right _
          (List.mem_singleton_self ((c.proc i).node.minted data)))
        rw [hplace] at hget
        obtain rfl : entry = (c.proc i).node.minted data :=
          Option.some.inj (hget.symm.trans hminted)
        have hplain := hri.disk.plain hc.holds.good
        show (a₁.canon (c.sm i).currentTerm).length < (c.store i).lastIndex + 1
        rw [hplain.lastIndex, hlog]
        exact Nat.lt_succ_of_le (hc.since.canon _).length_le
    · have hsame : ((c.proc i).turn (cc.config i)
          (.message (.propose ⟨data, some w.2⟩))).node = (c.proc i).node :=
        onProposal_refused (x := Turn.start (c.proc i).node) hrole _
      rw [hsame] at hw
      exact absurd hw hnew

/-- What one activation may rely on. -/
structure WriteStep (cc : ClusterConfig) (c : Cluster MemStorage) (e : Event) : Prop where
  conditions : c.Meets cc (Strict.and PendingKept) e
  unique : (c.step cc e).UniqueLeaders cc

/-- The accounts of the activated process. -/
theorem Ordered.accounts_act (hc : Ordered cc a₁ s₁ a c)
    (hb : Simulation.Holds cc (replication cc True) (c.step cc e) b) (hg : Grows a b)
    (hawaited : Booking.Holds .plain (Awaited []) cc (c.step cc e))
    (hin : c.input? cc e.action = some (i, input)) :
    Accounts cc a₁ s₁ b (c.nextSender + 1) ((c.step cc e).proc i) := by
  have hi := (Simulation.cause_of_input hc.holds hin).1
  have hold := hc.accounts i hi
  obtain ⟨n, htraded, hend⟩ := hc.used.traded hin
  have hsender : ∀ tx, input.sender? = some tx → tx = c.nextSender :=
    fun tx htx => sender_of_input hc.used.packet hin htx
  have hbelow : ∀ tx entry, Effect.accepted tx entry ∈ (c.proc i).history → tx < c.nextSender :=
    (hc.used.node i hi).2.below
  -- what is accepted now has the new channel
  have haccepted : ∀ tx entry, Effect.accepted tx entry ∈ ((c.step cc e).proc i).history →
      Effect.accepted tx entry ∈ (c.proc i).history ∨
        (tx = c.nextSender ∧ input = .message (.propose ⟨entry.data, some tx⟩)) := by
    intro tx entry hmem
    rw [proc_step hin] at hmem
    have hnew (hinput : input = .message (.propose ⟨entry.data, some tx⟩)) :
        tx = c.nextSender := hsender tx (by rw [hinput]; rfl)
    rcases Process.mem_history_act hmem with hmem | hmem | ⟨k, hboot⟩
    · exact .inl hmem
    · rcases htraded.accepted tx entry (List.mem_append_right _ hmem) with hmem | hinput
      · exact .inl hmem
      · exact .inr ⟨hnew hinput, hinput⟩
    · cases hboot
  -- who is answered now waited before, or called just now
  have hanswered : ∀ r ∈ answers ((c.step cc e).proc i).history, r ∈ answers (c.proc i).history ∨
      (r ∈ answers ((c.proc i).emitted (cc.config i) input e.crashAt) ∧
        ((r.2, r.1) ∈ (c.proc i).node.pending ∨ input.sender? = some r.1)) := by
    intro r hr
    rcases answers_step hr with hr | ⟨input', hin', hr⟩
    · exact .inl hr
    · obtain rfl : input' = input := by
        rw [hin] at hin'
        exact (congrArg Prod.snd (Option.some.inj hin')).symm
      rcases htraded.answered r.1 r.2 (List.mem_append_right _ (mem_answers.mp hr)) with
        hmem | hfrom
      · exact .inl (mem_answers.mpr hmem)
      · exact .inr ⟨hr, hfrom⟩
  have hwaits : ∀ w ∈ (c.proc i).node.pending, ∃ entry,
      Effect.accepted w.2 entry ∈ (c.proc i).history ∧ entry.index = w.1 ∧
        (c.store i).get? w.1 = some entry := (hc.awaited.node i hi).2.pending
  refine ⟨fun r hr => ?_, fun r hr => ?_, fun w hw hle entry hentry => ?_,
    fun r hr hle entry hentry => ?_⟩
  · rcases hanswered r hr with hmem | ⟨-, hwait | hcall⟩
    · exact Nat.lt_succ_of_lt (hold.spent r hmem)
    · obtain ⟨entry, hacc, -⟩ := hwaits _ hwait
      exact Nat.lt_succ_of_lt (hbelow _ _ hacc)
    · rw [hsender _ hcall]
      exact Nat.lt_succ_self _
  · rcases hanswered r hr with hmem | ⟨hnew, -⟩
    · exact (hold.reached r hmem).grows hg
    · exact reached_of_answer hc.holds hb hg hin hnew
  · have hfrom : w ∈ (c.proc i).node.pending ∨
        ∃ data, input = .message (.propose ⟨data, some w.2⟩) := by
      rw [proc_step hin] at hw
      cases hcrash : e.crashAt with
      | none =>
        rw [hcrash] at hw hend
        rw [← hend rfl] at hw
        exact htraded.pending w hw
      | some k =>
        rw [hcrash] at hw
        obtain ⟨term, vote, commit, hboot⟩ := Process.boot_volatile
          (((c.proc i).turn (cc.config i) input).cutNode (c.proc i).node k).storage
        have hnil : ((c.proc i).act (cc.config i) input (some k)).node.pending = [] :=
          congrArg Volatile.pending hboot
        rw [hnil] at hw
        cases hw
    rcases hfrom with hwait | ⟨data, hinput⟩
    · obtain ⟨entry', hacc, -⟩ := hwaits w hwait
      rcases haccepted _ _ hentry with hmem | ⟨hnext, -⟩
      · exact hold.waiting w hwait hle entry hmem
      · exact absurd hnext (Nat.ne_of_lt (hbelow _ _ hacc))
    · exact late_of_waiting hc hawaited hin hw hinput hentry
  · rcases hanswered r hr with hmem | ⟨hnew, hwait | hcall⟩
    · rcases haccepted _ _ hentry with hacc | ⟨hnext, -⟩
      · obtain ⟨hidx, hchosen, hlate⟩ := hold.told r hmem hle entry hacc
        exact ⟨hidx, hchosen.grows hg, hlate⟩
      · exact absurd hnext (Nat.ne_of_lt (hold.spent r hmem))
    · obtain ⟨entry', hacc', hidx, hget⟩ := hwaits _ hwait
      have hlt := hbelow _ _ hacc'
      rcases haccepted _ _ hentry with hacc | ⟨hnext, -⟩
      · obtain rfl := (hc.awaited.node i hi).2.once _ _ _ hacc hacc'
        refine ⟨hidx, ?_, hold.waiting _ hwait hle entry hacc⟩
        apply chosen_of_answer hc.holds hb hg hin _ hnew hget
        rintro tx rfl
        have hq : r.1 = tx := congrArg Prod.fst (Process.emitted_readIndex hnew)
        have hnext := hsender tx rfl
        rw [← hq] at hnext
        exact Nat.lt_irrefl _ (hnext ▸ hlt)
      · exact absurd hnext (Nat.ne_of_lt hlt)
    · -- a call that is answered at once is no proposal
      rcases haccepted _ _ hentry with hacc | ⟨-, hinput⟩
      · exact absurd (hsender _ hcall) (Nat.ne_of_lt (hbelow _ _ hacc))
      · subst hinput
        have hsilent : ((c.proc i).turn (cc.config i)
            (.message (.propose ⟨entry.data, some r.1⟩))).told = [] :=
          NodeTurn.onProposal_told _ _
        have htold := Process.answers_emitted_subset _ _ _ _ hnew
        rw [hsilent] at htold
        cases htold

/-- **Step lemma.** -/
theorem Ordered.step (hc : Ordered cc a₁ s₁ a c) (h : WriteStep cc c e) :
    ∃ b, Ordered cc a₁ s₁ b (c.step cc e) := by
  have hunique : (exec cc c [e]).UniqueLeaders cc := h.unique
  have hstrict : Within cc Strict c [e] := ⟨h.conditions.mono fun _ _ _ _ hs => hs.1, trivial⟩
  obtain ⟨b, hg, hb⟩ := strict_run hc.holds hunique hstrict
  change Simulation.Holds cc (replication cc True) (c.step cc e) b at hb
  have hone : Runs.Within (Cluster.step cc) (fun c' e' => c' = c ∧ e' = e) c [e] :=
    ⟨⟨rfl, rfl⟩, trivial⟩
  have hawaited : Booking.Holds .plain (Awaited []) cc (c.step cc e) := by
    refine awaited_booking.holds_run ?_ hc.awaited hone
    rintro c' e' ⟨rfl, rfl⟩ j input' hin'
    exact ⟨(h.conditions.of_input hin').2, fun _ htx => hc.used.fresh hin' htx⟩
  refine ⟨b, hb, hc.used.step e, hawaited, hc.since.trans hg, ?_⟩
  intro j hj
  cases hin : c.input? cc e.action with
  | none =>
    have hsame : c.step cc e = { c with net := c.netAfter e.action } := by
      unfold Cluster.step
      rw [hin]
    rw [hsame]
    exact (hc.accounts j hj).grows hg (Nat.le_refl _)
  | some q =>
    obtain ⟨i, input⟩ := q
    have hnext : (c.step cc e).nextSender = c.nextSender + 1 := by
      unfold Cluster.step
      rw [hin]
      rfl
    rw [hnext]
    by_cases hji : j = i
    · subst hji
      exact hc.accounts_act hb hg hawaited hin
    · have hsame : (c.step cc e).proc j = c.proc j := by
        unfold Cluster.step
        rw [hin]
        exact if_neg hji
      rw [hsame]
      exact (hc.accounts j hj).grows hg (Nat.le_succ _)

/-- At the start nothing was written. -/
theorem ordered_init :
    Ordered cc State.init 0 State.init (init fun _ => MemStorage.new) where
  holds := replication_init
  used := sendersUsed_init
  awaited := Booking.holds_init fun _ _ => ⟨nofun, rfl, List.nil_prefix,
    fun _ _ _ hmem _ => (nomatch List.mem_singleton.mp hmem), nofun⟩
  since := .refl _
  accounts _ _ := ⟨nofun, nofun, nofun, nofun⟩

/-- In a strict run with one leader a term the writes stay in order. -/
theorem Ordered.run {es : List Event} (hc : Ordered cc a₁ s₁ a c)
    (h : Within cc (Strict.and PendingKept) c es)
    (hunique : (exec cc c es).UniqueLeaders cc) : ∃ b, Ordered cc a₁ s₁ b (exec cc c es) :=
  Runs.invariant (fun c => ∃ b, Ordered cc a₁ s₁ b c)
    (fun _ _ ⟨_, hc⟩ hok => hc.step ⟨hok.1, hok.2⟩) ⟨a, hc⟩ (h.and hunique.within)

/-- **Writes are in real-time order.**  In a run from empty storages in which no term has two
leaders, a restarted process restores before its handlers run, the strict rules are kept, and no
entry is replaced that a proposal waits for: a proposal that is submitted, anywhere, after an
index was answered, anywhere, and that is answered in the end, is answered with the index of its
own entry, which is higher.
SRCLINE: iceraft-node/src/node.rs:116-129, 471-503, 749-801 -/
theorem writes_in_order (cc : ClusterConfig) (es es' : List Event) (i j : NodeId)
    (tx tx' : Sender) (k k' : ℕ) (entry : LogEntry)
    (h : Within cc (Strict.and PendingKept) (init fun _ => MemStorage.new) (es ++ es'))
    (hunique : (exec cc (init fun _ => MemStorage.new) (es ++ es')).UniqueLeaders cc)
    (hi : i ∈ cc.members) (hj : j ∈ cc.members)
    (hbefore : (tx, k) ∈ answers ((exec cc (init fun _ => MemStorage.new) es).proc i).history)
    (hafter : (exec cc (init fun _ => MemStorage.new) es).nextSender ≤ tx')
    (haccepted : (tx', entry) ∈
      acceptances ((exec cc (init fun _ => MemStorage.new) (es ++ es')).proc j).history)
    (hanswer : (tx', k') ∈
      answers ((exec cc (init fun _ => MemStorage.new) (es ++ es')).proc j).history) :
    entry.index = k' ∧ k < k' := by
  obtain ⟨h1, h2⟩ := (Runs.within_append _ _ _).mp h
  have happend : exec cc (init fun _ => MemStorage.new) (es ++ es') =
      exec cc (exec cc (init fun _ => MemStorage.new) es) es' := Runs.exec_append _ _ _
  rw [happend] at hunique haccepted hanswer
  have hunique1 := hunique.of_grown fun i => history_exec cc _ es' i
  obtain ⟨a, ha⟩ := ordered_init.run h1 hunique1
  obtain ⟨b, hb⟩ := ha.restart.run h2 hunique
  obtain ⟨hidx, hchosen, hlate⟩ :=
    (hb.accounts j hj).told _ hanswer hafter entry (mem_acceptances.mp haccepted)
  refine ⟨hidx, ?_⟩
  have hreached := (ha.accounts i hi).reached _ hbefore
  obtain ⟨log, hlog⟩ := ha.holds.good.exists_shared
  obtain ⟨log', hlog'⟩ := hb.holds.good.exists_shared
  have hk : k ≤ log.length := hlog.reached_iff.mp hreached
  -- the entry stands at its index in the later log, so not in the earlier one
  obtain ⟨m, hm, hget⟩ := List.getElem_of_mem (hchosen.mem_shared hlog')
  have hplace : entry.index = m + 1 := by
    rw [← hget]
    exact (hlog'.good hb.holds.good.1).fits m hm
  have hlate' : (a.canon entry.term).length ≤ m := by
    unfold Late at hlate
    omega
  have hbehind := hlog.length_le_of_late ha.holds.good.1
    (hlog.isPrefix_of_grows hlog' hb.since) hm (by rw [hget]; exact hlate')
  omega

/-- Two proposals have been answered when a third is submitted, and answered in its turn. -/
def thirdRun : List Event :=
  [⟨.client 1 (.propose [9]), none⟩, ⟨.deliver 6, none⟩, ⟨.deliver 7, none⟩]

/-- The third proposal, sent after the answer to the second, gets the higher index. -/
theorem writes_in_order_thirdRun :
    (4, 2) ∈ answers ((exec trio (init fun _ => MemStorage.new) ackedRun).proc 1).history ∧
      (7, 3) ∈ answers
        ((exec trio (init fun _ => MemStorage.new) (ackedRun ++ thirdRun)).proc 1).history ∧
      ((⟨1, 3, [9], .normal⟩ : LogEntry).index = 3 ∧ 2 < 3) :=
  ⟨by decide +kernel, by decide +kernel, writes_in_order trio ackedRun thirdRun 1 1 4 7 2 3
    ⟨1, 3, [9], .normal⟩ (by decide +kernel) (by decide +kernel) (by decide) (by decide)
    (by decide +kernel) (by decide +kernel) (by decide +kernel) (by decide +kernel)⟩

end IceRaft
