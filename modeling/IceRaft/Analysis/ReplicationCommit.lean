import IceRaft.Analysis.ReplicationTurns

/-!
# Proposals, commitment and application

A proposal extends the log of the owner.  The commit index moves to an index of the
present term that a quorum has acknowledged, the leader among them; what is applied is
part of a committed prefix.
-/

set_option autoImplicit false

namespace IceRaft

open ReplicatedLog Cluster Abstraction

variable {cc : ClusterConfig} {p : Prop} {a b : Ghost} {i : NodeId} {h H : List Effect}
  {a₀ : Ghost} {asker : Option (NodeId × RpcTask)} {n₀ : RaftNodeInner MemStorage}
  {x : NodeTurn MemStorage}

/-! ## Proposals -/

/-- A leader appends an entry of its term behind its log. -/
theorem Replica.extend {n : RaftNodeInner MemStorage} (hr : Replica cc p a i H n)
    (hgood : GoodGhost cc p a) (hlead : n.sm.role = .leader) {e : LogEntry}
    (hterm : e.term = n.sm.currentTerm) (hlast : e.index = n.storage.lastIndex + 1) :
    Step (clusterRules cc p) i a (a.extend i e) ∧
      Replica cc p (a.extend i e) i (H ++ [.wrote])
        { n with storage := n.storage.appendEntries [e] } := by
  have hpl := hr.disk.plain hgood
  have hidx : e.index = n.storage.entries.length + 1 := by
    rw [hlast, hpl.lastIndex]
  have hstep : Step (clusterRules cc p) i a (a.extend i e) := by
    refine .extend a e (hr.memory.leader hlead) (hterm.trans hr.memory.term) ?_
    show e.index = (a.log i).length + 1
    rw [hidx, hr.disk.entries]
  have hwritten : (n.storage.appendEntries [e]).entries = n.storage.entries ++ [e] := by
    rw [hpl.aligned.entries_append (by rw [hpl.firstIndex]; omega)
      (by rw [hpl.lastIndex]; omega), List.take_of_length_le (by rw [hpl.firstIndex]; omega)]
  refine ⟨hstep, hr.rewrite hgood hstep rfl (fun _ ho => ho) ?_⟩
  rw [hwritten, hr.disk.entries]
  simp [State.extend]

/-- A proposal extends the log of the owner of the term. -/
theorem RepFollows.onProposal (hi : i ∈ cc.members)
    (hx : RepFollows cc p a₀ i h asker n₀ (Rep cc p i) x) (proposal : Proposal) :
    RepFollows cc p a₀ i h asker n₀ (Rep cc p i) (x.onProposal (cc.config i) proposal) := by
  unfold NodeTurn.onProposal
  dsimp only
  split
  · split
    · exact hx.plain nofun fun _ _ _ _ => nofun
    · exact hx
  · rename_i hrole
    have hlead : x.sm.role = .leader := not_not.mp hrole
    rw [NodeTurn.lastIndexOr0_eq]
    dsimp only
    generalize he : (⟨x.sm.currentTerm, x.node.storage.lastIndex + 1, proposal.data,
      .normal⟩ : LogEntry) = e
    have hterm : e.term = x.sm.currentTerm := by rw [← he]
    have hlast : e.index = x.node.storage.lastIndex + 1 := by rw [← he]
    generalize hwrite : x.write (Storage.appendEntries [e]) = w
    have hw : w.1 = .ok () ∧ RepFollows cc p a₀ i h asker n₀ (Rep cc p i) w.2 := by
      rw [← hwrite]
      refine ⟨rfl, ?_⟩
      have hstored : RepFollows cc p a₀ i h asker n₀ (fun a H _ => Replica cc p a i H x.node)
          (x.update fun n => { n with storage := n.storage.appendEntries [e] }) :=
        Follows.update hx _ fun _ _ _ hq => hq
      apply Follows.effect hstored .wrote
      intro a H _ hgood hr
      obtain ⟨hstep, hr'⟩ := hr.extend hgood hlead hterm hlast
      exact ⟨_, .single hstep, hr'.disk, nofun, hr'⟩
    obtain ⟨result, y⟩ := w
    obtain ⟨hok, hy⟩ := hw
    dsimp only at hok
    subst hok
    refine RepFollows.replicateAll hi ?_
    split
    · refine RepFollows.plain ?_ nofun fun _ _ _ _ => nofun
      exact Follows.update hy _ fun _ _ _ hr => ⟨hr.disk, hr.memory⟩
    · exact hy

/-! ## Commitment -/

/-- The peers of a member are members. -/
theorem ClusterConfig.peers_subset (cc : ClusterConfig) (hi : i ∈ cc.members) {j : NodeId}
    (hj : j ∈ (cc.config i).peers) : j ∈ cc.members := by
  rw [← cc.config_members i hi, RaftConfig.members]
  exact Finset.mem_insert_of_mem (List.mem_toFinset.mpr hj)

/-- An index of the present term that a quorum holds, the leader among them, is
committed, and the leader holds it. -/
theorem Replica.commit {n : RaftNodeInner MemStorage} (hr : Replica cc p a i H n)
    (hgood : GoodGhost cc p a) (hi : i ∈ cc.members) (hlead : n.sm.role = .leader) {k : ℕ}
    (hpos : 0 < k) (hle : k ≤ n.storage.lastIndex)
    (hterm : unwrapOr (n.storage.term k) 0 = n.sm.currentTerm)
    (hquorum : (cc.config i).quorum ≤ n.sm.replicated k) :
    Step (clusterRules cc p) i a (a.ack i k) ∧
      (p → Settled (clusterRules cc p) (a.ack i k) i k) := by
  have hpl := hr.disk.plain hgood
  have howner := hr.memory.leader hlead
  have hlog : a.log i = a.canon (a.term i) := hgood.1.owner_log _ i howner rfl
  have hlen : k ≤ (a.canon (a.term i)).length := by
    rw [← hlog, ← hr.disk.entries, ← hpl.lastIndex]
    exact hle
  have hheld : (a.canon (a.term i)).take k <+: a.log i := by
    rw [hlog]
    exact List.take_prefix _ _
  have hstep : Step (clusterRules cc p) i a (a.ack i k) :=
    .ack a k (by rw [howner]; exact Option.some_ne_none i) hlen hheld
  refine ⟨hstep, fun hp => .inr ⟨a.term i, k, ⟨hpos, hlen, ?_, ?_⟩, Nat.le_refl _, Nat.le_refl _,
    hheld⟩⟩
  · show TermLog.termAt LogEntry.term (a.canon (a.term i)) k = a.term i
    rw [← hlog, ← hr.disk.entries, ← hpl.unwrapOr_term, hterm]
    exact hr.memory.term
  · -- the leader and the peers that hold the index
    have hpeers : ∀ v ∈ n.sm.holders k, v ∈ (cc.config i).peers ∧ a.acked v (a.term i) k := by
      intro v hv
      obtain ⟨pr, hpr, hk⟩ := RaftStateMachine.mem_holders_iff.mp hv
      refine ⟨(hr.memory.progress v pr hpr).1, ?_⟩
      rcases hr.memory.matched hp hlead v pr hpr with hzero | hacked
      · omega
      · exact hgood.1.acked_down v _ _ k hacked hk
    refine ⟨insert i (n.sm.holders k), ⟨?_, i, hi, ?_⟩, ?_⟩
    · intro v hv
      rcases Finset.mem_insert.mp hv with rfl | hv
      · exact hi
      · exact cc.peers_subset hi (hpeers v hv).1
    · rw [← RaftStateMachine.replicated_eq_card fun hmem =>
        cc.config_peers i hi (hpeers i hmem).1]
      exact hquorum
    · intro v hv
      rcases Finset.mem_insert.mp hv with rfl | hv
      · exact .inr ⟨rfl, rfl, Nat.le_refl _⟩
      · exact .inl (hpeers v hv).2

/-- Answers leave the replicated log alone. -/
theorem RepFollows.notifyPending (hx : RepFollows cc p a₀ i h asker n₀ (Rep cc p i) x) :
    RepFollows cc p a₀ i h asker n₀ (Rep cc p i) x.notifyPending := by
  unfold NodeTurn.notifyPending
  refine Follows.foldl _ _ ?_ ?_
  · intro y waiting _ hy
    unfold NodeTurn.notifyOne
    split
    · exact RepFollows.plain hy nofun fun _ _ _ _ => nofun
    · exact Follows.update hy _ fun _ _ _ hr => ⟨hr.disk, hr.memory⟩
  · exact Follows.update hx _ fun _ _ _ hr => ⟨hr.disk, hr.memory⟩

/-- What a leader commits a quorum has acknowledged. -/
theorem RepFollows.maybeAdvanceCommit (hi : i ∈ cc.members)
    (hx : RepFollows cc p a₀ i h asker n₀ (Rep cc p i) x) :
    RepFollows cc p a₀ i h asker n₀ (Rep cc p i) (x.maybeAdvanceCommit (cc.config i)) := by
  unfold NodeTurn.maybeAdvanceCommit
  split
  · exact hx
  · rename_i hrole
    have hlead : x.sm.role = .leader := not_not.mp hrole
    rw [NodeTurn.lastIndexOr0_eq]
    dsimp only
    obtain ⟨hsame, hscan⟩ := NodeTurn.commitScan_cases (cc.config i) x.node.storage.lastIndex x
    rw [hsame]
    generalize (x.commitScan (cc.config i) x.node.storage.lastIndex).1 = k at hscan ⊢
    refine RepFollows.notifyPending ?_
    split
    · rename_i hgt
      obtain rfl | ⟨hlt, hle, hterm, hquorum⟩ := hscan
      · exact absurd hgt (Nat.lt_irrefl _)
      · refine Follows.modifyMetrics (Q := Rep cc p i) ?_ fun _ _ _ hr => ⟨hr.disk, hr.memory⟩
        apply hx.saveSm
        intro a H hgood hr
        obtain ⟨hstep, hsettled⟩ := hr.commit hgood hi hlead (by omega) hle hterm hquorum
        have hg := hstep.grows hgood.1
        have hm := hr.memory.grows hg rfl (fun _ ho => ho)
          fun hp => hgood.settled hstep hp (hr.memory.commit hp)
        refine ⟨_, .single hstep, ?_, ?_⟩
        · exact hr.disk.resave hg rfl (fun _ ho => ho) hm.term hsettled
        · exact hm.congr ⟨rfl, rfl, rfl, rfl⟩ rfl hsettled
    · exact hx

/-! ## Responses -/

/-- The progress of a leader after a response to an AppendEntries request. -/
theorem Memory.updateProgress {sm : RaftStateMachine} (hm : Memory cc p a i sm) {peer : NodeId}
    {last : ℕ} {resp : AppendEntriesResponse}
    (hacked : p → resp.success = true → a.acked peer (a.term i) last) :
    Memory cc p a i (NodeTurn.updateProgress peer (NodeTurn.progressAfterAppend last resp) sm) := by
  obtain ⟨m, heq⟩ := NodeTurn.updateProgress_eq peer (NodeTurn.progressAfterAppend last resp) sm
  have hlookup : ∀ {j pr}, m.lookup j = some pr → sm.progress.lookup j = some pr ∨
      (j = peer ∧ ∃ old, sm.progress.lookup j = some old ∧
        pr = NodeTurn.progressAfterAppend last resp old) := by
    intro j pr hpr
    have hpr' : (NodeTurn.updateProgress peer (NodeTurn.progressAfterAppend last resp)
        sm).progress.lookup j = some pr := by
      rw [heq]
      exact hpr
    exact NodeTurn.updateProgress_lookup hpr'
  rw [heq]
  refine ⟨hm.term, hm.leader, hm.candidate, ?_, hm.votes, ?_, hm.commit⟩
  · intro j pr hpr
    obtain hpr | ⟨-, old, hold, rfl⟩ := hlookup hpr
    · exact hm.progress j pr hpr
    · exact ⟨(hm.progress j old hold).1, NodeTurn.one_le_progressAfterAppend _ _ _⟩
  · intro hp hl j pr hpr
    obtain hpr | ⟨rfl, old, hold, rfl⟩ := hlookup hpr
    · exact hm.matched hp hl j pr hpr
    · have holdOk := hm.matched hp hl j old hold
      unfold NodeTurn.progressAfterAppend
      split
      · rename_i hsuccess
        dsimp only
        rcases Nat.le_total old.matchIndex last with hle | hle
        · rw [Nat.max_eq_right hle]
          exact .inr (hacked hp hsuccess)
        · rw [Nat.max_eq_left hle]
          exact holdOk
      · split
        · exact holdOk
        · exact holdOk

/-- A success is an acknowledgement on record. -/
theorem RepFollows.handleAppendResponse (hi : i ∈ cc.members) (hg : GoodGhost cc p a₀)
    (hr : Replica cc p a₀ i h n₀) {peer : NodeId} {last : ℕ} {resp : AppendEntriesResponse}
    (hpacket : PacketOk cc p a₀ (.response i (.appendResponse peer last resp)))
    (hcur : p → resp.success = true → n₀.sm.role = .leader → n₀.sm.currentTerm ≤ resp.term) :
    RepFollows cc p a₀ i h asker n₀ (Rep cc p i)
      (NodeTurn.handleAppendResponse (cc.config i) peer last resp (Turn.start n₀)) := by
  have hstart : RepFollows cc p a₀ i h asker n₀ (Rep cc p i) (Turn.start n₀) :=
    Follows.start hg hr.disk hr
  rw [NodeTurn.handleAppendResponse_eq]
  obtain heq | ⟨hle, hlead, heq⟩ := NodeTurn.handleResponse_cases (cc.config i) peer
    (NodeTurn.progressAfterAppend last resp) resp.term (Turn.start n₀)
  · rw [heq]
    exact hstart.descend resp.term none
  · rw [heq]
    refine RepFollows.maybeAdvanceCommit hi ?_
    have hboth : RepFollows cc p a₀ i h asker n₀ (fun a H n =>
        (resp.success = true → a.acked peer resp.term last) ∧ Replica cc p a i H n)
        (Turn.start n₀) :=
      Follows.start hg hr.disk ⟨hpacket.appended i peer last resp rfl, hr⟩
    refine Follows.modifySm hboth fun a H _ hq => ⟨hq.2.disk, ?_⟩
    obtain ⟨hacked, -, hm⟩ := hq
    apply hm.updateProgress
    intro hp hsuccess
    have hterm : resp.term = a.term i := by
      rw [← hm.term]
      exact Nat.le_antisymm hle (hcur hp hsuccess hlead)
    rw [← hterm]
    exact hacked hsuccess

/-! ## Application -/

/-- What a settled log holds up to the commit index is chosen. -/
theorem Disk.chosen {s : MemStorage} (hd : Disk cc p a i H s) {k c : ℕ}
    (hsettled : Settled (clusterRules cc p) a i c) (hgood : GoodGhost cc p a) (hk : k < c)
    {e : LogEntry} (he : s.entries[k]? = some e) : Chosen cc p a e := by
  have hpl := hd.plain hgood
  obtain ⟨hlt, heq⟩ := List.getElem?_eq_some_iff.mp he
  have hidx : e.index = k + 1 := by
    have := hpl.aligned k hlt
    rw [heq, hpl.firstIndex] at this
    omega
  rcases hsettled with hzero | ⟨T, n, hcom, -, hcn, hpre⟩
  · omega
  · have hlen := hcom.le
    refine ⟨T, n, hcom, by omega, by omega, ?_⟩
    obtain ⟨t, ht⟩ := hpre
    rw [hd.entries, ← ht, List.getElem?_append_left (by rw [List.length_take]; omega),
      List.getElem?_take, if_pos hk] at he
    rw [hidx, Nat.add_sub_cancel]
    exact he

/-- An uncapped read of an aligned log takes entries below its upper end. -/
theorem MemStorage.Plain.mem_readEntries {s : MemStorage} (hpl : s.Plain) {lo hi : ℕ}
    {es : List LogEntry} (hread : s.readEntries lo hi none = .ok es) {e : LogEntry}
    (he : e ∈ es) : ∃ k, k + 1 < hi ∧ s.entries[k]? = some e := by
  unfold readEntries at hread
  dsimp only at hread
  rw [hpl.firstIndex] at hread
  split at hread
  · cases hread
  · split at hread
    · cases hread
    · split at hread
      · cases hread
        cases he
      · cases hread
        obtain ⟨j, hj⟩ := List.getElem?_of_mem he
        rw [List.getElem?_take] at hj
        split at hj
        · rw [List.getElem?_drop] at hj
          exact ⟨lo - 1 + j, by omega, hj⟩
        · cases hj

/-- What is applied is chosen. -/
theorem RepFollows.applyCommitted (hx : RepFollows cc p a₀ i h asker n₀ (Rep cc p i) x) :
    RepFollows cc p a₀ i h asker n₀ (Rep cc p i) x.applyCommitted := by
  unfold NodeTurn.applyCommitted
  dsimp only
  split
  · exact hx
  · rw [NodeTurn.read_entries]
    cases hread : x.node.storage.readEntries (x.sm.lastApplied + 1) (x.sm.commitIndex + 1) none with
    | error e => exact hx
    | ok es =>
      dsimp only
      have hchosen : RepFollows cc p a₀ i h asker n₀ (fun a H n =>
          (p → ∀ e ∈ es, Chosen cc p a e) ∧ Replica cc p a i H n) x := by
        refine Follows.mono hx fun a H hgood hr => ⟨fun hp e he => ?_, hr⟩
        obtain ⟨k, hk, hget⟩ := (hr.disk.plain hgood).mem_readEntries hread he
        exact hr.disk.chosen (hr.memory.commit hp) hgood (Nat.lt_of_succ_lt_succ hk) hget
      have hloop := Follows.foldl NodeTurn.applyOne es (fun y e he hy => ?_) hchosen
      · exact Follows.mono hloop fun _ _ _ hq => hq.2
      · unfold NodeTurn.applyOne
        have hset : RepFollows cc p a₀ i h asker n₀ (fun a H n =>
            (p → ∀ e ∈ es, Chosen cc p a e) ∧ Replica cc p a i H n)
            (y.modifySm fun sm => { sm with lastApplied := e.index }) :=
          Follows.modifySm hy fun a H _ hq => ⟨hq.1, hq.2.disk,
            hq.2.memory.congr ⟨rfl, rfl, rfl, rfl⟩ rfl hq.2.memory.commit⟩
        apply Follows.effect hset (.applied e)
        intro a H _ hgood hq
        obtain ⟨hall, hr⟩ := hq
        have hdisk : Disk cc p a i (H ++ [.applied e]) y.node.storage := by
          refine { hr.disk with
            led := fun T hT => List.mem_append_left _ (hr.disk.led T hT), applied := ?_ }
          intro hp e' he'
          rcases List.mem_append.mp he' with he' | he'
          · exact hr.disk.applied hp e' he'
          · cases List.mem_singleton.mp he'
            exact hall hp e he
        exact ⟨a, .refl, hdisk, nofun, hall, hdisk, hr.memory⟩

/-- The timer makes a candidate, or lets a leader commit. -/
theorem RepFollows.timerBranch (hi : i ∈ cc.members) (hg : GoodGhost cc p a₀)
    (hx : RepFollows cc p a₀ i h asker n₀ (Rep cc p i) x) (electionDue heartbeatDue : Bool) :
    RepFollows cc p a₀ i h asker n₀ (Rep cc p i)
      (x.timerBranch (cc.config i) electionDue heartbeatDue) := by
  unfold NodeTurn.timerBranch
  split
  · exact hx.startElection hi hg
  · split
    · exact ((hx.replicateAll hi).maybeAdvanceCommit hi).applyCommitted
    · exact hx

end IceRaft
