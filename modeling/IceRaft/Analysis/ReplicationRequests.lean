import IceRaft.Analysis.LeaderDiscovery
import IceRaft.Analysis.ReplicationTurns

/-!
# Requests to a replica

A granted vote is a promise to a candidate whose log is at least as up-to-date.  An
accepted batch makes the log of the follower a prefix of the log of the owner of the
term, and the reply to it acknowledges that prefix.
-/

set_option autoImplicit false

namespace IceRaft

open ReplicatedLog Cluster Abstraction

variable {cc : ClusterConfig} {p : Prop} {a b : Ghost} {i : NodeId} {h H : List Effect}
  {a₀ : Ghost} {asker : Option (NodeId × RpcTask)} {n₀ : RaftNodeInner MemStorage}
  {x : NodeTurn MemStorage}

/-! ## Votes -/

/-- The reply to a request for a vote. -/
theorem effect_voteReply {req : RequestVoteRequest} {resp : RequestVoteResponse}
    {src : NodeId} (hasker : ∀ q, asker = some q → q = (src, .requestVote i req))
    (hi : i ∈ cc.members) (hgr : resp.voteGranted = true →
      a.promised i resp.term src ∨ a.owner resp.term ≠ none) :
    (replication cc p).effect a i asker (.replied (.requestVote req (.ok resp))) := by
  intro packet he
  cases asker with
  | none => cases he
  | some q =>
    obtain rfl := hasker q rfl
    cases he
    refine ⟨nofun, nofun, nofun, fun dst peer resp' he hg => ?_, nofun, nofun⟩
    cases he
    exact ⟨hi, hgr hg⟩

/-- A vote that is counted is a promise on record. -/
theorem RepFollows.handleVoteResponse (hi : i ∈ cc.members) (hg : GoodGhost cc p a₀)
    (hr : Replica cc p a₀ i h n₀) {peer : NodeId} {resp : RequestVoteResponse}
    (hp : PacketOk cc p a₀ (.response i (.voteResponse peer resp)))
    (hcur : p → resp.voteGranted = true → n₀.sm.role = .candidate →
      n₀.sm.currentTerm ≤ resp.term) :
    RepFollows cc p a₀ i h asker n₀ (Rep cc p i)
      (NodeTurn.handleVoteResponse (cc.config i) peer resp (Turn.start n₀)) := by
  have hstart : RepFollows cc p a₀ i h asker n₀ (Rep cc p i) (Turn.start n₀) :=
    Follows.start hg hr.disk hr
  unfold NodeTurn.handleVoteResponse
  split
  · rename_i hlt
    rw [← NodeTurn.descend_of_lt hlt]
    exact hstart.descend resp.term none
  · rename_i hle
    split
    · rename_i hcount
      obtain ⟨hpeer, hgranted⟩ := hp.granted i peer resp rfl hcount.1
      have hinsert : RepFollows cc p a₀ i h asker n₀ (Rep cc p i) (NodeTurn.modifySm
          (fun sm => { sm with votesReceived := insert peer sm.votesReceived })
          (Turn.start n₀)) := by
        have hboth : RepFollows cc p a₀ i h asker n₀ (fun a H n =>
            (a.promised peer resp.term i ∨ a.owner resp.term ≠ none) ∧ Replica cc p a i H n)
            (Turn.start n₀) := Follows.start hg hr.disk ⟨hgranted, hr⟩
        refine Follows.modifySm hboth fun a H _ hq => ⟨hq.2.disk, ?_⟩
        obtain ⟨hvote, -, hm⟩ := hq
        refine ⟨hm.term, hm.leader, hm.candidate, hm.progress, ?_, hm.matched, hm.commit⟩
        intro hp hc
        obtain ⟨hsub, hv⟩ := hm.votes hp hc
        have hterm : resp.term = a.term i := by
          rw [← hm.term]
          exact Nat.le_antisymm (Nat.le_of_not_lt hle) (hcur hp hcount.1 hcount.2)
        refine ⟨Finset.insert_subset hpeer hsub, ?_⟩
        intro v hvr
        rcases Finset.mem_insert.mp hvr with rfl | hvr
        · rw [← hterm]
          exact hvote
        · exact hv v hvr
      dsimp only
      split
      · rename_i hwon
        exact hinsert.takeLeadership hi hg hcount.2 hwon
      · exact hinsert
    · exact hstart

/-- The check on the last index and term is the comparison of the logs. -/
theorem upToDate_of_candidateLogOk {req : RequestVoteRequest} {l : List LogEntry}
    {s : MemStorage} (hpl : s.Plain) (hlen : l.length = req.lastLogIndex)
    (hterm : TermLog.lastTerm LogEntry.term l = req.lastLogTerm)
    (hok : NodeTurn.candidateLogOk req s.lastIndex
      (if s.lastIndex > 0 then unwrapOr (s.term s.lastIndex) 0 else 0) = true) :
    TermLog.UpToDate LogEntry.term l s.entries := by
  rw [prevLogTerm_eq hpl, hpl.lastIndex, TermLog.termAt_length] at hok
  unfold NodeTurn.candidateLogOk at hok
  unfold TermLog.UpToDate
  rw [hlen, hterm]
  exact of_decide_eq_true hok

/-- A granted vote is a promise. -/
theorem RepFollows.handleRequestVote (hi : i ∈ cc.members) (hg : GoodGhost cc p a₀)
    {req : RequestVoteRequest} (hcause : Cause (PacketOk cc p a₀) i asker (.requestVote req))
    (hx : RepFollows cc p a₀ i h asker n₀ (Rep cc p i) x) :
    RepFollows cc p a₀ i h asker n₀ (Rep cc p i) (x.handleRequestVote req) := by
  obtain ⟨src, waiting, hpacket, hasker⟩ := hcause.requestVote
  obtain ⟨hsrc, l, hl, hlen, hlast⟩ := hpacket.vote src waiting i req rfl
  -- a vote that is not granted
  have hrefuse {y : NodeTurn MemStorage} (term : ℕ)
      (hy : RepFollows cc p a₀ i h asker n₀ (Rep cc p i) y) :
      RepFollows cc p a₀ i h asker n₀ (Rep cc p i)
        (y.effect (.replied (.requestVote req (.ok ⟨term, false⟩)))) :=
    hy.plain (fun _ h => by cases h)
      fun a H _ _ => effect_voteReply hasker hi fun h => by cases h
  have hx' := hx.descend req.term none
  have hge := NodeTurn.le_descend req.term none x
  unfold NodeTurn.handleRequestVote NodeTurn.onRequestVote
  dsimp only
  rw [← NodeTurn.descend]
  generalize x.descend req.term none = y at hx' hge
  split
  · exact hrefuse _ hx'
  · rename_i hle
    have hterm : y.sm.currentTerm = req.term := Nat.le_antisymm (Nat.le_of_not_lt hle) hge
    split
    · exact hrefuse _ hx'
    · rw [NodeTurn.lastIndexOr0_eq]
      dsimp only
      rw [NodeTurn.termOr0_eq]
      dsimp only
      generalize ht : (if y.node.storage.lastIndex > 0 then
        unwrapOr (y.node.storage.term y.node.storage.lastIndex) 0 else 0) = t
      split
      · rename_i hok
        rw [← ht] at hok
        have hcand : RepFollows cc p a₀ i h asker n₀
            (fun a H n => a.cand src req.term = some l ∧ Replica cc p a i H n) y :=
          Follows.carry hx' hg hl fun a b hs hga hc => (hs.grows hga.1).cand _ _ _ hc
        have hsaved := hcand.saveSmAnd (f := fun sm => { sm with votedFor := some req.candidateId })
          (E := fun b => b.promised i req.term src ∨ b.owner req.term ≠ none) <| by
          intro a H hgood hq
          obtain ⟨hc, hd, hm⟩ := hq
          have hT : req.term = a.term i := by rw [← hterm]; exact hm.term
          cases ho : a.owner (a.term i) with
          | some c =>
            -- the term is owned already, and the vote counts for nothing
            refine ⟨a, .refl, .inr (by rw [hT, ho]; exact Option.some_ne_none _), ?_, ?_⟩
            · exact hd.resave (Grows.refl a) rfl (fun _ ho => ho) hm.term hm.commit
            · exact ⟨hm.term, hm.leader, hm.candidate, hm.progress, hm.votes, hm.matched, hm.commit⟩
          | none =>
            have hup : TermLog.UpToDate LogEntry.term l (a.log i) := by
              rw [← hd.entries]
              exact upToDate_of_candidateLogOk (hd.plain hgood) hlen hlast hok
            have hstep : Step (clusterRules cc p) i a (a.promise i (a.term i) src) :=
              .promise a src l ho (by rw [← hT]; exact hc) hup
            have hgr := hstep.grows hgood.1
            refine ⟨_, .single hstep, .inl (.inr ⟨rfl, hT, rfl⟩), ?_, ?_⟩
            · exact hd.resave hgr rfl (fun _ ho => ho) hm.term
                fun hp => hgood.settled hstep hp (hm.commit hp)
            · have hm' := hm.grows hgr rfl (fun _ ho => ho)
                fun hp => hgood.settled hstep hp (hm.commit hp)
              exact ⟨hm'.term, hm'.leader, hm'.candidate, hm'.progress, hm'.votes, hm'.matched,
                hm'.commit⟩
        have hcounted := hsaved.count fun m => { m with votesGranted := m.votesGranted + 1 }
        apply Follows.effect hcounted _
        intro a H _ hgood hq
        obtain ⟨hpromised, hr⟩ := hq
        have hother : ∀ e', Effect.replied (.requestVote req (.ok ⟨y.sm.currentTerm, true⟩)) ≠
            .applied e' := fun _ h => by cases h
        refine ⟨a, .refl, hr.disk.append hother, ?_, hr.append hother⟩
        apply effect_voteReply hasker hi
        intro _
        have hreply : y.sm.currentTerm = req.term := hterm
        rw [← hreply] at hpromised
        exact hpromised
      · exact hrefuse _ hx'

/-! ## Batches -/

/-- The reply to an AppendEntries request. -/
theorem effect_appendReply {req : AppendEntriesRequest} {resp : AppendEntriesResponse}
    {src : NodeId} {last : ℕ}
    (hasker : ∀ q, asker = some q → q = (src, .appendEntries i last req))
    (hok : resp.success = true → a.acked i resp.term last) :
    (replication cc p).effect a i asker (.replied (.appendEntries req (.ok resp))) := by
  intro packet he
  cases asker with
  | none => cases he
  | some q =>
    obtain rfl := hasker q rfl
    cases he
    refine ⟨nofun, nofun, nofun, nofun, fun dst peer last' resp' he hs => ?_, nofun⟩
    cases he
    exact hok hs

/-- **The consistency check**: what it lets through continues the log of the follower as
it continues the log of the owner. -/
theorem Replica.continues {n : RaftNodeInner MemStorage} (hr : Replica cc p a i H n)
    (hgood : GoodGhost cc p a) {src : NodeId} {last : ℕ} {req : AppendEntriesRequest}
    (ha : AppendOk cc p a src i last req) (hcheck : NodeTurn.PrevOk n.storage req) :
    req.prevLogIndex ≤ (a.log i).length ∧ last ≤ (a.canon req.term).length ∧
      (a.log i).take req.prevLogIndex ++ req.entries.map protoEntryToLogEntry =
        (a.canon req.term).take last := by
  have hpl := hr.disk.plain hgood
  have hlog := hgood.1.log_good i
  -- the previous entry is there, with the term the request tells
  have hprev : req.prevLogIndex ≤ (a.log i).length ∧ (req.prevLogIndex = 0 ∨
      TermLog.termAt LogEntry.term (a.log i) req.prevLogIndex = req.prevLogTerm) := by
    rw [NodeTurn.PrevOk, hpl.term_eq, hr.disk.entries] at hcheck
    split at hcheck
    · rename_i hle
      refine ⟨hle, ?_⟩
      rcases hcheck with h | h | ⟨r, f, h⟩
      · exact .inl h
      · exact .inr (Except.ok.inj h)
      · cases h
    · rename_i hlt
      rcases hcheck with h | h | ⟨r, f, h⟩
      · omega
      · cases h
      · cases h
  obtain ⟨hle, hterm⟩ := hprev
  refine ⟨hle, ?_⟩
  rcases ha.shape with hf | ⟨-, hpos, hzero⟩
  · have htake : (a.log i).take req.prevLogIndex = (a.canon req.term).take req.prevLogIndex := by
      rcases hterm with h0 | hterm
      · rw [h0, List.take_zero, List.take_zero]
      · exact hlog.coherent.take_eq_of_termAt (hgood.1.canon_good _).coherent hle hf.le
          (hterm.trans hf.term)
    have hlen : ((a.canon req.term).take req.prevLogIndex ++
        req.entries.map protoEntryToLogEntry).length = last := by
      have := hf.le
      rw [List.length_append, List.length_take, List.length_map, ha.last]
      omega
    rw [htake, ← hlen]
    exact ⟨hf.entries.length_le, List.prefix_iff_eq_take.mp hf.entries⟩
  · -- no entry has term zero
    exfalso
    obtain ⟨k, hk⟩ : ∃ k, req.prevLogIndex = k + 1 := ⟨req.prevLogIndex - 1, by omega⟩
    rcases hterm with h0 | hterm
    · omega
    · rw [hzero, hk, TermLog.termAt_succ (by omega)] at hterm
      have howned := hlog.owned _ (List.getElem_mem (by omega : k < (a.log i).length))
      obtain ⟨c, hc⟩ := Option.ne_none_iff_exists'.mp howned
      have hstamp := hgood.1.owner_pos _ c hc
      have hzero' : (clusterRules cc p).stamp (a.log i)[k] = 0 := hterm
      omega

/-- The follower holds what the request ends with, and has said so. -/
structure Holding (a : Ghost) (p : Prop) (i : NodeId) (last : ℕ) (req : AppendEntriesRequest)
    (s : MemStorage) : Prop where
  acked : a.acked i req.term last
  held : (a.canon req.term).take last <+: a.log i
  bound : p → min req.leaderCommit s.lastIndex ≤ last

/-- The strict rule for cutting a log. -/
theorem keeps_of_keepsAgreeing {s : MemStorage} (hpl : s.Plain) {req : AppendEntriesRequest}
    {l : List LogEntry} (hle : req.prevLogIndex ≤ s.entries.length)
    (hl : s.entries.take req.prevLogIndex ++ req.entries.map protoEntryToLogEntry = l)
    (hkeep : req.entries.map protoEntryToLogEntry <+: heldSuffix s req →
      (heldSuffix s req).length ≤ req.entries.length) :
    s.entries.length ≤ l.length ∨ ¬ l <+: s.entries := by
  by_cases hp : l <+: s.entries
  · left
    have hheld : heldSuffix s req = s.entries.drop req.prevLogIndex := by
      rw [heldSuffix, hpl.firstIndex, Nat.add_sub_cancel]
    have hsuffix : req.entries.map protoEntryToLogEntry <+: s.entries.drop req.prevLogIndex := by
      rw [← hl] at hp
      conv_rhs at hp => rw [← List.take_append_drop req.prevLogIndex s.entries]
      exact (List.prefix_append_right_inj _).mp hp
    rw [hheld] at hkeep
    have hlen := hkeep hsuffix
    rw [List.length_drop] at hlen
    rw [← hl, List.length_append, List.length_take, List.length_map]
    omega
  · exact .inr hp

/-- The acknowledgement of what is held. -/
theorem Replica.acknowledge {n : RaftNodeInner MemStorage} (hr : Replica cc p a i H n)
    (hgood : GoodGhost cc p a) {src : NodeId} {last : ℕ} {req : AppendEntriesRequest}
    (ha : AppendOk cc p a src i last req) (hterm : n.sm.currentTerm = req.term)
    (hlast : last ≤ (a.canon req.term).length)
    (hheld : (a.canon req.term).take last <+: a.log i)
    (hbound : p → min req.leaderCommit n.storage.lastIndex ≤ last) :
    Step (clusterRules cc p) i a (a.ack i last) ∧ Holding (a.ack i last) p i last req n.storage ∧
      AppendOk cc p (a.ack i last) src i last req ∧ Replica cc p (a.ack i last) i H n := by
  have hT : req.term = a.term i := by rw [← hterm]; exact hr.memory.term
  have hstep : Step (clusterRules cc p) i a (a.ack i last) := by
    refine .ack a last ?_ (by rw [← hT]; exact hlast) (by rw [← hT]; exact hheld)
    rw [← hT, ha.owner]
    exact Option.some_ne_none src
  have hg := hstep.grows hgood.1
  refine ⟨hstep, ⟨.inr ⟨rfl, hT, Nat.le_refl _⟩, hheld, hbound⟩, ha.grows hg, ?_, ?_⟩
  · exact hr.disk.grows hg rfl rfl (fun _ ho => ho)
      fun hp => hgood.settled hstep hp (hr.disk.commit hp)
  · exact hr.memory.grows hg rfl (fun _ ho => ho)
      fun hp => hgood.settled hstep hp (hr.memory.commit hp)

/-- The indices of a batch that continues the log of the owner. -/
theorem head_index_of_append {l l' : List LogEntry} {e : LogEntry} {es : List LogEntry}
    (hgood : Good (clusterRules cc p) a l') (hpre : l ++ e :: es <+: l') :
    e.index = l.length + 1 := by
  have hlt : l.length < (l ++ e :: es).length := by simp
  have hfits := hgood.fits l.length (Nat.lt_of_lt_of_le hlt hpre.length_le)
  rw [← hpre.getElem hlt, List.getElem_append_right (Nat.le_refl _)] at hfits
  simpa [clusterRules] using hfits

/-- A batch that the check lets through makes the log a prefix of the log of the owner. -/
theorem Replica.accept {n : RaftNodeInner MemStorage} (hr : Replica cc p a i H n)
    (hgood : GoodGhost cc p a) {src : NodeId} {last : ℕ} {req : AppendEntriesRequest}
    (ha : AppendOk cc p a src i last req) (hterm : n.sm.currentTerm = req.term)
    (hcheck : NodeTurn.PrevOk n.storage req) (hne : req.entries ≠ [])
    (hkeep : p → req.entries.map protoEntryToLogEntry <+: heldSuffix n.storage req →
      (heldSuffix n.storage req).length ≤ req.entries.length) :
    Step (clusterRules cc p) i a (a.accept i last) ∧
      Replica cc p (a.accept i last) i (H ++ [.wrote]) { n with
        storage := n.storage.appendEntries (req.entries.map protoEntryToLogEntry) } := by
  have hT : req.term = a.term i := by rw [← hterm]; exact hr.memory.term
  have hpl := hr.disk.plain hgood
  obtain ⟨hle, hlast, heq⟩ := hr.continues hgood ha hcheck
  have hstep : Step (clusterRules cc p) i a (a.accept i last) := by
    refine .accept a last ?_ ?_ (by rw [← hT]; exact hlast) ?_
    · rw [← hT, ha.owner]
      exact Option.some_ne_none src
    · rw [← hT, ha.owner]
      intro hsrc
      exact ha.peer (Option.some.inj hsrc).symm
    · intro hp
      have hkeeps := keeps_of_keepsAgreeing hpl (l := (a.canon req.term).take last)
        (by rw [hr.disk.entries]; exact hle) (by rw [hr.disk.entries]; exact heq) (hkeep hp)
      rw [hr.disk.entries, List.length_take, Nat.min_eq_left hlast] at hkeeps
      rw [← hT]
      exact hkeeps
  -- the batch is written behind the previous entry
  have hwritten : (n.storage.appendEntries (req.entries.map protoEntryToLogEntry)).entries =
      (a.canon req.term).take last := by
    cases hes : req.entries.map protoEntryToLogEntry with
    | nil => exact absurd (List.map_eq_nil_iff.mp hes) hne
    | cons e es =>
      rw [hes] at heq
      have hidx : e.index = req.prevLogIndex + 1 := by
        have hpre : (a.log i).take req.prevLogIndex ++ e :: es <+: a.canon req.term := by
          rw [heq]
          exact List.take_prefix _ _
        have := head_index_of_append (hgood.1.canon_good _) hpre
        rw [List.length_take, Nat.min_eq_left hle] at this
        exact this
      have hlen : n.storage.entries.length = (a.log i).length := by rw [hr.disk.entries]
      rw [hpl.aligned.entries_append (by rw [hpl.firstIndex]; omega)
        (by rw [hpl.lastIndex]; omega), hpl.firstIndex, hidx, Nat.add_sub_cancel,
        hr.disk.entries, heq]
  refine ⟨hstep, hr.rewrite hgood hstep rfl (fun _ ho => ho) ?_⟩
  rw [hwritten, hT]
  simp [State.accept]

/-- A batch that the check lets through is held and acknowledged afterwards. -/
theorem RepFollows.appendBatch {src : NodeId} {last : ℕ} {req : AppendEntriesRequest}
    (hx : RepFollows cc p a₀ i h asker n₀ (fun a H n => AppendOk cc p a src i last req ∧
      Replica cc p a i H n) x) (hterm : x.sm.currentTerm = req.term)
    (hcheck : NodeTurn.PrevOk x.node.storage req)
    (hkeep : p → req.entries ≠ [] →
      req.entries.map protoEntryToLogEntry <+: heldSuffix x.node.storage req →
        (heldSuffix x.node.storage req).length ≤ req.entries.length) :
    ∃ y, x.appendBatch req = (.ok (), y) ∧ y.sm = x.sm ∧
      RepFollows cc p a₀ i h asker n₀ (fun a H n => Holding a p i last req n.storage ∧
        AppendOk cc p a src i last req ∧ Replica cc p a i H n) y := by
  unfold NodeTurn.appendBatch
  split
  · rename_i hempty
    have hnil : req.entries = [] := List.isEmpty_iff.mp hempty
    refine ⟨x, rfl, rfl, ?_⟩
    apply Follows.move hx id
    intro a H hgood hq
    obtain ⟨ha, hr⟩ := hq
    obtain ⟨hle, hlast, heq⟩ := hr.continues hgood ha hcheck
    have hprev : last = req.prevLogIndex := by rw [ha.last, hnil]; rfl
    rw [hnil, List.map_nil, List.append_nil] at heq
    obtain ⟨hstep, hq'⟩ := hr.acknowledge hgood ha hterm hlast
      (by rw [← heq]; exact List.take_prefix _ _) fun hp => by
        have := ha.heartbeat hp hnil
        omega
    exact ⟨_, .single hstep, hq'⟩
  · rename_i hempty
    have hne : req.entries ≠ [] := fun hnil => hempty (List.isEmpty_iff.mpr hnil)
    refine ⟨_, rfl, rfl, ?_⟩
    have hstored : RepFollows cc p a₀ i h asker n₀
        (fun a H _ => AppendOk cc p a src i last req ∧ Replica cc p a i H x.node)
        (x.update fun n => { n with
          storage := n.storage.appendEntries (req.entries.map protoEntryToLogEntry) }) :=
      Follows.update hx _ fun _ _ _ hq => hq
    apply Follows.effect hstored .wrote
    intro a H _ hgood hq
    obtain ⟨ha, hr⟩ := hq
    obtain ⟨-, hlast, -⟩ := hr.continues hgood ha hcheck
    obtain ⟨hstep, hr'⟩ := hr.accept hgood ha hterm hcheck hne fun hp => hkeep hp hne
    have hT : req.term = a.term i := by rw [← hterm]; exact hr.memory.term
    have hgood' := hgood.step hstep
    have hlog : (a.accept i last).log i = (a.canon req.term).take last := by
      rw [hT]
      simp [State.accept]
    obtain ⟨hstep', hq'⟩ := hr'.acknowledge hgood' (ha.grows (hstep.grows hgood.1)) hterm hlast
      (by rw [hlog]; exact List.prefix_refl _) fun _ => by
        have hlen := (hr'.disk.plain hgood').lastIndex
        rw [hr'.disk.entries, hlog, List.length_take] at hlen
        dsimp only at hlen ⊢
        omega
    exact ⟨_, .tail (.single hstep) hstep', hq'.2.2.disk, (fun _ h => by cases h), hq'⟩

/-- What the leader has committed is settled as far as the follower holds it. -/
theorem Holding.settled {s : MemStorage} {src : NodeId} {last : ℕ} {req : AppendEntriesRequest}
    (hh : Holding a p i last req s) (hgood : GoodGhost cc p a)
    (ha : AppendOk cc p a src i last req) (hT : req.term = a.term i) (hp : p) :
    Settled (clusterRules cc p) a i (min req.leaderCommit s.lastIndex) := by
  have howner : a.owner req.term ≠ none := by
    rw [ha.owner]
    exact Option.some_ne_none src
  rcases ha.commit hp with hzero | ⟨T, n, hcom, hle, hn⟩
  · left
    rw [hzero, Nat.zero_min]
  · right
    have hbound := hh.bound hp
    have hlen := hcom.le
    have hcanon := hcom.isPrefix_canon hgood.1 (hgood.2 hp) hle howner
    refine ⟨T, n, hcom, hT ▸ hle, by omega, ?_⟩
    have htake : (a.canon T).take (min req.leaderCommit s.lastIndex) =
        (a.canon req.term).take (min req.leaderCommit s.lastIndex) := by
      have := TermLog.take_eq_of_isPrefix (n := min req.leaderCommit s.lastIndex) hcanon
        (by rw [List.length_take]; omega)
      rw [List.take_take, Nat.min_eq_left (by omega)] at this
      exact this
    rw [htake]
    exact (TermLog.take_prefix_of_le hbound _).trans hh.held

/-- A follower commits what the leader has, as far as it has acknowledged it. -/
theorem RepFollows.advanceCommit {src : NodeId} {last : ℕ} {req : AppendEntriesRequest}
    (hx : RepFollows cc p a₀ i h asker n₀ (fun a H n => Holding a p i last req n.storage ∧
      AppendOk cc p a src i last req ∧ Replica cc p a i H n) x)
    (hterm : x.sm.currentTerm = req.term) :
    RepFollows cc p a₀ i h asker n₀ (fun a H n => a.acked i req.term last ∧
      Replica cc p a i H n) (x.advanceCommit req) := by
  unfold NodeTurn.advanceCommit
  split
  · rw [NodeTurn.lastIndexOr0_eq]
    apply hx.saveSmAnd
    intro a H hgood hq
    obtain ⟨hh, ha, hr⟩ := hq
    have hT : req.term = a.term i := by rw [← hterm]; exact hr.memory.term
    refine ⟨a, .refl, hh.acked, ?_, ?_⟩
    · exact hr.disk.resave (Grows.refl a) rfl (fun _ ho => ho) hr.memory.term
        (hh.settled hgood ha hT)
    · exact hr.memory.congr ⟨rfl, rfl, rfl, rfl⟩ rfl (hh.settled hgood ha hT)
  · exact Follows.mono hx fun _ _ _ hq => ⟨hq.1.acked, hq.2.2⟩

/-- A ping moves nothing of the abstract state. -/
theorem RepFollows.ping (hx : RepFollows cc p a₀ i h none n₀ (Rep cc p i) x) :
    RepFollows cc p a₀ i h none n₀ (Rep cc p i)
      (x.handleAppendEntries RaftClusterClient.pingRequest) := by
  have hunasked {y : NodeTurn MemStorage} (r : RpcReply)
      (hy : RepFollows cc p a₀ i h none n₀ (Rep cc p i) y) :
      RepFollows cc p a₀ i h none n₀ (Rep cc p i) (y.effect (.replied r)) :=
    RepFollows.plain hy (fun _ h => by cases h) fun _ _ _ _ _ hp => by cases hp
  obtain ⟨resp, hrun | ⟨-, hrun⟩⟩ := RaftClusterClient.handleAppendEntries_ping x
  · rw [hrun]
    exact hunasked _ hx
  · rw [hrun]
    have hnamed : RepFollows cc p a₀ i h none n₀ (Rep cc p i)
        (x.modifySm fun sm => { sm with leaderId := some 0 }) :=
      Follows.modifySm hx fun _ _ _ hq =>
        ⟨hq.disk, hq.memory.congr ⟨rfl, rfl, rfl, rfl⟩ rfl hq.memory.commit⟩
    exact hunasked _ (Follows.modifyMetrics hnamed fun _ _ _ hq => ⟨hq.disk, hq.memory⟩)

/-- A batch is a piece of the owner's log, and its success an acknowledgement. -/
theorem RepFollows.handleAppendEntries (hg : GoodGhost cc p a₀)
    (hr : Replica cc p a₀ i h n₀) {req : AppendEntriesRequest}
    (hcause : Cause (PacketOk cc p a₀) i asker (.appendEntries req))
    (hkeep : p → Accepts n₀ req = true → req.entries ≠ [] →
      req.entries.map protoEntryToLogEntry <+: heldSuffix n₀.storage req →
        (heldSuffix n₀.storage req).length ≤ req.entries.length) :
    RepFollows cc p a₀ i h asker n₀ (Rep cc p i)
      (NodeTurn.handleAppendEntries req (Turn.start n₀)) := by
  have hstart : RepFollows cc p a₀ i h asker n₀ (Rep cc p i) (Turn.start n₀) :=
    Follows.start hg hr.disk hr
  obtain ⟨rfl, rfl⟩ | ⟨src, waiting, last, hpacket, hasker⟩ := hcause.appendEntries
  · exact hstart.ping
  have hdesc := Follows.carry (E := fun a => AppendOk cc p a src i last req)
    (hstart.descend req.term (some req.leaderId)) hg (hpacket.append src waiting i last req rfl)
    fun a b hs hga ha => ha.grows (hs.grows hga.1)
  obtain ⟨hentries, hsnapshot⟩ :=
    NodeTurn.descend_log req.term (some req.leaderId) (Turn.start n₀)
  have hge := NodeTurn.le_descend req.term (some req.leaderId) (Turn.start n₀)
  have haccepts := @NodeTurn.accepts_of_prevOk n₀ req
  unfold NodeTurn.handleAppendEntries NodeTurn.onAppendEntries
  dsimp only
  rw [← NodeTurn.descend]
  generalize NodeTurn.descend req.term (some req.leaderId) (Turn.start n₀) = y at *
  have hrefuse {z : NodeTurn MemStorage} (c t term : ℕ)
      (hz : RepFollows cc p a₀ i h asker n₀
        (fun a H n => AppendOk cc p a src i last req ∧ Replica cc p a i H n) z) :
      RepFollows cc p a₀ i h asker n₀ (Rep cc p i)
        (z.effect (.replied (.appendEntries req (.ok (NodeTurn.reject c t term))))) :=
    RepFollows.plain (Follows.mono hz fun _ _ _ hq => hq.2) (fun _ h => by cases h)
      fun a H _ _ => effect_appendReply hasker fun h => by cases h
  split
  · exact hrefuse _ _ _ hdesc
  · rename_i hle
    have hterm : y.sm.currentTerm = req.term := Nat.le_antisymm (Nat.le_of_not_lt hle) hge
    have hz : RepFollows cc p a₀ i h asker n₀
        (fun a H n => AppendOk cc p a src i last req ∧ Replica cc p a i H n)
        (y.modifySm fun sm => { sm with leaderId := some req.leaderId }) :=
      Follows.modifySm hdesc fun a H _ hq => ⟨hq.1, hq.2.disk,
        hq.2.memory.congr ⟨rfl, rfl, rfl, rfl⟩ rfl hq.2.memory.commit⟩
    generalize hzy : (y.modifySm fun sm => { sm with leaderId := some req.leaderId }) = z at hz ⊢
    have hzterm : z.sm.currentTerm = req.term := by rw [← hzy]; exact hterm
    have hzstorage : z.node.storage = y.node.storage := by rw [← hzy]; rfl
    obtain ⟨heq, hcheck⟩ | ⟨c, t, heq⟩ := NodeTurn.checkPrevLog_cases req z
    · rw [heq]
      dsimp only
      have hstorage := MemStorage.eq_of_log (s := n₀.storage) hentries hsnapshot
      have hcheck' : NodeTurn.PrevOk n₀.storage req := by
        rw [hzstorage, hstorage] at hcheck
        exact hcheck
      obtain ⟨w, hw, hwsm, hfollow⟩ := hz.appendBatch hzterm hcheck fun hp hne => by
        rw [hzstorage, hstorage]
        exact hkeep hp (haccepts hle hcheck') hne
      rw [hw]
      dsimp only
      have hcommit := hfollow.advanceCommit (hwsm ▸ hzterm)
      have hcounted := hcommit.count fun m =>
        { m with appendEntriesReceived := m.appendEntriesReceived + 1 }
      apply Follows.effect hcounted _
      intro a H _ hgood hq
      obtain ⟨hacked, hr⟩ := hq
      have hother : ∀ e', Effect.replied (.appendEntries req (.ok
          ⟨(w.advanceCommit req).sm.currentTerm, true, 0, 0⟩)) ≠ .applied e' :=
        fun _ h => by cases h
      refine ⟨a, .refl, hr.disk.append hother, effect_appendReply hasker fun _ => ?_,
        hr.append hother⟩
      have hreply : (w.advanceCommit req).sm.currentTerm = req.term := by
        rw [← hzterm, ← hwsm]
        unfold NodeTurn.advanceCommit
        split
        · rfl
        · rfl
      rw [← hreply] at hacked
      exact hacked
    · rw [heq]
      exact hrefuse _ _ _ hz

end IceRaft
