import IceRaft.Analysis.Chronicle
import IceRaft.Analysis.ElectionSafety
import IceRaft.Analysis.VoteDurability

/-!
# Elections across crashes

Votes count once they are shown: in a granted reply, or in a candidate's own requests.  Behind
every leadership there is a quorum of shown votes, and stays when the leader or its voters
crash.  A vote is saved before it is shown, so over a storage that keeps the hard state a node
shows one vote a term, in whichever uptime.
-/

set_option autoImplicit false

namespace IceRaft

open Cluster

variable {cc : ClusterConfig} {fault : RaftError → Prop} {w : Record} {i j v c : NodeId}
  {term : ℕ} {m m' : Volatile} {es : List Effect}

/-! ## Shown votes -/

/-- Node `v` has shown its vote for `c` in `term`. -/
def Record.Voted (w : Record) (v : NodeId) (term : ℕ) (c : NodeId) : Prop :=
  ∃ e, w v e ∧ e.vote? = some (term, c)

/-- A quorum has shown votes for `i` in `term`, or there is nobody else. -/
def Record.Won (cc : ClusterConfig) (w : Record) (i : NodeId) (term : ℕ) : Prop :=
  cc.members ⊆ {i} ∨
    ∃ Q ⊆ cc.members, (cc.config i).quorum ≤ Q.card ∧ ∀ v ∈ Q, w.Voted v term i

/-- A vote on record stays there. -/
theorem Record.Voted.add (h : w.Voted v term c) : (w.add i es).Voted v term c := by
  obtain ⟨e, he, hvote⟩ := h
  exact ⟨e, Record.le_add he, hvote⟩

/-- So does a quorum of votes. -/
theorem Record.Won.add (h : w.Won cc j term) : (w.add i es).Won cc j term := by
  refine h.imp_right ?_
  rintro ⟨Q, hQ, hcard, hvotes⟩
  exact ⟨Q, hQ, hcard, fun v hv => (hvotes v hv).add⟩

/-- What is known of the votes of node `i`: a candidate has counted votes that were shown, and
then its own was shown, too. -/
structure Balloted (cc : ClusterConfig) (w : Record) (i : NodeId) (m : Volatile) : Prop where
  received : m.sm.role = .candidate → m.sm.votesReceived ⊆ cc.members ∧
    ∀ v ∈ m.sm.votesReceived, v ≠ i →
      w.Voted v m.sm.currentTerm i ∧ w.Voted i m.sm.currentTerm i
  led : ∀ term, w i (.becameLeader term) → w.Won cc i term

/-- What is known of a packet: who asks for a vote has shown its own, and who grants one has
shown it. -/
structure Ballot (cc : ClusterConfig) (w : Record) (p : Packet) : Prop where
  request : ∀ src waiting peer req, p = .request src waiting (.requestVote peer req) →
    src ∈ cc.members ∧ req.candidateId = src ∧ w.Voted src req.term src
  response : ∀ dst peer resp, p = .response dst (.voteResponse peer resp) →
    resp.voteGranted = true →
      peer ∈ cc.members ∧ w.Voted peer resp.term dst ∧ w.Voted dst resp.term dst

/-- A packet stays true as the record grows. -/
theorem Ballot.add {p : Packet} (h : Ballot cc w p) : Ballot cc (w.add i es) p where
  request src waiting peer req heq := by
    obtain ⟨hsrc, hid, hvote⟩ := h.request src waiting peer req heq
    exact ⟨hsrc, hid, hvote.add⟩
  response dst peer resp heq hgranted := by
    obtain ⟨hpeer, hvote, hown⟩ := h.response dst peer resp heq hgranted
    exact ⟨hpeer, hvote.add, hown.add⟩

/-- A packet that is about no vote. -/
theorem Ballot.of_aside {asker : Option (NodeId × RpcTask)} {e : Effect} (he : e.aside)
    {p : Packet} (hp : e.packet i asker = some p) : Ballot cc w p where
  request _ _ _ _ heq := absurd heq ((he.packet_ne hp).1 _ _ _ _)
  response _ _ _ heq := absurd heq ((he.packet_ne hp).2 _ _ _)

/-! ## The moves of a node -/

/-- What an effect of `i` shows. -/
theorem Record.voted_add {e : Effect} (h : e.vote? = some (term, c)) :
    (w.add i [e]).Voted i term c :=
  ⟨e, Record.add_self.mpr (.inr (List.mem_singleton_self e)), h⟩

/-- A move that makes no candidate and announces no leadership. -/
theorem Balloted.keep (h : Balloted cc w i m) {o : Option Effect}
    (ho : ∀ term, o ≠ some (.becameLeader term))
    (hsame : m'.sm.role = .candidate → m.sm.role = .candidate ∧
      m'.sm.currentTerm = m.sm.currentTerm ∧ m'.sm.votesReceived = m.sm.votesReceived) :
    Balloted cc (w.add i o.toList) i m' where
  received hrole := by
    obtain ⟨hcand, hterm, hvotes⟩ := hsame hrole
    obtain ⟨hsub, hreceived⟩ := h.received hcand
    rw [hterm, hvotes]
    exact ⟨hsub, fun v hv hne => ⟨(hreceived v hv hne).1.add, (hreceived v hv hne).2.add⟩⟩
  led term hled := by
    rcases Record.add_self.mp hled with hold | hnew
    · exact (h.led term hold).add
    · exact absurd (Option.mem_toList.mp hnew) (ho term)

/-- A candidate with enough votes has won. -/
theorem Balloted.won (h : Balloted cc w i m) (hi : i ∈ cc.members)
    (hrole : m.sm.role = .candidate) (hquorum : (cc.config i).quorum ≤ m.sm.votesReceived.card) :
    w.Won cc i m.sm.currentTerm := by
  obtain ⟨hsub, hreceived⟩ := h.received hrole
  by_cases hother : ∃ v ∈ m.sm.votesReceived, v ≠ i
  · obtain ⟨u, hu, hne⟩ := hother
    refine .inr ⟨m.sm.votesReceived, hsub, hquorum, fun v hv => ?_⟩
    by_cases hvi : v = i
    · rw [hvi]
      exact (hreceived u hu hne).2
    · exact (hreceived v hv hvi).1
  · -- its own vote is a quorum only where it is alone
    push Not at hother
    have hown : m.sm.votesReceived ⊆ {i} := fun v hv => Finset.mem_singleton.mpr (hother v hv)
    have hone : m.sm.votesReceived.card ≤ 1 := Finset.card_le_card hown
    have hhalf := (cc.config i).card_members_lt
    rw [cc.config_members i hi] at hhalf
    have hcard : cc.members.card ≤ 1 := by omega
    exact .inl fun v hv => Finset.mem_singleton.mpr (Finset.card_le_one.mp hcard v hv i hi)

/-- What a granted vote, counted in its own term, adds. -/
theorem Balloted.count (h : Balloted cc w i m) {peer : NodeId} {resp : RequestVoteResponse}
    (hp : Ballot cc w (.response i (.voteResponse peer resp)))
    (hgranted : resp.voteGranted = true) (hterm : resp.term = m.sm.currentTerm) :
    Balloted cc w i { m with
      sm := { m.sm with votesReceived := insert peer m.sm.votesReceived } } where
  received hrole := by
    obtain ⟨hpeer, hvote, hown⟩ := hp.response i peer resp rfl hgranted
    rw [hterm] at hvote hown
    obtain ⟨hsub, hreceived⟩ := h.received hrole
    refine ⟨Finset.insert_subset hpeer hsub, ?_⟩
    intro v hv hne
    rcases Finset.mem_insert.mp hv with rfl | hv
    · exact ⟨hvote, hown⟩
    · exact hreceived v hv hne
  led := h.led

/-- A vote response counts in the term it is of. -/
def CountsCurrent (m : Volatile) (input : Input) : Prop :=
  ∀ peer resp, input = .message (.voteResponse peer resp) → resp.voteGranted = true →
    m.sm.role = .candidate → m.sm.currentTerm ≤ resp.term

/-- A turn that may count its vote may do so wherever it stands. -/
theorem CountsCurrent.act {cfg : RaftConfig} {input : Input} {o : Option Effect}
    (h : CountsCurrent m input) (hact : Act fault cfg input m o m') : CountsCurrent m' input := by
  intro peer resp hinput hgranted hrole
  cases hact with
  | stepDown hterm hlt => cases hrole
  | lead last hcand hquorum => cases hrole
  | stand htimer hnot =>
    rw [hinput] at htimer
    cases htimer
  | report hreport hlead =>
    rw [hinput] at hreport
    cases hreport
  | _ => exact h peer resp hinput hgranted hrole

/-- **Step lemma** for the memory. -/
theorem Balloted.act {asker : Option (NodeId × RpcTask)} {input : Input} {o : Option Effect}
    (hi : i ∈ cc.members) (hcause : Cause (Ballot cc w) i asker input)
    (hcount : CountsCurrent m input) (hact : Act fault (cc.config i) input m o m')
    (h : Balloted cc w i m) : Balloted cc (w.add i o.toList) i m' := by
  cases hact with
  | emit hshown =>
    refine h.keep ?_ fun hrole => ⟨hrole, rfl, rfl⟩
    rintro term heq
    cases heq
    cases hshown
  | stepDown hterm hlt => exact h.keep nofun nofun
  | stand htimer hnot =>
    rw [Option.toList_none, Record.add_nil]
    refine ⟨fun _ => ?_, h.led⟩
    have hid : (cc.config i).id = i := cc.config_id i hi
    have hvotes : (m.sm.becomeCandidate (cc.config i).id).votesReceived = {i} := by
      rw [hid]
      rfl
    change (m.sm.becomeCandidate (cc.config i).id).votesReceived ⊆ _ ∧
      ∀ v ∈ (m.sm.becomeCandidate (cc.config i).id).votesReceived, _
    rw [hvotes]
    refine ⟨Finset.singleton_subset_iff.mpr hi, fun v hv hne => ?_⟩
    exact absurd (Finset.mem_singleton.mp hv) hne
  | count hinput hgranted hterm hrole =>
    rw [Option.toList_none, Record.add_nil]
    subst hinput
    have hle := hcount _ _ rfl hgranted hrole
    exact h.count hcause.voteResponse hgranted (Nat.le_antisymm hterm hle)
  | lead last hrole hquorum =>
    refine ⟨nofun, fun term hled => ?_⟩
    rcases Record.add_self.mp hled with hold | hnew
    · exact (h.led term hold).add
    · cases List.mem_singleton.mp hnew
      exact (h.won hi hrole hquorum).add
  | @report peer f hreport hlead =>
    refine h.keep nofun fun hrole => ?_
    obtain ⟨progress, hsm⟩ := NodeTurn.updateProgress_eq peer f m.sm
    dsimp only at hrole
    rw [hsm] at hrole
    cases hlead.symm.trans hrole
  | _ => exact h.keep nofun fun hrole => ⟨hrole, rfl, rfl⟩

/-- **Step lemma** for the packets: a request and a granted vote come with the effect that
shows them. -/
theorem Shown.ballot {asker : Option (NodeId × RpcTask)} {input : Input} {e : Effect} {p : Packet}
    (hi : i ∈ cc.members) (hcause : Cause (Ballot cc w) i asker input)
    (h : Shown fault (cc.config i) input m e) (hp : e.packet i asker = some p) :
    Ballot cc (w.add i [e]) p := by
  cases h with
  | @ask peer req hpeer hrole hterm hid =>
    rw [cc.config_id i hi] at hid
    cases hp
    refine ⟨?_, nofun⟩
    intro src waiting peer' req' heq
    cases heq
    exact ⟨hi, hid, Record.voted_add (congrArg (fun c => some (req.term, c)) hid)⟩
  | @vote req resp hinput hterm hvote =>
    subst hinput
    obtain ⟨src, waiting, hreq, hasker⟩ := hcause.requestVote
    cases asker with
    | none => cases hp
    | some q =>
      obtain rfl := hasker q rfl
      cases hp
      refine ⟨nofun, ?_⟩
      intro dst peer' resp' heq hgranted
      cases heq
      obtain ⟨hsrc, hid, hown⟩ := hreq.request src waiting i req rfl
      obtain ⟨hreqterm, -⟩ := hvote hgranted
      refine ⟨hi, Record.voted_add ?_, ?_⟩
      · rw [← hid]
        exact if_pos hgranted
      · rw [hterm, ← hreqterm]
        exact hown.add
  | send => exact .of_aside (e := .spawned (.appendEntries _ _ _)) trivial hp
  | ship => exact .of_aside (e := .spawned (.installSnapshot _ _ _)) trivial hp
  | @acknowledge req result =>
    exact .of_aside (e := .replied (.appendEntries req result)) trivial hp
  | @receipt req result =>
    exact .of_aside (e := .replied (.installSnapshot req result)) trivial hp
  | _ => cases hp

/-! ## A run -/

/-- What is known of votes in a cluster. -/
def ballotChronicle (cc : ClusterConfig) (fault : RaftError → Prop) : Chronicle cc fault where
  node := Balloted cc
  packet := Ballot cc
  allows _ := CountsCurrent
  allows_act := CountsCurrent.act
  node_add := by
    intro w i j es m hj h
    refine ⟨fun hrole => ?_, fun term hled => ?_⟩
    · obtain ⟨hsub, hreceived⟩ := h.received hrole
      exact ⟨hsub, fun v hv hne => ⟨(hreceived v hv hne).1.add, (hreceived v hv hne).2.add⟩⟩
    · rw [Record.add_of_ne hj] at hled
      exact (h.led term hled).add
  packet_add := Ballot.add
  packet_orphan h :=
    ⟨fun src waiting peer req heq => by cases heq; exact h.request _ true peer req rfl, nofun⟩
  start _ _ _ _ := ⟨nofun, fun _ hled => hled.elim⟩
  crash h _ _ _ := ⟨nofun, h.led⟩
  act hi hcause hcount hact h := by
    refine ⟨h.act hi hcause hcount hact, ?_⟩
    rintro e rfl p hp
    cases hact with
    | emit hshown => exact hshown.ballot hi hcause hp
    | lead last hrole hquorum => cases hp
    | accept hinput hrole hterm => cases hp
    | apply entry hinput hrole => cases hp

variable {σ : Type} [Storage σ] [DurableHardState σ]

/-- The votes of a cluster: what was shown, and what each node remembers of its own. -/
structure VotesHold (cc : ClusterConfig) (w : Record) (c : Cluster σ) : Prop where
  shown : (ballotChronicle cc (StorageFault σ)).Holds c w
  kept : Simulation.Holds cc (voteKeeping σ) c ()

/-- At the start no vote is on record. -/
theorem votesHold_init (stores : NodeId → σ) :
    VotesHold cc (fun _ _ => False) (init stores) := by
  refine ⟨Chronicle.holds_init stores, trivial, fun i _ => ?_, fun p hp => by cases hp⟩
  have hdisk : VotePersisted [] (stores i) := ⟨nofun, nofun⟩
  exact hdisk.boot

/-- The node a request for a vote comes from is a member. -/
theorem VotesHold.candidate {d : Cluster σ} (h : VotesHold cc w d) {e : Action}
    {req : RequestVoteRequest} (hin : d.input? cc e = some (i, .requestVote req)) :
    req.candidateId ∈ cc.members := by
  obtain ⟨-, hcause⟩ := Simulation.cause_of_input h.shown.simulated hin
  obtain ⟨src, waiting, hpacket, -⟩ := hcause.requestVote
  obtain ⟨hsrc, hid, -⟩ := Ballot.request hpacket src waiting i req rfl
  rw [hid]
  exact hsrc

/-- **Step lemma** of the run. -/
theorem VotesHold.step {d : Cluster σ} (hids : ∀ i ∈ cc.members, i ≠ 0) (h : VotesHold cc w d)
    {e : Event} (hvotes : d.Meets cc VotesCurrent e) : ∃ w', VotesHold cc w' (d.step cc e) := by
  have hallow : (ballotChronicle cc (StorageFault σ)).Allowed d e := by
    intro i input hin peer resp hinput
    have hcurrent := hvotes.of_input hin
    rw [hinput] at hcurrent
    exact hcurrent
  have hone : Runs.Within (Cluster.step cc) (ballotChronicle cc (StorageFault σ)).Allowed d [e] :=
    ⟨hallow, trivial⟩
  obtain ⟨w', -, hshown⟩ := Chronicle.holds_run h.shown hone
  have hsim : ∀ i ∈ cc.members, Simulation (voteKeeping σ) (cc.config i) i := by
    intro i hi
    apply keep_simulation
    rw [cc.config_id i hi]
    exact hids i hi
  have hcond : ∀ i input, d.input? cc e.action = some (i, input) →
      ∀ req, input = .requestVote req → req.candidateId ≠ 0 := by
    rintro i _ hin req rfl
    exact hids _ (h.candidate hin)
  obtain ⟨_, -, hkept⟩ := Simulation.holds_step hsim h.kept hcond fun _ _ _ _ _ => trivial
  exact ⟨w', hshown, hkept⟩

/-- In a run whose votes are counted in their terms there is a record of the votes. -/
theorem votesHold_run (hids : ∀ i ∈ cc.members, i ≠ 0) {stores : NodeId → σ} {es : List Event}
    (h : Within cc VotesCurrent (init stores) es) :
    ∃ w, VotesHold cc w (exec cc (init stores) es) := by
  refine Runs.invariant (fun d => ∃ w, VotesHold cc w d) ?_ ⟨_, votesHold_init stores⟩ h
  rintro d e ⟨w, hw⟩ hvotes
  exact hw.step hids hvotes

/-- A member has shown one vote a term, in all its uptimes. -/
theorem VotesHold.once {d : Cluster σ} (h : VotesHold cc w d) (hv : v ∈ cc.members)
    (hi : w.Voted v term i) (hj : w.Voted v term j) : i = j := by
  obtain ⟨e, he, hvote⟩ := hi
  obtain ⟨e', he', hvote'⟩ := hj
  have hmem : (term, i) ∈ votesCast (d.proc v).history :=
    List.mem_filterMap.mpr ⟨e, (h.shown.shown v hv).1 e he, hvote⟩
  have hmem' : (term, j) ∈ votesCast (d.proc v).history :=
    List.mem_filterMap.mpr ⟨e', (h.shown.shown v hv).1 e' he', hvote'⟩
  exact (h.kept.node v hv).known.once _ hmem _ hmem' rfl

/-- Who has led a term has won it. -/
theorem VotesHold.won {d : Cluster σ} (h : VotesHold cc w d) (hi : i ∈ cc.members)
    (hled : term ∈ leaderships (d.proc i).history) : w.Won cc i term := by
  rcases (h.shown.shown i hi).2 _ (mem_leaderships.mp hled) with hshown | ⟨commit, hmark⟩
  · exact (h.shown.node i hi).led term hshown
  · cases hmark

/-- **Election safety across crashes.**  Over any storage that keeps the hard state, with ids
that are not `0`, and as long as no candidate counts a vote that was granted to an earlier
candidacy, no two nodes have been leader in the same term, now or earlier, wherever they and
their voters crashed in between, where a restarted process restores its hard state before any
handler runs.
SRCLINE: iceraft-node/src/node.rs:195-207, 370-416, 507-558, 673-695, 822-832 -/
theorem election_safety_across_crashes (cc : ClusterConfig) (stores : NodeId → σ)
    (es : List Event) (hids : ∀ i ∈ cc.members, i ≠ 0)
    (h : Within cc VotesCurrent (init stores) es) :
    (exec cc (init stores) es).UniqueLeaders cc := by
  obtain ⟨w, hw⟩ := votesHold_run hids h
  intro i hi j hj term hled hled'
  rcases hw.won hi hled with halone | ⟨Q, hQ, hcard, hvotes⟩
  · exact (Finset.mem_singleton.mp (halone hj)).symm
  · rcases hw.won hj hled' with halone | ⟨Q', hQ', hcard', hvotes'⟩
    · exact Finset.mem_singleton.mp (halone hi)
    · obtain ⟨v, hv, hv'⟩ := cc.quorum_inter hi hj hQ hQ' hcard hcard'
      exact hw.once (hQ hv) (hvotes v hv) (hvotes' v hv')

/-- Node 2 votes for node 1 and crashes; when it is back, node 3 asks for its vote in the same
term. -/
def forgetfulRun : List Event :=
  [⟨.timer 1 true false, none⟩, ⟨.timer 3 true false, none⟩, ⟨.deliver 0, none⟩,
    ⟨.client 2 .term, some 0⟩, ⟨.deliver 2, none⟩, ⟨.deliver 2, none⟩, ⟨.deliver 2, none⟩]

/-- The vote that node 2 saved before its crash keeps node 3 from winning term 1. -/
theorem election_safety_across_crashes_forgetfulRun :
    leaderships ((exec trio (init fun _ => MemStorage.new) forgetfulRun).proc 1).history = [1] ∧
      ((exec trio (init fun _ => MemStorage.new) forgetfulRun).sm 3).role = .candidate ∧
      (exec trio (init fun _ => MemStorage.new) forgetfulRun).UniqueLeaders trio :=
  ⟨by decide +kernel, by decide +kernel,
    election_safety_across_crashes trio _ forgetfulRun (by decide) (by decide +kernel)⟩

end IceRaft
