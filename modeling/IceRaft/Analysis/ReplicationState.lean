import IceRaft.Analysis.MemLog
import IceRaft.Analysis.Simulation
import IceRaft.Interface.Conditions
import IceRaft.Lib.LeaderCompleteness

/-!
# The cluster as a replicated log

The abstract state of a cluster over `MemStorage` is a replicated log with one writer per
term.  A disk holds the log and the term of its node.  A packet with entries is a fragment
of what the owner of its term has written.  Under the strict rules a granted vote is a
promise, a successful append is an acknowledgement, and what a node believes committed is
settled.
-/

set_option autoImplicit false

namespace IceRaft

open ReplicatedLog Cluster

/-- The abstract state: terms, logs, owners, and the records of the past. -/
abbrev Ghost := ReplicatedLog.State NodeId LogEntry

/-- The rules of a cluster; `strict` says whether votes and acknowledgements count. -/
def clusterRules (cc : ClusterConfig) (strict : Prop) : Rules NodeId LogEntry where
  stamp := LogEntry.term
  fits k e := e.index = k + 1
  eligible i := i ∈ cc.members
  elects Q := Q ⊆ cc.members ∧ ∃ i ∈ cc.members, (cc.config i).quorum ≤ Q.card
  commits Q := Q ⊆ cc.members ∧ ∃ i ∈ cc.members, (cc.config i).quorum ≤ Q.card
  meet := by
    rintro Q Q' ⟨hQ, i, hi, hcard⟩ ⟨hQ', j, hj, hcard'⟩
    exact cc.quorum_inter hi hj hQ hQ' hcard hcard'
  strict := strict

variable {cc : ClusterConfig} {p : Prop} {a b : Ghost} {i j : NodeId} {h : List Effect}

/-- The invariant of the abstract states. -/
def GoodGhost (cc : ClusterConfig) (p : Prop) (a : Ghost) : Prop :=
  Inv (clusterRules cc p) a ∧ (p → Safe (clusterRules cc p) a)

/-- `e` stands in a committed prefix, at its own index. -/
def Chosen (cc : ClusterConfig) (p : Prop) (a : Ghost) (e : LogEntry) : Prop :=
  ∃ T n, Committed (clusterRules cc p) a T n ∧ 0 < e.index ∧ e.index ≤ n ∧
    (a.canon T)[e.index - 1]? = some e

/-- What holds of the disk of node `i`, whose history is `h`. -/
structure Disk (cc : ClusterConfig) (p : Prop) (a : Ghost) (i : NodeId) (h : List Effect)
    (s : MemStorage) : Prop where
  entries : s.entries = a.log i
  snapshot : s.snapshot = none
  term : s.hardState.term = a.term i
  led : ∀ T, a.owner T = some i → Effect.becameLeader T ∈ h
  commit : p → Settled (clusterRules cc p) a i s.hardState.commit
  applied : p → ∀ e, Effect.applied e ∈ h → Chosen cc p a e

/-- What holds of the memory of node `i`. -/
structure Memory (cc : ClusterConfig) (p : Prop) (a : Ghost) (i : NodeId)
    (sm : RaftStateMachine) : Prop where
  term : sm.currentTerm = a.term i
  leader : sm.role = .leader → a.owner (a.term i) = some i
  candidate : sm.role = .candidate →
    a.owner (a.term i) ≠ some i ∧ 0 < a.term i ∧ ∃ l, a.cand i (a.term i) = some l
  progress : ∀ j pr, sm.progress.lookup j = some pr →
    j ∈ (cc.config i).peers ∧ 1 ≤ pr.nextIndex
  votes : p → sm.role = .candidate → sm.votesReceived ⊆ cc.members ∧
    ∀ v ∈ sm.votesReceived, a.promised v (a.term i) i ∨ a.owner (a.term i) ≠ none
  matched : p → sm.role = .leader → ∀ j pr, sm.progress.lookup j = some pr →
    pr.matchIndex = 0 ∨ a.acked j (a.term i) pr.matchIndex
  commit : p → Settled (clusterRules cc p) a i sm.commitIndex

/-- What holds of a node. -/
structure Replica (cc : ClusterConfig) (p : Prop) (a : Ghost) (i : NodeId) (h : List Effect)
    (n : RaftNodeInner MemStorage) : Prop where
  disk : Disk cc p a i h n.storage
  memory : Memory cc p a i n.sm

/-- The entries of a request continue what the owner of `T` has written up to the previous
index, and the previous term is the true one. -/
structure Fragment (a : Ghost) (T prev prevTerm : ℕ) (es : List LogEntry) : Prop where
  le : prev ≤ (a.canon T).length
  entries : (a.canon T).take prev ++ es <+: a.canon T
  term : prevTerm = TermLog.termAt LogEntry.term (a.canon T) prev

/-- What holds of an AppendEntries request of `src` to `peer`: a fragment of the log of
the leader, or the request without entries that `replicate_to` builds when it cannot read
the previous term. -/
structure AppendOk (cc : ClusterConfig) (p : Prop) (a : Ghost) (src peer : NodeId) (last : ℕ)
    (req : AppendEntriesRequest) : Prop where
  peer : peer ≠ src
  owner : a.owner req.term = some src
  last : last = req.prevLogIndex + req.entries.length
  shape : Fragment a req.term req.prevLogIndex req.prevLogTerm
      (req.entries.map protoEntryToLogEntry) ∨
    (req.entries = [] ∧ 0 < req.prevLogIndex ∧ req.prevLogTerm = 0)
  commit : p → req.leaderCommit = 0 ∨ ∃ T n, Committed (clusterRules cc p) a T n ∧
    T ≤ req.term ∧ req.leaderCommit ≤ n
  heartbeat : p → req.entries = [] → req.leaderCommit ≤ req.prevLogIndex

/-- What holds of a packet. -/
structure PacketOk (cc : ClusterConfig) (p : Prop) (a : Ghost) (packet : Packet) : Prop where
  vote : ∀ src w peer req, packet = .request src w (.requestVote peer req) →
    req.candidateId = src ∧ ∃ l, a.cand src req.term = some l ∧ l.length = req.lastLogIndex ∧
      TermLog.lastTerm LogEntry.term l = req.lastLogTerm
  append : ∀ src w peer last req, packet = .request src w (.appendEntries peer last req) →
    AppendOk cc p a src peer last req
  snapshot : ∀ src w peer last req, packet ≠ .request src w (.installSnapshot peer last req)
  granted : ∀ dst peer resp, packet = .response dst (.voteResponse peer resp) →
    resp.voteGranted = true →
      peer ∈ cc.members ∧ (a.promised peer resp.term dst ∨ a.owner resp.term ≠ none)
  appended : ∀ dst peer last resp, packet = .response dst (.appendResponse peer last resp) →
    resp.success = true → a.acked peer resp.term last
  installed : ∀ dst peer last resp, packet ≠ .response dst (.snapshotResponse peer last resp)

/-! ## The records of the past -/

/-- A chosen entry stays chosen. -/
theorem Chosen.grows {e : LogEntry} (hc : Chosen cc p a e) (hg : Grows a b) :
    Chosen cc p b e := by
  obtain ⟨T, n, hcom, hpos, hle, he⟩ := hc
  refine ⟨T, n, hcom.grows hg, hpos, hle, ?_⟩
  have hlen := hcom.le
  obtain ⟨t, ht⟩ := hg.canon T
  rw [← ht, List.getElem?_append_left (by omega)]
  exact he

/-- **One entry per index**: two chosen entries of one index are the same. -/
theorem Chosen.unique (hgood : GoodGhost cc p a) (hp : p) {e e' : LogEntry}
    (he : Chosen cc p a e) (he' : Chosen cc p a e') (hi : e.index = e'.index) : e = e' := by
  obtain ⟨T, n, hcom, hpos, hle, hget⟩ := he
  obtain ⟨T', n', hcom', -, hle', hget'⟩ := he'
  have hagree := hcom.agree hgood.1 (hgood.2 hp) hcom' hle (hi ▸ hle')
  have h1 : ((a.canon T).take e.index)[e.index - 1]? = some e := by
    rw [List.getElem?_take, if_pos (by omega)]
    exact hget
  have h2 : ((a.canon T').take e.index)[e.index - 1]? = some e' := by
    rw [List.getElem?_take, if_pos (by omega), hi]
    exact hget'
  rw [hagree, h2] at h1
  exact (Option.some.inj h1).symm

/-- A piece of the owner's log stays one. -/
theorem Fragment.grows {T prev prevTerm : ℕ} {es : List LogEntry}
    (hf : Fragment a T prev prevTerm es) (hg : Grows a b) : Fragment b T prev prevTerm es := by
  have hlen := (hg.canon T).length_le
  refine ⟨Nat.le_trans hf.le hlen, ?_, ?_⟩
  · rw [hg.take_canon hf.le]
    exact hf.entries.trans (hg.canon T)
  · rw [← TermLog.termAt_of_isPrefix (hg.canon T) hf.le]
    exact hf.term

/-- A batch on the network stays true. -/
theorem AppendOk.grows {src peer : NodeId} {last : ℕ} {req : AppendEntriesRequest}
    (ha : AppendOk cc p a src peer last req) (hg : Grows a b) :
    AppendOk cc p b src peer last req where
  peer := ha.peer
  owner := hg.owner _ _ ha.owner
  last := ha.last
  shape := ha.shape.imp_left fun hf => hf.grows hg
  commit hp := (ha.commit hp).imp_right fun ⟨T, n, hcom, hT, hn⟩ => ⟨T, n, hcom.grows hg, hT, hn⟩
  heartbeat := ha.heartbeat

/-- So does every packet. -/
theorem PacketOk.grows {packet : Packet} (hp : PacketOk cc p a packet) (hg : Grows a b) :
    PacketOk cc p b packet where
  vote src w peer req he := by
    obtain ⟨hid, l, hl, hlen, hterm⟩ := hp.vote src w peer req he
    exact ⟨hid, l, hg.cand _ _ _ hl, hlen, hterm⟩
  append src w peer last req he := (hp.append src w peer last req he).grows hg
  snapshot := hp.snapshot
  granted dst peer resp he hgr := by
    obtain ⟨hm, hpr⟩ := hp.granted dst peer resp he hgr
    exact ⟨hm, hpr.imp (hg.promised _ _ _) hg.owner_ne⟩
  appended dst peer last resp he hs := hg.acked _ _ _ (hp.appended dst peer last resp he hs)
  installed := hp.installed

/-! ## The abstraction -/

/-- A step keeps the replicated log good. -/
theorem GoodGhost.step (hgood : GoodGhost cc p a) (hs : Step (clusterRules cc p) i a b) :
    GoodGhost cc p b :=
  ⟨hs.inv hgood.1, fun hp => hs.safe hp hgood.1 (hgood.2 hp)⟩

/-- What a node has settled it keeps through every step. -/
theorem GoodGhost.settled (hgood : GoodGhost cc p a) (hs : Step (clusterRules cc p) i a b)
    (hp : p) {v : NodeId} {k : ℕ} (hk : Settled (clusterRules cc p) a v k) :
    Settled (clusterRules cc p) b v k :=
  hs.settled hp hgood.1 (hgood.2 hp) hk

/-- The records grow, and log, term and ownerships of the node stay. -/
theorem Disk.grows {s : MemStorage} (hd : Disk cc p a i h s) (hg : Grows a b)
    (hlog : b.log i = a.log i) (hterm : b.term i = a.term i)
    (howner : ∀ T, b.owner T = some i → a.owner T = some i)
    (hcommit : p → Settled (clusterRules cc p) b i s.hardState.commit) : Disk cc p b i h s where
  entries := by rw [hlog]; exact hd.entries
  snapshot := hd.snapshot
  term := by rw [hterm]; exact hd.term
  led T hT := hd.led T (howner T hT)
  commit := hcommit
  applied hp e he := (hd.applied hp e he).grows hg

/-- The records grow, and term and ownerships of the node stay. -/
theorem Memory.grows {sm : RaftStateMachine} (hm : Memory cc p a i sm) (hg : Grows a b)
    (hterm : b.term i = a.term i) (howner : ∀ T, b.owner T = some i → a.owner T = some i)
    (hcommit : p → Settled (clusterRules cc p) b i sm.commitIndex) : Memory cc p b i sm where
  term := by rw [hterm]; exact hm.term
  leader hl := by rw [hterm]; exact hg.owner _ _ (hm.leader hl)
  candidate hc := by
    rw [hterm]
    obtain ⟨hno, hpos, l, hl⟩ := hm.candidate hc
    exact ⟨fun heq => hno (howner _ heq), hpos, l, hg.cand _ _ _ hl⟩
  progress := hm.progress
  votes hp hc := by
    rw [hterm]
    obtain ⟨hsub, hv⟩ := hm.votes hp hc
    exact ⟨hsub, fun v hvr => (hv v hvr).imp (hg.promised _ _ _) hg.owner_ne⟩
  matched hp hl k pr hk := by
    rw [hterm]
    exact (hm.matched hp hl k pr hk).imp_right (hg.acked _ _ _)
  commit := hcommit

/-- A step of `i` keeps what is known of another node. -/
theorem Replica.step_other {n : RaftNodeInner MemStorage} (hr : Replica cc p a j h n)
    (hgood : GoodGhost cc p a) (hs : Step (clusterRules cc p) i a b) (hj : j ≠ i) :
    Replica cc p b j h n := by
  have hg := hs.grows hgood.1
  obtain ⟨hlog, hterm, howner⟩ := hs.other hj
  exact ⟨hr.disk.grows hg hlog hterm howner fun hp => hgood.settled hs hp (hr.disk.commit hp),
    hr.memory.grows hg hterm howner fun hp => hgood.settled hs hp (hr.memory.commit hp)⟩

/-- Under the strict rules, votes and acknowledgements count in their own term, and no
late batch cuts a log. -/
def StrictIf (p : Prop) : Condition MemStorage := fun cfg n input crashAt =>
  p → (VotesCurrent.and (AcksCurrent.and KeepsAgreeing)) cfg n input crashAt

/-- The cluster as a replicated log. -/
def replication (cc : ClusterConfig) (p : Prop) : Abstraction MemStorage Ghost where
  step i := Step (clusterRules cc p) i
  good := GoodGhost cc p
  node := Replica cc p
  durable a i h n := Disk cc p a i h n.storage
  packet := PacketOk cc p
  legal a i e := ∀ T, e = .becameLeader T → ∀ j, j ≠ i → a.owner T ≠ some j
  cond _ := StrictIf p
  good_step hs hgood := hgood.step hs
  node_step hs hgood hj hn := hn.step_other hgood hs hj
  packet_step hs hgood hp := hp.grows (hs.grows hgood.1)
  packet_orphan hp :=
    { vote := fun _ _ peer req he => by cases he; exact hp.vote _ true peer req rfl
      append := fun _ _ peer last req he => by cases he; exact hp.append _ true peer last req rfl
      snapshot := fun _ _ peer last req he => by
        cases he; exact hp.snapshot _ true peer last req rfl
      granted := nofun
      appended := nofun
      installed := nofun }

/-- The log of a disk is aligned. -/
theorem Disk.plain {s : MemStorage} (hd : Disk cc p a i h s) (hgood : GoodGhost cc p a) :
    s.Plain := by
  refine ⟨fun k hk => ?_, hd.snapshot⟩
  rw [MemStorage.firstIndex_of_none hd.snapshot]
  have hfits := (hgood.1.log_good i).fits k (by rw [← hd.entries]; exact hk)
  simp only [← hd.entries] at hfits
  have hidx : s.entries[k].index = k + 1 := hfits
  omega

end IceRaft
