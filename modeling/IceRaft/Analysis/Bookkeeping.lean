import IceRaft.Analysis.MemLog
import IceRaft.Analysis.Progress
import IceRaft.Analysis.Simulation
import IceRaft.Analysis.VoteFrame
import IceRaft.Interface.Conditions

/-!
# The books of a node

Log, snapshot, pending proposals, commit index and last applied index change in a dozen
places, the same for every role.  `Keeps` lists them: a predicate on the history and the
node that is kept in each of these places is kept by every turn of the node, up to each
of its crash points.  On the way the positions of the log stay what its indices say, as
long as no accepted batch starts below the log and no older snapshot is installed.
-/

set_option autoImplicit false

namespace IceRaft

open Cluster Abstraction MemStorage

/-- Same log, same pending proposals, same indices. -/
structure SameBooks (n n' : RaftNodeInner MemStorage) : Prop where
  entries : n'.storage.entries = n.storage.entries
  snapshot : n'.storage.snapshot = n.storage.snapshot
  pending : n'.pending = n.pending
  commitIndex : n'.sm.commitIndex = n.sm.commitIndex
  lastApplied : n'.sm.lastApplied = n.sm.lastApplied

/-- A node has its own books. -/
theorem SameBooks.refl (n : RaftNodeInner MemStorage) : SameBooks n n := ⟨rfl, rfl, rfl, rfl, rfl⟩

/-- With the same books the log begins at the same index. -/
theorem SameBooks.firstIndex {n n' : RaftNodeInner MemStorage} (h : SameBooks n n') :
    n'.storage.firstIndex = n.storage.firstIndex := by
  unfold MemStorage.firstIndex
  rw [h.snapshot]

/-- What holds of a node between two turns. -/
structure Based (n : RaftNodeInner MemStorage) : Prop where
  aligned : n.storage.Aligned
  term : n.storage.hardState.term = n.sm.currentTerm
  buffer : n.snapshotBuf = none
  next : ∀ j pr, n.sm.progress.lookup j = some pr → 1 ≤ pr.nextIndex

/-- An effect that none of the books records. -/
def Effect.unbooked : Effect → Prop
  | .wrote | .accepted _ _ | .answered _ (.ok _) | .applied _ | .restored _ => False
  | _ => True

namespace RaftNodeInner

/-- The node after `save_hard_state`. -/
def saved (n : RaftNodeInner MemStorage) : RaftNodeInner MemStorage :=
  { n with storage := { n.storage with hardState := n.hardState } }

/-- The node after a batch was appended. -/
def appended (es : List LogEntry) (n : RaftNodeInner MemStorage) : RaftNodeInner MemStorage :=
  { n with storage := n.storage.appendEntries es }

/-- The node after a snapshot was stored. -/
def stored (snap : Snapshot) (n : RaftNodeInner MemStorage) : RaftNodeInner MemStorage :=
  { n with storage := n.storage.applySnapshot snap }

/-- The node with another commit index. -/
def committed (k : ℕ) (n : RaftNodeInner MemStorage) : RaftNodeInner MemStorage :=
  { n with sm := { n.sm with commitIndex := k } }

/-- The node with another last applied index. -/
def appliedTo (k : ℕ) (n : RaftNodeInner MemStorage) : RaftNodeInner MemStorage :=
  { n with sm := { n.sm with lastApplied := k } }

/-- The node with other pending proposals. -/
def awaiting (pending : List (ℕ × Sender)) (n : RaftNodeInner MemStorage) :
    RaftNodeInner MemStorage := { n with pending := pending }

end RaftNodeInner

/-- A batch that leaves the log aligned leaves its base. -/
theorem Based.appended {n : RaftNodeInner MemStorage} (hb : Based n) {es : List LogEntry}
    (halign : (n.storage.appendEntries es).Aligned) : Based (n.appended es) where
  aligned := halign
  term := by
    show (n.storage.appendEntries es).hardState.term = n.sm.currentTerm
    rw [appendEntries_hardState]
    exact hb.term
  buffer := hb.buffer
  next := hb.next

/-- The previous term that `replicate_to` puts into a request. -/
def prevTermOf (s : MemStorage) (prev : ℕ) : ℕ :=
  if prev > 0 then unwrapOr (s.term prev) 0 else 0

/-- What is known of the requests on the network. -/
structure Wire where
  batch : AppendEntriesRequest → Prop
  snapshot : InstallSnapshotRequest → Prop

/-- Nothing is asked of the requests. -/
def Wire.any : Wire := ⟨fun _ => True, fun _ => True⟩

/-- `I` is kept wherever a turn on `input` that starts in `n₀` with history `h` changes
the books, the requests it sends are as `W` says, and `At` holds right after each effect. -/
structure Keeps (W : Wire) (h : List Effect) (n₀ : RaftNodeInner MemStorage) (input : Input)
    (I At : List Effect → RaftNodeInner MemStorage → Prop) : Prop where
  aside : ∀ {H n n'}, SameBooks n n' → n'.storage.hardState = n.storage.hardState →
    n.sm.currentTerm ≤ n'.sm.currentTerm → I H n → I H n'
  note : ∀ {H n e}, e.unbooked → I H n → I (H ++ [e]) n
  save : ∀ {H n}, I H n → I (H ++ [.wrote]) n.saved
  batch : ∀ {H n req}, input = .appendEntries req → Accepts n₀ req = true → SameBooks n₀ n →
    W.batch req → n.sm.currentTerm = req.term → NodeTurn.PrevOk n.storage req →
    Based n → req.entries ≠ [] →
    Consecutive (req.prevLogIndex + 1) (req.entries.map protoEntryToLogEntry) →
    n.storage.firstIndex ≤ req.prevLogIndex + 1 → req.prevLogIndex ≤ n.storage.lastIndex →
    I H n → I (H ++ [.wrote]) (n.appended (req.entries.map protoEntryToLogEntry))
  commit : ∀ {H n k}, n.storage.Aligned → n.sm.commitIndex < k → I H n →
    I H (n.committed (min k n.storage.lastIndex))
  extend : ∀ {H n e}, Based n → e.term = n.sm.currentTerm →
    e.index = n.storage.lastIndex + 1 → I H n → I (H ++ [.wrote]) (n.appended [e])
  accept : ∀ {n e tx}, input = .message (.propose ⟨e.data, some tx⟩) → n.storage.Aligned →
    e ∈ n.storage.entries → I (h ++ [.wrote]) n →
    I (h ++ [.wrote] ++ [.accepted tx e]) (n.awaiting (n.pending ++ [(e.index, tx)]))
  forget : ∀ {H n pending}, pending ⊆ n.pending → I H n → I H (n.awaiting pending)
  answer : ∀ {H n w}, w ∈ n.pending → w.1 ≤ n.sm.commitIndex → I H n →
    I (H ++ [.answered w.2 (.ok w.1)]) n
  readIndex : ∀ {H n tx}, input = .message (.readIndex tx) → I H n →
    I (H ++ [.answered tx (.ok n.sm.commitIndex)]) n
  store : ∀ {H n req snap}, input = .installSnapshot req → n₀.sm.currentTerm ≤ req.term →
    W.snapshot req → SameBooks n₀ n → n.storage.Aligned →
    snap.metadata.lastIncludedIndex = req.lastIncludedIndex →
    n.storage.firstIndex ≤ req.lastIncludedIndex + 1 → I H n → I (H ++ [.wrote]) (n.stored snap)
  cover : ∀ {H n req}, input = .installSnapshot req → n₀.sm.currentTerm ≤ req.term →
    n.sm.lastApplied = n₀.sm.lastApplied → n.storage.Aligned →
    n.storage.firstIndex = req.lastIncludedIndex + 1 → I H n →
    I H ((n.committed (max n.sm.commitIndex req.lastIncludedIndex)).appliedTo
      (max n.sm.lastApplied req.lastIncludedIndex))
  apply : ∀ {H n e}, n.storage.Aligned → e ∈ n.storage.entries → e.index = n.sm.lastApplied + 1 →
    e.index ≤ n.sm.commitIndex → I H n → I (H ++ [.applied e]) (n.appliedTo e.index)
  send : ∀ {H n prev es leaderId}, n.storage.Aligned → (es = [] ∨ ∃ k,
      n.storage.firstIndex ≤ prev + 1 ∧ prev + 1 ≤ n.storage.lastIndex ∧
        es = (n.storage.entries.drop (prev + 1 - n.storage.firstIndex)).take k) → I H n →
    W.batch ⟨n.sm.currentTerm, leaderId, prev, prevTermOf n.storage prev,
      es.map logEntryToProtoEntry, n.sm.commitIndex⟩
  sendSnapshot : ∀ {H n snap leaderId}, n.storage.snapshot = some snap → I H n →
    W.snapshot ⟨n.sm.currentTerm, leaderId, snap.metadata.lastIncludedIndex,
      snap.metadata.lastIncludedTerm, 0, snap.data, true⟩
  at_answer : ∀ {H n w pending}, w ∈ n.pending → pending ⊆ n.pending →
    w.1 ≤ n.sm.commitIndex → I H n → At (H ++ [.answered w.2 (.ok w.1)]) (n.awaiting pending)
  at_readIndex : ∀ {H n tx}, input = .message (.readIndex tx) → I H n →
    At (H ++ [.answered tx (.ok n.sm.commitIndex)]) n
  at_other : ∀ {H n e}, (∀ tx k, e ≠ .answered tx (.ok k)) → At (H ++ [e]) n

/-- What holds of a packet: batches are consecutive, snapshots come whole, both are as `W`
says, and responses are not what clients send. -/
structure PacketTidy (W : Wire) (packet : Packet) : Prop where
  append : ∀ src w peer last req, packet = .request src w (.appendEntries peer last req) →
    Consecutive (req.prevLogIndex + 1) (req.entries.map protoEntryToLogEntry) ∧ W.batch req
  snapshot : ∀ src w peer last req, packet = .request src w (.installSnapshot peer last req) →
    req.done = true ∧ W.snapshot req
  response : ∀ dst call tx, packet ≠ .response dst (ClientCall.message tx call)

/-- An effect that puts a tidy packet on the network. -/
def Effect.tidy (W : Wire) : Effect → Prop
  | .spawned (.appendEntries _ _ req) =>
    Consecutive (req.prevLogIndex + 1) (req.entries.map protoEntryToLogEntry) ∧ W.batch req
  | .spawned (.installSnapshot _ _ req) => req.done = true ∧ W.snapshot req
  | _ => True

/-- A tidy effect puts a tidy packet on the network. -/
theorem Effect.tidy.packet {W : Wire} {e : Effect} (he : e.tidy W) {i : NodeId}
    {asker : Option (NodeId × RpcTask)} {packet : Packet} (hp : e.packet i asker = some packet) :
    PacketTidy W packet := by
  obtain ⟨task, rfl, rfl⟩ | ⟨src, peer, req, resp, rfl, rfl⟩ |
    ⟨src, peer, last, req, resp, rfl, rfl⟩ | ⟨src, peer, last, req, resp, rfl, rfl⟩ :=
    Effect.packet_cases hp
  · cases task with
    | requestVote peer req => exact ⟨nofun, nofun, nofun⟩
    | appendEntries peer last req =>
      exact ⟨fun _ _ _ _ _ heq => by cases heq; exact he, nofun, nofun⟩
    | installSnapshot peer last req =>
      exact ⟨nofun, fun _ _ _ _ _ heq => by cases heq; exact he, nofun⟩
  · exact ⟨nofun, nofun, fun _ call _ => by cases call <;> exact nofun⟩
  · exact ⟨nofun, nofun, fun _ call _ => by cases call <;> exact nofun⟩
  · exact ⟨nofun, nofun, fun _ call _ => by cases call <;> exact nofun⟩

/-- The books of the nodes, with no abstract state. -/
def bookkeeping (W : Wire) (I At : List Effect → RaftNodeInner MemStorage → Prop)
    (cond : List Effect → Condition MemStorage) : Abstraction MemStorage Unit where
  step _ _ _ := False
  good _ := True
  node _ _ h n := Based n ∧ I h n
  durable _ _ h n := n.storage.Aligned ∧ I h n ∧ At h n
  packet _ := PacketTidy W
  legal _ _ _ := True
  cond := cond
  good_step _ _ := trivial
  node_step := fun hs => hs.elim
  packet_step := fun hs => hs.elim
  packet_orphan hp :=
    { append := fun _ _ peer last req he => by cases he; exact hp.append _ true peer last req rfl
      snapshot := fun _ _ peer last req he => by
        cases he; exact hp.snapshot _ true peer last req rfl
      response := nofun }

end IceRaft
