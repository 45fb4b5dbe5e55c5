import IceRaft.Model.Cluster

/-!
# Start-up of a process

`RaftNode::start` returns before its event loop has restored the hard state, and from then on
the RPC handlers take the mutex like the loop does.  So a process that starts has a window in
which its handlers work on an empty memory; the restore block, the first thing its event loop
does, ends it.  `Process.boot` is a start whose restore block comes first, and a `Cluster` is
made of such processes; the runs here leave the moment of the restore open, at the first start
and after every crash.
-/

set_option autoImplicit false

namespace IceRaft

namespace Process

variable {σ : Type} [Storage σ]

/-- A process when `RaftNode::start` returns; its loop takes no messages yet.
SRCLINE: iceraft-node/src/node.rs:76-114 -/
def start (storage : σ) : Process σ := ⟨.new storage, false, []⟩

/-- The event loop runs its restore block and begins.
SRCLINE: iceraft-node/src/node.rs:188-207 -/
def restore (p : Process σ) : Process σ :=
  let x := NodeTurn.restore (Turn.start p.node)
  ⟨x.node, true, p.history ++ x.effects⟩

/-- A boot is a start with its restore block. -/
theorem boot_eq (storage : σ) : boot storage = (start storage).restore := rfl

/-- Run `input` to its end, or crash after the given number of effects and start again on the
storage as it is then. -/
def perform (cfg : RaftConfig) (input : Input) (crashAt : Option ℕ) (p : Process σ) : Process σ :=
  match crashAt with
  | none => p.act cfg input none
  | some k =>
    { start ((p.turn cfg input).cutNode p.node k).storage with
      history := p.history ++ p.emitted cfg input (some k) }

/-- A crash with its restart is a crash, a start and the restore block. -/
theorem act_eq (cfg : RaftConfig) (input : Input) (k : ℕ) (p : Process σ) :
    p.act cfg input (some k) = (p.perform cfg input (some k)).restore := rfl

end Process

/-! ## One process -/

/-- A process, and whether its restore block has run. -/
structure Launch (σ : Type) where
  process : Process σ
  restored : Bool

/-- What a process does next. -/
inductive LaunchStep
  | restore
  | run (input : Input) (crashAt : Option ℕ)
  deriving DecidableEq, Repr

namespace Launch

variable {σ : Type} [Storage σ]

/-- `start` has returned. -/
def init (storage : σ) : Launch σ := ⟨.start storage, false⟩

/-- The restore block runs once in each uptime; before it only the RPC handlers run. -/
def step (cfg : RaftConfig) (L : Launch σ) : LaunchStep → Launch σ
  | .restore => if L.restored then L else ⟨L.process.restore, true⟩
  | .run input crashAt =>
    if L.restored || input.isRpc then
      ⟨L.process.perform cfg input crashAt, L.restored && crashAt.isNone⟩
    else L

/-- The state after a list of steps. -/
abbrev exec (cfg : RaftConfig) (L : Launch σ) (es : List LaunchStep) : Launch σ :=
  Runs.exec (step cfg) L es

end Launch

/-! ## A cluster -/

/-- A cluster whose processes restore when they get to it. -/
structure LaunchedCluster (σ : Type) where
  cluster : Cluster σ
  restored : NodeId → Bool

/-- An event of the cluster, or the restore block of a process. -/
inductive LaunchEvent
  | event (e : Event)
  | restore (i : NodeId)
  deriving DecidableEq, Repr

namespace LaunchedCluster

variable {σ : Type} [Storage σ]

/-- Every process has started on its storage, and nothing is on the network. -/
def init (stores : NodeId → σ) : LaunchedCluster σ :=
  ⟨⟨fun i => .start (stores i), [], 0⟩, fun _ => false⟩

/-- The process `i` runs `input`; a crash leaves it unrestored. -/
def activate (cc : ClusterConfig) (L : LaunchedCluster σ) (i : NodeId) (input : Input)
    (e : Event) : LaunchedCluster σ where
  cluster :=
    { proc := fun j =>
        if j = i then (L.cluster.proc i).perform (cc.config i) input e.crashAt
        else L.cluster.proc j
      net := L.cluster.survivors i e ++ L.cluster.added cc i input e
      nextSender := L.cluster.nextSender + 1 }
  restored := fun j => if j = i then L.restored i && e.crashAt.isNone else L.restored j

/-- One event.  The loop of an unrestored process takes neither messages nor timers, as it is
not looping; its handlers take requests. -/
def step (cc : ClusterConfig) (L : LaunchedCluster σ) : LaunchEvent → LaunchedCluster σ
  | .restore i =>
    if L.restored i then L
    else
      { cluster :=
          { L.cluster with
            proc := fun j => if j = i then (L.cluster.proc i).restore else L.cluster.proc j }
        restored := fun j => if j = i then true else L.restored j }
  | .event e =>
    match L.cluster.input? cc e.action with
    | some (i, input) => L.activate cc i input e
    | none => { L with cluster := { L.cluster with net := L.cluster.netAfter e.action } }

/-- The state after a list of events. -/
abbrev exec (cc : ClusterConfig) (L : LaunchedCluster σ) (es : List LaunchEvent) :
    LaunchedCluster σ := Runs.exec (step cc) L es

/-- The activation that an event causes, if any, is one of a restored process and meets
`cond`. -/
def Meets (cc : ClusterConfig) (cond : Cluster.Condition σ) (L : LaunchedCluster σ) :
    LaunchEvent → Prop
  | .restore _ => True
  | .event e =>
    match L.cluster.input? cc e.action with
    | some (i, input) =>
      L.restored i = true ∧ cond (cc.config i) (L.cluster.proc i).node input e.crashAt
    | none => True

instance (cc : ClusterConfig) (cond : Cluster.Condition σ)
    [∀ cfg n input crash, Decidable (cond cfg n input crash)] (L : LaunchedCluster σ)
    (e : LaunchEvent) : Decidable (L.Meets cc cond e) := by
  unfold Meets
  cases e with
  | restore i => exact inferInstanceAs (Decidable True)
  | event e =>
    dsimp only
    cases L.cluster.input? cc e.action with
    | none => exact inferInstanceAs (Decidable True)
    | some q =>
      exact inferInstanceAs (Decidable (_ ∧ cond (cc.config q.1) (L.cluster.proc q.1).node q.2 _))

/-- Every activation of the run from `L` along `es` is one of a restored process and meets
`cond`. -/
abbrev Within (cc : ClusterConfig) (cond : Cluster.Condition σ) (L : LaunchedCluster σ)
    (es : List LaunchEvent) : Prop := Runs.Within (step cc) (Meets cc cond) L es

end LaunchedCluster

end IceRaft
