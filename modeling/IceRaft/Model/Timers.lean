import IceRaft.Model.EventLoop

/-!
# The timers of the event loop

`run_event_loop` with its clock.  The loop keeps two deadlines; before each `select!` it
chooses one of them by the role, and sleeps until it unless a message comes first.  RPC
handlers run beside the loop at any time and touch none of the three.

The clock is an integer, in milliseconds.  Handlers and branches take no time on it; time
passes between them.
-/

set_option autoImplicit false

namespace IceRaft

/-- `next_election_deadline` at `now`; `draw` is the outcome of the random generator, which
`gen_range` maps into the range.
SRCLINE: iceraft-node/src/node.rs:291-295 -/
def nextElectionDeadline (cfg : RaftConfig) (now draw : ℕ) : ℕ :=
  now + (cfg.electionTimeoutMinMs +
    draw % (cfg.electionTimeoutMaxMs + 1 - cfg.electionTimeoutMinMs))

/-- A process with the clock and the variables of its event loop. -/
structure TimedLoop (σ : Type) where
  process : Process σ
  now : ℕ
  heartbeatDeadline : ℕ
  electionDeadline : ℕ
  /-- what the present `select!` sleeps until -/
  deadline : ℕ

/-- One thing that happens to a node and its event loop. -/
inductive LoopEvent
  /-- time passes -/
  | elapse (ms : ℕ)
  | appendEntries (req : AppendEntriesRequest)
  | requestVote (req : RequestVoteRequest)
  | installSnapshot (req : InstallSnapshotRequest)
  /-- the `rx.recv()` branch -/
  | receive (msg : RaftMessage)
  /-- the timer branch, once the deadline has come -/
  | wake (draw : ℕ)
  deriving DecidableEq, Repr

namespace TimedLoop

variable {σ : Type}

/-- The role of the node. -/
abbrev role (s : TimedLoop σ) : RaftRole := s.process.node.sm.role

/-- The head of the loop.
SRCLINE: iceraft-node/src/node.rs:215-223 -/
def rearm (s : TimedLoop σ) : TimedLoop σ :=
  { s with deadline := if s.role = .leader then s.heartbeatDeadline else s.electionDeadline }

variable [Storage σ]

/-- `RaftNode::start` at `now`.
SRCLINE: iceraft-node/src/node.rs:195-211 -/
def start (cfg : RaftConfig) (storage : σ) (now draw : ℕ) : TimedLoop σ :=
  rearm ⟨.boot storage, now, now + cfg.heartbeatIntervalMs, nextElectionDeadline cfg now draw, 0⟩

/-- The node runs `input`. -/
def handle (cfg : RaftConfig) (input : Input) (s : TimedLoop σ) : TimedLoop σ :=
  { s with process := s.process.act cfg input none }

/-- The timer branch.
SRCLINE: iceraft-node/src/node.rs:268-286 -/
def timerFires (cfg : RaftConfig) (draw : ℕ) (s : TimedLoop σ) : TimedLoop σ :=
  let next := s.handle cfg
    (.timer (decide (s.electionDeadline ≤ s.now)) (decide (s.heartbeatDeadline ≤ s.now)))
  if s.electionDeadline ≤ s.now ∧ s.role ≠ .leader then
    { next with
      electionDeadline := nextElectionDeadline cfg s.now draw,
      heartbeatDeadline := s.now + cfg.heartbeatIntervalMs }
  else if s.heartbeatDeadline ≤ s.now ∧ s.role = .leader then
    { next with heartbeatDeadline := s.now + cfg.heartbeatIntervalMs }
  else next

/-- One event.  After `Shutdown` the loop takes neither messages nor timers; the handlers
still run. -/
def step (cfg : RaftConfig) (s : TimedLoop σ) : LoopEvent → TimedLoop σ
  | .elapse ms => { s with now := s.now + ms }
  | .appendEntries req => s.handle cfg (.appendEntries req)
  | .requestVote req => s.handle cfg (.requestVote req)
  | .installSnapshot req => s.handle cfg (.installSnapshot req)
  | .receive msg => if s.process.looping then (s.handle cfg (.message msg)).rearm else s
  | .wake draw =>
    if s.process.looping ∧ s.deadline ≤ s.now then (s.timerFires cfg draw).rearm else s

/-- The state after a list of events. -/
abbrev exec (cfg : RaftConfig) (s : TimedLoop σ) (es : List LoopEvent) : TimedLoop σ :=
  Runs.exec (step cfg) s es

omit [Storage σ] in
/-- The event takes the branch that calls `start_election`. -/
def Elects (s : TimedLoop σ) : LoopEvent → Prop
  | .wake _ =>
    s.process.looping = true ∧ s.deadline ≤ s.now ∧ s.electionDeadline ≤ s.now ∧ s.role ≠ .leader
  | _ => False

instance (s : TimedLoop σ) : ∀ e : LoopEvent, Decidable (s.Elects e)
  | .wake _ => inferInstanceAs (Decidable (_ ∧ _ ∧ _ ∧ _))
  | .elapse _ | .appendEntries _ | .requestVote _ | .installSnapshot _ | .receive _ =>
    inferInstanceAs (Decidable False)

/-- When `start_election` is called in the run from `s` along `es`. -/
def elections (cfg : RaftConfig) : TimedLoop σ → List LoopEvent → List ℕ
  | _, [] => []
  | s, e :: es => (if s.Elects e then [s.now] else []) ++ elections cfg (s.step cfg e) es

end TimedLoop

end IceRaft
