import Intake.Script.Probe
/-!
# Contention for one gate

Several tasks share one gate. Each sleeps, and then releases, waits, probes once or acquires and holds.
The clock stands still while any task can go on and then moves to the next time at which one can.
-/

namespace Intake.Script

/-- What a task does once it has slept. -/
inductive Job
  /-- Tells the gate that resources were released. -/
  | notify
  /-- Waits for a release, for at most the heartbeat. -/
  | wait (heartbeat : Nat)
  /-- Probes once. -/
  | attempt (probe : Probe)
  /-- Acquires, holds for a while, gives back and tells the gate. -/
  | acquire (probe : Probe) (heartbeat : Nat) (hold : Nat) (cancelAt : Option Nat)
deriving Repr, Inhabited

/-- What a task answers. -/
inductive JobResult
  | ok
  | answered (a : ProbeAnswer)
  | acquired (time : Nat) (retries : Nat) (result : Except Fault Unit)
  | crashed

/-- Where a task stands. -/
inductive Stage
  | sleeping (deadline : Nat)
  | waiting (seen : Nat) (deadline : Nat)
  | acquiring (phase : Acquisition.Phase) (deadline : Nat)
  | holding (deadline : Nat) (result : JobResult)
  | finished (time : Nat) (result : JobResult)

/-- A task at the gate. -/
structure Contender where
  job : Job
  probe : Probe := {}
  stage : Stage
  retries : Nat := 0
  /-- The answers of its probes and when they came, newest first. -/
  calls : List (Nat × ProbeAnswer) := []

namespace Contender

/-- A task that sleeps until its time. -/
def make (start : Nat) (job : Job) : Contender :=
  { job
    stage := .sleeping start
    probe := match job with
      | .attempt probe => probe
      | .acquire probe .. => probe
      | _ => {} }

/-- Whether the task is cancelled at a time. -/
def cancelled (c : Contender) (now : Nat) : Bool :=
  match c.job with
  | .acquire _ _ _ (some time) => decide (time ≤ now)
  | _ => false

/-- The times at which a task that cannot go on may be able to. -/
def times (c : Contender) : List Nat :=
  match c.stage with
  | .sleeping t => [t]
  | .waiting _ t => [t]
  | .acquiring _ t =>
    match c.job with
    | .acquire _ _ _ (some time) => [t, time]
    | _ => [t]
  | .holding t _ => [t]
  | .finished .. => []

end Contender

/-- A gate, its pools and its tasks. -/
structure Contention where
  now : Nat := 0
  releases : Nat := 0
  pools : Pools := []
  tasks : List Contender := []

namespace Contention

/-- Asks a task's probe and notes the answer. -/
def ask (s : Contention) (c : Contender) : ProbeAnswer × Contender × Contention :=
  let (answer, probe, pools) := c.probe.ask s.pools
  (answer, { c with probe, calls := (s.now, answer) :: c.calls }, { s with pools })

/-- Ends an acquisition. -/
def acquired (s : Contention) (c : Contender) (hold : Nat) : Acquisition.Outcome → Contender
  | .acquired => { c with stage := .holding (s.now + hold) (.acquired s.now c.retries (.ok ())) }
  | .failed e => { c with stage := .finished s.now (.acquired s.now c.retries (.error e)) }
  | .crashed _ => { c with stage := .finished s.now .crashed }

/-- The move that an acquisition can make now: the answer of the probe, cancellation, the end of the
heartbeat, or going on. -/
def acquisitionMove (s : Contention) (c : Contender) (phase : Acquisition.Phase) (deadline : Nat) :
    Acquisition.Move × Contender × Contention :=
  match phase with
  | .armed _ =>
    let (answer, c, s) := s.ask c
    (.probe answer, c, s)
  | .waiting seen =>
    if c.cancelled s.now then (.quit, c, s)
    else if seen < s.releases then (.go, c, s)
    else if deadline ≤ s.now then (.elapse, c, s)
    else (.go, c, s)
  | _ => (.go, c, s)

/-- Lets one task make one step, if it can. -/
def advance (s : Contention) (c : Contender) : Option (Contender × Contention) :=
  match c.stage with
  | .finished .. => none
  | .sleeping start =>
    if s.now < start then none
    else
      match c.job with
      | .notify =>
        some ({ c with stage := .finished s.now .ok }, { s with releases := s.releases + 1 })
      | .wait heartbeat =>
        some ({ c with stage := .waiting s.releases (s.now + heartbeat) }, s)
      | .attempt _ =>
        let (answer, c, s) := s.ask c
        let result := match answer with
          | .crashed _ => .crashed
          | answer => .answered answer
        some ({ c with stage := .finished s.now result }, s)
      | .acquire .. => some ({ c with stage := .acquiring .fresh s.now }, s)
  | .waiting seen limit =>
    if seen < s.releases ∨ limit ≤ s.now then some ({ c with stage := .finished s.now .ok }, s) else none
  | .acquiring phase limit =>
    match c.job with
    | .acquire _ heartbeat hold _ =>
      let (move, c, s) := s.acquisitionMove c phase limit
      match Acquisition.step (c.cancelled s.now) s.releases phase move with
      | none => none
      | some (.moved phase) => some ({ c with stage := .acquiring phase limit }, s)
      | some (.retried phase) =>
        some ({ c with stage := .acquiring phase (s.now + heartbeat), retries := c.retries + 1 }, s)
      | some (.done outcome) => some (s.acquired c hold outcome, s)
    | _ => none
  | .holding limit result =>
    if s.now < limit then none
    else
      let (probe, pools) := c.probe.release s.pools
      some ({ c with probe, stage := .finished s.now result },
        { s with pools, releases := s.releases + 1 })

/-- Lets the task of an index go on until it cannot; the answer says whether it made a step. -/
def turn (i : Nat) : Nat → Contention → Contention × Bool
  | 0, s => (s, false)
  | fuel + 1, s =>
    match s.tasks[i]? with
    | none => (s, false)
    | some c =>
      match s.advance c with
      | none => (s, false)
      | some (c, s) => ((turn i fuel { s with tasks := s.tasks.set i c }).1, true)

/-- Gives every task its turn; the answer says whether any of them made a step. -/
def sweep (fuel : Nat) (s : Contention) : Contention × Bool :=
  (List.range s.tasks.length).foldl
    (fun (p : Contention × Bool) i =>
      let (s, moved) := turn i fuel p.1
      (s, p.2 || moved))
    (s, false)

/-- The next time at which some task may be able to go on. -/
def nextTime? (s : Contention) : Option Nat :=
  ((s.tasks.flatMap Contender.times).filter (s.now < ·)).min?

/-- Runs until no task can go on any more, or the fuel is used up. -/
def run : Nat → Contention → Contention
  | 0, s => s
  | fuel + 1, s =>
    match sweep (fuel + 1) s with
    | (s, true) => run fuel s
    | (s, false) =>
      match s.nextTime? with
      | none => s
      | some time => run fuel { s with now := time }

end Contention

end Intake.Script
