import Intake.Read.Act
/-!
# The task of a partition

The task of a partition waits until the partition before it has finished acquiring, acquires its own
resources and lets the next one go on. Then its reader runs, until it is done, its time is over or it is
cancelled; its resources are released, and the gate of the feed is told. A reader that is done, or whose
time is over, is asked for its progress. The outcome is published, and the task is over.

A run is polled until it ends. Before each poll the task looks whether it is cancelled, and then gives the
run up without polling it again; so a run that ends, or whose time is over, does so in a poll that was begun
when the task was not cancelled.

If the code of the reader crashes the task is over at once.
-/

namespace Intake.Read

/-- How a run ended well. -/
inductive Ending
  | completed
  /-- The time of the run was over. -/
  | timedOut
deriving DecidableEq, Repr

namespace Partition

/-- Where the task of a partition stands. -/
inductive Phase
  /-- Waits for the partition before it. -/
  | queued
  | acquiring (p : Acquisition.Phase)
  /-- Is about to let the next partition go on. -/
  | signalling (r : Except Fault Unit)
  /-- Has its resources. -/
  | opening
  /-- The reader runs, and is about to be polled. -/
  | running
  /-- The reader is being polled; the task was not cancelled when the poll began. -/
  | polling
  /-- Is about to release its resources. -/
  | releasing (r : Except Fault Ending)
  /-- Is about to tell the gate. -/
  | notifying (r : Except Fault Ending)
  /-- Asks the reader for its progress. -/
  | saving (e : Ending)
  /-- Is about to publish the outcome. -/
  | reporting (r : Except Fault (Ending × Checkpoint))
  | ended (e : Ended)

end Partition

/-- The task of a partition. -/
structure Partition where
  /-- Whether the reader may run without limit. -/
  unlimited : Bool
  phase : Partition.Phase
  /-- Whether this partition was stopped. -/
  halted : Bool := false
  /-- Whether the acquisition is over, so that the next partition may go on. -/
  passed : Bool := false
  /-- Whether the feed has taken the end of the task. -/
  joined : Bool := false

namespace Partition

/-- The task of a partition at the beginning. The first one has nobody to wait for. -/
def start (index : Nat) (unlimited : Bool) : Partition :=
  { unlimited, phase := if index = 0 then .acquiring .fresh else .queued }

/-- What a partition sees of its surroundings. -/
structure View where
  /-- The label of the feed. -/
  feed : String
  round : Nat
  /-- The index of the partition in its round, from zero. -/
  index : Nat
  actor : Actor
  heartbeat : Duration
  timeout : Option Duration
  /-- Whether the partition is cancelled, by itself, with its feed or with the read. -/
  cancelled : Bool
  /-- The number of releases that the gate has been told of. -/
  releases : Nat
  /-- Whether the partition before it has finished acquiring. -/
  turn : Bool

/-- What comes of a step. -/
structure Next where
  task : Partition
  effects : List Effect := []
  /-- Whether the gate was told of a release. -/
  notified : Bool := false

/-- The limit of the run: none for a reader without limit. -/
def limit (v : View) (t : Partition) : Option Duration := if t.unlimited then none else v.timeout

/-- An event about the partition. -/
def event (v : View) (kind : EventKind) : Event :=
  { kind, feed := some v.feed, round := some v.round, partition := some (v.index + 1) }

/-- The task in another phase. -/
def goto (t : Partition) (phase : Phase) : Next := { task := { t with phase } }

/-- The task after a crash. A task that is gone keeps nobody waiting. -/
def crash (t : Partition) (message : String) : Next :=
  { task := { t with phase := .ended (.crashed message), passed := true } }

/-- The task goes on when the partition before it has finished acquiring, or gives up when it is
cancelled. -/
def stepQueued (v : View) (t : Partition) : Act → Option Next
  | .go => if v.turn then some (t.goto (.acquiring .fresh)) else none
  | .quit => if v.cancelled then some (t.goto (.signalling (.error .cancelled))) else none
  | _ => none

/-- The reader acquires. -/
def stepAcquiring (v : View) (t : Partition) (p : Acquisition.Phase) (a : Act) : Option Next := do
  let move ← a.acquisition?
  match ← Acquisition.step v.cancelled v.releases p move with
  | .moved p => return t.goto (.acquiring p)
  | .retried p =>
    return { t.goto (.acquiring p) with
      effects := [.publish (event v .resourcesUnavailable), .timer v.actor v.heartbeat] }
  | .done .acquired => return t.goto (.signalling (.ok ()))
  | .done (.failed e) => return t.goto (.signalling (.error e))
  | .done (.crashed message) => return t.crash message

/-- The next partition is let go on, whether or not this one has its resources. -/
def stepSignalling (t : Partition) (r : Except Fault Unit) : Act → Option Next
  | .go =>
    let t := { t with passed := true }
    match r with
    | .ok () => some (t.goto .opening)
    | .error e => some (t.goto (.reporting (.error e)))
  | _ => none

/-- The reader is let run, with a timer if its run is limited. -/
def stepOpening (v : View) (t : Partition) : Act → Option Next
  | .go =>
    let timer := (t.limit v).toList.map (.timer v.actor)
    some { t.goto .running with effects := .publish (event v .partitionReadStarting) :: timer }
  | _ => none

/-- The run is given up if the partition is cancelled, and polled otherwise. -/
def stepRunning (v : View) (t : Partition) : Act → Option Next
  | .quit => if v.cancelled then some (t.goto (.releasing (.error .cancelled))) else none
  | .go => if v.cancelled then none else some (t.goto .polling)
  | _ => none

/-- In a poll the run ends, by itself or with its time, or has to wait for the next one. A crash ends the
task at once. -/
def stepPolling (v : View) (t : Partition) : Act → Option Next
  | .ran .done => some (t.goto (.releasing (.ok .completed)))
  | .ran (.failed e) => some (t.goto (.releasing (.error e)))
  | .ran (.crashed message) => some (t.crash message)
  | .elapse => if (t.limit v).isSome then some (t.goto (.releasing (.ok .timedOut))) else none
  | .go => some (t.goto .running)
  | _ => none

/-- The resources are released, however the run ended. -/
def stepReleasing (v : View) (t : Partition) (r : Except Fault Ending) : Act → Option Next
  | .go => some { t.goto (.notifying r) with effects := [.release v.actor] }
  | _ => none

/-- The gate is told of the release. -/
def stepNotifying (t : Partition) (r : Except Fault Ending) : Act → Option Next
  | .go =>
    match r with
    | .ok e => some { t.goto (.saving e) with notified := true }
    | .error e => some { t.goto (.reporting (.error e)) with notified := true }
  | _ => none

/-- The reader answers with its progress. -/
def stepSaving (t : Partition) (e : Ending) : Act → Option Next
  | .saved (.checkpoint c) => some (t.goto (.reporting (.ok (e, c))))
  | .saved (.crashed message) => some (t.crash message)
  | _ => none

/-- The event that tells the outcome of a partition, and its end. -/
def report (v : View) (t : Partition) : Except Fault (Ending × Checkpoint) → Event × Ended
  | .ok (.completed, c) =>
    ({ event v .partitionReadCompleted with records := some c.records }, .finished (.ok c))
  | .ok (.timedOut, c) =>
    let e := { event v .partitionReadTimedOut with records := some c.records }
    (match t.limit v with
      | some d => e.withTimeout d
      | none => e,
      .finished (.ok c))
  | .error e =>
    match e, v.cancelled with
    | .cancelled, true =>
      ({ event v .partitionReadCancelled with reason := some Fault.cancelled.describe },
        .finished (.error .cancelled))
    | e, _ => ({ event v .partitionReadFailed with reason := some e.message }, .finished (.error e))

/-- The outcome is published. -/
def stepReporting (v : View) (t : Partition) (r : Except Fault (Ending × Checkpoint)) :
    Act → Option Next
  | .go =>
    let (e, ended) := t.report v r
    some { t.goto (.ended ended) with effects := [.publish e] }
  | _ => none

/-- Makes a step, if the act can move the task. -/
def step (v : View) (t : Partition) (a : Act) : Option Next :=
  match t.phase with
  | .queued => t.stepQueued v a
  | .acquiring p => t.stepAcquiring v p a
  | .signalling r => t.stepSignalling r a
  | .opening => t.stepOpening v a
  | .running => t.stepRunning v a
  | .polling => t.stepPolling v a
  | .releasing r => t.stepReleasing v r a
  | .notifying r => t.stepNotifying r a
  | .saving e => t.stepSaving e a
  | .reporting r => t.stepReporting v r a
  | .ended _ => none

/-- How the task ended, if it has. -/
def ended? (t : Partition) : Option Ended :=
  match t.phase with
  | .ended e => some e
  | _ => none

end Partition

end Intake.Read
