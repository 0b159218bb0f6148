import Intake.Read.FeedTask
/-!
# A whole read

A read has one task per feed and a supervisor. The supervisor waits for the stream feeds, in order. If
the global feed is still running then, and some of its streams have failed, it is stopped, with their
faults as the cause. Then the supervisor waits for the global feed and reports the result of the read.
A feed whose connector crashed leaves its report to the supervisor.

`System.step` makes one move: of a task, of the supervisor, of the connector, or of whoever cancels the
read. A list of moves is one schedule of a read, and `System.run` follows it; what holds for every list
of moves holds for every schedule.
-/

namespace Intake.Read

/-- The feeds that the supervisor waits for. -/
inductive Stage
  | streams
  | globals
deriving DecidableEq, Repr

/-- Where the supervisor stands. -/
inductive Watch
  /-- Has not begun. -/
  | opening
  /-- Waits for feeds, in order. -/
  | joining (stage : Stage) (left : List Nat)
  /-- Says that the streams of a crashed feed have stopped. -/
  | burying (stage : Stage) (left : List Nat) (i : Nat) (message : String) (ids : List StreamId)
  /-- Looks for global feeds to stop. -/
  | checking (left : List Nat)
  /-- Is about to stop a global feed, for which it has set the cause. -/
  | halting (left : List Nat) (i : Nat)
  /-- Is about to publish the result. -/
  | closing
  | done (r : Except Fault Unit)

/-- A read. -/
structure System where
  settings : Settings
  /-- The number of factories. -/
  factories : Nat
  /-- Whether the read was cancelled from outside. -/
  cancelled : Bool := false
  shared : Shared
  feeds : List FeedTask
  watch : Watch := .opening
  /-- The faults of the feeds that the supervisor has waited for, in order. -/
  faults : List Fault := []
  /-- The faults of the stream feeds among them. -/
  streamFaults : Table StreamId Fault := []

namespace System

/-- One move of a read. -/
inductive Move
  | feed (i : Nat) (a : Act)
  | partition (i j : Nat) (a : Act)
  /-- The supervisor goes on. -/
  | supervise
  /-- The read is cancelled from outside. -/
  | cancel
  /-- The connector resets a slot. -/
  | reset (key : SlotKey)
  /-- The connector writes a record. -/
  | record (r : RecordMessage)
deriving Repr

/-- A read that has not begun. -/
def start (settings : Settings) (factories : Nat) (ledger : Ledger) : System where
  settings
  factories
  shared := { ledger, board := .make ledger.feeds }
  feeds := ledger.feeds.map fun feed => { feed }

/-- The indices of the feeds of a stage, in order. -/
def indices (s : System) (stage : Stage) : List Nat :=
  (s.feeds.zipIdx.filter fun e => e.1.feed.isGlobal == (stage == .globals)).map Prod.snd

/-- What the feed of an index sees. -/
def feedView (s : System) (i : Nat) : FeedTask.View where
  settings := s.settings
  factories := s.factories
  index := i
  cancelled := s.cancelled

/-! ## The supervisor -/

/-- Notes the fault of a feed. -/
def noteFault (s : System) (stage : Stage) (feed : Feed) (e : Fault) : System :=
  { s with
    faults := s.faults ++ [e]
    streamFaults := match stage, feed.stream? with
      | .streams, some stream => s.streamFaults.put stream.id e
      | _, _ => s.streamFaults }

/-- The faults of the streams that a feed lists, in the order of its list. -/
def memberFaults (s : System) (feed : Feed) : List Fault := feed.ids.filterMap s.streamFaults.find?

/-- The result of a read: just cancellation when the read was cancelled and nothing else went wrong. -/
def outcome (cancelled : Bool) (faults : List Fault) : Except Fault Unit :=
  if cancelled && !faults.isEmpty && faults.all Fault.isCancellation then .error .cancelled
  else
    match Fault.aggregate? faults with
    | none => .ok ()
    | some e => .error e

/-- The event that tells the result of a read. -/
def outcomeEvent (failed : Nat) : Except Fault Unit → Event
  | .ok () => { kind := .readCompleted }
  | .error e => { kind := .readFailed, count := some failed, reason := some e.message }

/-- Goes on from waiting for the first feed of a list. -/
def superviseJoining (s : System) (stage : Stage) : List Nat → Option (System × List Effect)
  | [] =>
    match stage with
    | .streams => some ({ s with watch := .checking (s.indices .globals) }, [])
    | .globals => some ({ s with watch := .closing }, [])
  | i :: left => do
    let t ← s.feeds[i]?
    match t.phase with
    | .done (.ok ()) => return ({ s with watch := .joining stage left }, [])
    | .done (.error e) =>
      return ({ s.noteFault stage t.feed e with watch := .joining stage left }, [])
    | .crashed message =>
      return ({ s with watch := .burying stage left i message t.feed.ids }, [])
    | _ => none

/-- Goes on from reporting a crashed feed. -/
def superviseBurying (s : System) (stage : Stage) (left : List Nat) (i : Nat) (message : String)
    (ids : List StreamId) : Option (System × List Effect) := do
  let t ← s.feeds[i]?
  match ids with
  | id :: rest =>
    let (shared, effects) := t.tell s.shared .failure id
    return ({ s with shared, watch := .burying stage left i message rest }, effects)
  | [] =>
    let failed := { t.event .feedFailed with reason := some message }
    return ({ s.noteFault stage t.feed (.crashed t.label message) with
      watch := .joining stage left }, [.publish failed])

/-- Looks at the first global feed of a list: when it is still running and streams of it have failed,
the cause is set. -/
def superviseChecking (s : System) : List Nat → Option (System × List Effect)
  | [] => some ({ s with watch := .joining .globals (s.indices .globals) }, [])
  | i :: left => do
    let t ← s.feeds[i]?
    if t.finished then return ({ s with watch := .checking left }, [])
    else
      match Fault.aggregate? (s.memberFaults t.feed) with
      | none => return ({ s with watch := .checking left }, [])
      | some cause =>
        return ({ s with
          feeds := s.feeds.set i { t with cause := some (t.cause.getD cause) }
          watch := .halting left i }, [])

/-- The supervisor makes a step, if it can. -/
def supervise (s : System) : Option (System × List Effect) :=
  match s.watch with
  | .opening =>
    some ({ s with watch := .joining .streams (s.indices .streams) },
      [.publish { kind := .readStarting, count := some s.feeds.length }])
  | .joining stage left => s.superviseJoining stage left
  | .burying stage left i message ids => s.superviseBurying stage left i message ids
  | .checking left => s.superviseChecking left
  | .halting left i =>
    some ({ s with
      feeds := s.feeds.modify i fun t => { t with halted := true }
      watch := .checking left }, [])
  | .closing =>
    let r := outcome s.cancelled s.faults
    some ({ s with watch := .done r }, [.publish (outcomeEvent s.faults.length r)])
  | .done _ => none

/-! ## All moves -/

/-- Whether the tasks of the feeds have been started. -/
def begun (s : System) : Bool :=
  match s.watch with
  | .opening => false
  | _ => true

/-- Makes a move, if it can be made. -/
def step (s : System) : Move → Option (System × List Effect)
  | .feed i a =>
    if s.begun then do
      let t ← s.feeds[i]?
      let next ← t.step (s.feedView i) s.shared a
      return ({ s with shared := next.shared, feeds := s.feeds.set i next.task }, next.effects)
    else none
  | .partition i j a => do
    let t ← s.feeds[i]?
    let (t, effects) ← t.stepPart (s.feedView i) j a
    return ({ s with feeds := s.feeds.set i t }, effects)
  | .supervise => s.supervise
  | .cancel => some ({ s with cancelled := true }, [])
  | .reset key => some ({ s with shared := { s.shared with ledger := s.shared.ledger.reset key } }, [])
  | .record r => some (s, [.write (.record r)])

/-- Follows a schedule, if each of its moves can be made in its turn; the answer has all effects in
order. -/
def run (s : System) : List Move → Option (System × List Effect)
  | [] => some (s, [])
  | move :: rest => do
    let (s, effects) ← s.step move
    let (s, more) ← run s rest
    return (s, effects ++ more)

/-- The result of the read, when it is over. -/
def result? (s : System) : Option (Except Fault Unit) :=
  match s.watch with
  | .done r => some r
  | _ => none

end System

end Intake.Read
