import Intake.Event
import Intake.Table
/-!
# The tracker of running tasks

The tracker follows the events of a read and knows which tasks are running. A task is known by its key
and belongs to the root of the key, the part before the first slash. A start event makes its key active,
an end event makes it inactive, and an outcome of a feed makes every key of that root inactive and
leaves a stop marker: from then on events of the root are refused until a newer start of the feed.
An event that is not newer than what is known of its key is refused too.
-/

namespace Intake

/-- What an event does to the set of running tasks. -/
inductive Role
  /-- A task begins. -/
  | start
  /-- A task ends. -/
  | finish
  /-- A feed ends with all its tasks. -/
  | outcome
  /-- Nothing begins or ends. -/
  | none
deriving DecidableEq, Repr

/-- What events of a kind do to the set of running tasks. -/
def EventKind.role : EventKind → Role
  | .feedStarting => .start
  | .creatorStarting => .start
  | .partitionReadStarting => .start
  | .partitionsCreated => .finish
  | .partitionReadCompleted => .finish
  | .partitionReadTimedOut => .finish
  | .partitionReadFailed => .finish
  | .partitionReadCancelled => .finish
  | .feedCompleted => .outcome
  | .feedFailed => .outcome
  | .feedCancelled => .outcome
  | _ => .none

/-- The running tasks, and the feeds that have stopped. -/
structure Tracker where
  /-- Running task and the sequence number of its last event. -/
  active : Table String Nat := []
  /-- Stopped root and the sequence number of the outcome that stopped it. -/
  stopped : Table String Nat := []
deriving Repr, Inhabited

namespace Tracker

/-- The root of a task key: the part before its first slash. -/
def root (key : String) : String := String.ofList (key.toList.takeWhile (· != '/'))

/-- Applies a start or an end to the key itself, unless the key has heard of something newer. The
answer says whether the set of active keys changed. -/
def mark (t : Tracker) (key : String) (seq : Nat) (starts : Bool) : Tracker × Bool :=
  match t.active.find? key with
  | some last =>
    if seq ≤ last then (t, false)
    else if starts then ({ t with active := t.active.put key seq }, false)
    else ({ t with active := t.active.erase key }, true)
  | none =>
    if starts then ({ t with active := t.active.put key seq }, true)
    else (t, false)

/-- Applies a start or an end, unless the root is stopped. A newer start of a feed lifts the stop. -/
def note (t : Tracker) (key : String) (e : Event) (starts : Bool) : Tracker × Bool :=
  match t.stopped.find? (root key) with
  | some stop =>
    if e.seq ≤ stop ∨ e.kind ≠ .feedStarting then (t, false)
    else { t with stopped := t.stopped.erase (root key) }.mark key e.seq starts
  | none => t.mark key e.seq starts

/-- Whether a key is that of a feed, or goes on after it with a slash. -/
def isUnder (feed key : String) : Bool :=
  key = feed || (feed ++ "/").toList.isPrefixOf key.toList

/-- Stops a root: the keys under it leave the active set and a stop marker stays, unless the root was stopped
by something at least as new. -/
def stop (t : Tracker) (feed : String) (seq : Nat) : Tracker × Bool :=
  if (t.stopped.find? feed).any (seq ≤ ·) then (t, false)
  else
    let active := t.active.filter fun entry => !isUnder feed entry.1
    ({ active, stopped := t.stopped.put feed seq }, active.length != t.active.length)

/-- Applies an event. The answer says whether the set of active keys changed. -/
def update (t : Tracker) (e : Event) : Tracker × Bool :=
  match e.taskKey with
  | none => (t, false)
  | some key =>
    match e.kind.role with
    | .start => t.note key e true
    | .finish => t.note key e false
    | .outcome => t.stop (root key) e.seq
    | .none => (t, false)

/-- Applies a history of events, in the order of the list. -/
def run (t : Tracker) (events : List Event) : Tracker :=
  events.foldl (fun t e => (t.update e).1) t

/-- The active keys, sorted. -/
def snapshot (t : Tracker) : List String := t.active.keys.mergeSort (fun a b => decide (a ≤ b))

/-- Whether a key is active. -/
def isActive (t : Tracker) (key : String) : Bool := (t.active.find? key).isSome

end Tracker

end Intake
