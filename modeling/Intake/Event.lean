import Intake.Settings
/-!
# Events

Whatever happens in a read is told by an event: its kind, and as far as they apply the feed, the round,
the partition, counts, a reason. Events carry sequence numbers, which grow in the order in which events
are made. `Event.taskKey` names the task an event is about: `feed`, `feed/round` or
`feed/round/partition`.
-/

namespace Intake

/-- What an event tells. -/
inductive EventKind
  | subscriberPanicked
  | subscriberOverflow
  | readStarting
  | readCompleted
  | readFailed
  | feedStarting
  | feedCompleted
  | feedFailed
  | feedCancelled
  | creatorStarting
  | partitionsCreated
  | resourcesUnavailable
  | partitionReadStarting
  | partitionReadCompleted
  | partitionReadTimedOut
  | partitionReadFailed
  | partitionReadCancelled
  | checkpointApplied
  | checkpointEmitted
deriving DecidableEq, Repr, Inhabited

/-- Something that happened. -/
structure Event where
  kind : EventKind
  seq : Nat := 0
  feed : Option String := none
  round : Option Nat := none
  partition : Option Nat := none
  records : Option Nat := none
  count : Option Nat := none
  /-- A timeout in milliseconds, in 32 bits. -/
  timeoutMs : Option Nat := none
  reason : Option String := none
  subscriber : Option String := none
deriving DecidableEq, Repr, Inhabited

namespace Event

/-- The greatest timeout an event can carry. -/
def timeoutLimit : Nat := 4294967295

/-- The event with a timeout: whole milliseconds, cut off at `timeoutLimit`. -/
def withTimeout (e : Event) (d : Duration) : Event :=
  { e with timeoutMs := some (min d.millis timeoutLimit) }

/-- A subscriber missed an event, because its queue was full or closed. -/
def overflow (subscriber reason : String) : Event :=
  { kind := .subscriberOverflow
    reason := some ("subscriber=" ++ subscriber ++ " reason=" ++ reason)
    subscriber := some subscriber }

/-- A subscriber crashed on an event. -/
def subscriberCrash (subscriber info : String) : Event :=
  { kind := .subscriberPanicked
    reason := some info
    subscriber := some subscriber }

/-- Whether the event tells of a missed event. -/
def isOverflow (e : Event) : Bool := e.kind == .subscriberOverflow

/-- Whether the event tells of a crashed subscriber. -/
def isSubscriberCrash (e : Event) : Bool := e.kind == .subscriberPanicked

/-- The task an event is about. A partition without a round says nothing. -/
def taskKey (e : Event) : Option String :=
  match e.feed, e.round, e.partition with
  | none, _, _ => none
  | some feed, some round, some partition =>
    some (feed ++ "/" ++ toString round ++ "/" ++ toString partition)
  | some feed, some round, none => some (feed ++ "/" ++ toString round)
  | some feed, none, _ => some feed

end Event

end Intake
