import Intake.Event
import Intake.Value
/-!
# Log lines

Each event is logged as one line. A feed or a reason that is missing is written as `-` or as an empty
text; any other field that is missing is left out.
-/

namespace Intake

/-- How much a log line matters. -/
inductive LogLevel
  | warn
  | info
  | debug
  | trace
deriving DecidableEq, Repr

/-- One line of the log. -/
structure LogLine where
  level : LogLevel
  message : String
  fields : Fields
deriving Repr

namespace LogLine

/-- A field with a number, left out when there is none. -/
def number (name : String) : Option Nat → Fields
  | none => []
  | some n => [(name, .int n)]

/-- A field with a text, left out when there is none. -/
def words (name : String) : Option String → Fields
  | none => []
  | some s => [(name, .text s)]

/-- The line that tells an event. -/
def ofEvent (e : Event) : LogLine :=
  let feed : Fields := [("feed", .text (e.feed.getD "-"))]
  let reason : Fields := [("reason", .text (e.reason.getD ""))]
  let round := number "round" e.round
  let place := feed ++ round ++ number "partition" e.partition
  match e.kind with
  | .readStarting => ⟨.info, "read starting", number "feeds" e.count⟩
  | .readCompleted => ⟨.info, "read completed", []⟩
  | .readFailed => ⟨.warn, "read failed", number "failed" e.count ++ reason⟩
  | .feedStarting => ⟨.info, "feed starting", feed⟩
  | .feedCompleted => ⟨.info, "feed completed", feed ++ number "rounds" e.round⟩
  | .feedFailed => ⟨.warn, "feed failed", feed ++ reason⟩
  | .feedCancelled => ⟨.warn, "feed cancelled", feed ++ reason⟩
  | .creatorStarting => ⟨.debug, "creator starting", feed ++ round⟩
  | .partitionsCreated => ⟨.debug, "partitions created", feed ++ round ++ number "count" e.count⟩
  | .resourcesUnavailable => ⟨.trace, "resources unavailable", place⟩
  | .partitionReadStarting => ⟨.debug, "partition read starting", place⟩
  | .partitionReadCompleted =>
    ⟨.debug, "partition read completed", place ++ number "records" e.records⟩
  | .partitionReadTimedOut =>
    ⟨.debug, "partition read timed out",
      place ++ number "timeout_ms" e.timeoutMs ++ number "records" e.records⟩
  | .partitionReadFailed => ⟨.warn, "partition read failed", place ++ reason⟩
  | .partitionReadCancelled => ⟨.debug, "partition read cancelled", place ++ reason⟩
  | .checkpointApplied => ⟨.trace, "checkpoint applied", place ++ number "records" e.records⟩
  | .checkpointEmitted => ⟨.debug, "checkpoint emitted", feed ++ round ++ number "count" e.count⟩
  | .subscriberOverflow => ⟨.warn, "subscriber overflow", words "subscriber" e.subscriber ++ reason⟩
  | .subscriberPanicked => ⟨.warn, "subscriber panicked", words "subscriber" e.subscriber ++ reason⟩

end LogLine

end Intake
