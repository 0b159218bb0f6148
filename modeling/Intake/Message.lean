import Intake.Feed
import Intake.Value
/-!
# Messages

What a read writes to its output: records, states and status traces of streams.
-/

namespace Intake

/-- What was done to a value of a record. -/
inductive Alteration
  | nulled
  | truncated
deriving DecidableEq, Repr

/-- Why a value of a record was altered. -/
inductive AlterationReason
  | recordSize
  | fieldSize
  | serialization
  | retrieval
deriving DecidableEq, Repr

/-- What happened to a value on its way out of the source. -/
inductive ValueChange
  | recordSizeErasure
  | recordSizeTruncation
  | fieldSizeErasure
  | fieldSizeTruncation
  | deserializationTotal
  | deserializationPartial
  | retrievalTotal
  | retrievalPartial
deriving DecidableEq, Repr

namespace ValueChange

/-- An erasure or a total failure leaves null in place of the value; anything else leaves a part of it. -/
def change : ValueChange → Alteration
  | recordSizeErasure => .nulled
  | recordSizeTruncation => .truncated
  | fieldSizeErasure => .nulled
  | fieldSizeTruncation => .truncated
  | deserializationTotal => .nulled
  | deserializationPartial => .truncated
  | retrievalTotal => .nulled
  | retrievalPartial => .truncated

def reason : ValueChange → AlterationReason
  | recordSizeErasure => .recordSize
  | recordSizeTruncation => .recordSize
  | fieldSizeErasure => .fieldSize
  | fieldSizeTruncation => .fieldSize
  | deserializationTotal => .serialization
  | deserializationPartial => .serialization
  | retrievalTotal => .retrieval
  | retrievalPartial => .retrieval

end ValueChange

/-- One altered field of a record. -/
structure FieldChange where
  field : String
  change : Alteration
  reason : AlterationReason
deriving DecidableEq, Repr

/-- A field is altered as what happened to its value says. -/
def FieldChange.of (field : String) (c : ValueChange) : FieldChange :=
  { field, change := c.change, reason := c.reason }

/-- A record of a stream. -/
structure RecordMessage where
  stream : StreamId
  /-- When the writer of the record was made, in milliseconds. -/
  emittedAt : Nat
  data : Fields
  /-- The altered fields; none when nothing was altered. -/
  changes : Option (List FieldChange) := none
deriving Repr

/-- A state: of one stream, or of the global feed with all its streams. -/
inductive StateMessage
  | stream (id : StreamId) (state : Value) (records : Nat)
  | global (shared : Value) (states : List (StreamId × Value)) (records : Nat)
deriving Repr

namespace StateMessage

/-- How many records a state stands for. -/
def records : StateMessage → Nat
  | stream _ _ n => n
  | global _ _ n => n

/-- Whether the message is about the global feed. -/
def isGlobal : StateMessage → Bool
  | stream .. => false
  | global .. => true

end StateMessage

/-- What a trace says of a stream. -/
inductive Verdict
  | started
  | complete
  | incomplete
deriving DecidableEq, Repr

/-- A change in the life of a stream. -/
structure Trace where
  stream : StreamId
  verdict : Verdict
deriving DecidableEq, Repr

/-- What a read writes. -/
inductive Message
  | record (r : RecordMessage)
  | state (s : StateMessage)
  | trace (t : Trace)
deriving Repr

end Intake
