import Intake.Message
/-!
# Writing records

A writer makes the records of one stream. Its base record has every field of the schema as null and is
decorated at most when the writer is made. Each record has exactly the keys of the base record: a key
takes the value that the record provides, null included, and else the value of the base record; keys
that the base record does not have are dropped.
-/

namespace Intake

/-- Adds fields of the source to the base record of a stream. -/
structure Decorator where
  /-- The cursor that all streams of the source share, if there is one. -/
  cursor : Option String := none
  /-- Changes the base record, given the time of emission, the state of the global feed and the
  stream. -/
  decorate : Nat → Option Value → Stream → Fields → Fields

namespace Decorator

/-- The decorator that adds nothing. -/
def plain : Decorator := { decorate := fun _ _ _ fields => fields }

end Decorator

/-- Writes the records of one stream. -/
structure RecordWriter where
  stream : Stream
  /-- When the writer was made, in milliseconds; all its records carry this time. -/
  emittedAt : Nat
  /-- The base record. -/
  base : Fields

namespace RecordWriter

/-- The record of a schema with every field null. -/
def blank (schema : List String) : Fields :=
  schema.foldl (fun fields name => fields.put name .null) []

/-- A writer with a blank base record. -/
def make (stream : Stream) (now : Nat) : RecordWriter :=
  { stream, emittedAt := now, base := blank stream.schema }

/-- The writer with its base record decorated. -/
def decorated (w : RecordWriter) (d : Decorator) (globalState : Option Value) : RecordWriter :=
  { w with base := d.decorate w.emittedAt globalState w.stream w.base }

/-- The base record with the values that a record provides. -/
def fill (base data : Fields) : Fields :=
  base.map fun entry => (entry.1, (data.find? entry.1).getD entry.2)

/-- The message of a record, given what happened to the values of some fields. An empty list of changes is
no list. -/
def write (w : RecordWriter) (data : Fields) (changes : List (String × ValueChange)) : RecordMessage :=
  { stream := w.stream.id
    emittedAt := w.emittedAt
    data := fill w.base data
    changes := if changes.isEmpty then none else some (changes.map fun c => .of c.1 c.2) }

end RecordWriter

end Intake
