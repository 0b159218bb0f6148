import Intake.RecordWriter
/-!
# Scripted decorators

A decorator given by data: which fields of the base record it removes and which it puts in.
-/

namespace Intake.Script

/-- What a scripted decorator does, in the order of its fields. -/
structure Decoration where
  /-- The cursor that all streams share. -/
  cursor : Option String := none
  /-- Fields to remove. -/
  remove : List String := []
  /-- Fields to put in, with their values. -/
  set : Fields := []
  /-- The field for the stream's label. -/
  streamField : Option String := none
  /-- The field for the state of the global feed. -/
  globalField : Option String := none
  /-- The field for the time of emission. -/
  emittedField : Option String := none

namespace Decoration

/-- Puts a value under an optional name. -/
def putAt (fields : Fields) (name : Option String) (v : Value) : Fields :=
  match name with
  | none => fields
  | some name => fields.put name v

/-- The decorator of a script. -/
def decorator (d : Decoration) : Decorator where
  cursor := d.cursor
  decorate now globalState stream fields :=
    let fields := d.remove.foldl Table.erase fields
    let fields := d.set.foldl (fun fields entry => fields.put entry.1 entry.2) fields
    let fields := putAt fields d.streamField (.text stream.id.label)
    let fields := putAt fields d.globalField (.optional globalState)
    putAt fields d.emittedField (.instant now)

end Decoration

end Intake.Script
