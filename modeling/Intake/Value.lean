import Intake.Table
/-!
# Values

States and record fields are data of the connectors: the library carries them and never looks inside.
`Value` is that data, and `Fields` are the top level fields of a record.
-/

namespace Intake

/-- A dynamic value: a connector's state or a field of a record. -/
inductive Value
  | null
  | bool (b : Bool)
  | int (n : Int)
  | text (s : String)
  /-- A point in time, in milliseconds; only decorators make these. -/
  | instant (ms : Nat)
  | list (items : List Value)
  | object (fields : List (String × Value))
deriving Repr, Inhabited

namespace Value

/-- An absent state is written as null. -/
def ofOption : Option Value → Value
  | none => null
  | some v => v

/-- An optional state as a list of at most one value, which keeps "none" and "null" apart. -/
def optional : Option Value → Value
  | none => list []
  | some v => list [v]

end Value

/-- The top level fields of a record, one value per name. -/
abbrev Fields := Table String Value

end Intake
