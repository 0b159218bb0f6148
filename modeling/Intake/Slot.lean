import Intake.Value
/-!
# Slots

A slot holds the progress of one stream, or the shared progress of the global feed. `set` and `reset`
write what is pending; `swap` makes the pending value current and hands it out with the number of
records set since, if anything is pending. The number stops at `recordLimit`.
-/

namespace Intake

/-- The greatest number of records that is counted. -/
def recordLimit : Nat := 18446744073709551615

/-- Adds two numbers of records, stopping at the limit. -/
def addRecords (a b : Nat) : Nat := min (a + b) recordLimit

/-- The progress of one stream, or the shared progress of the global feed. -/
structure Slot where
  /-- The value last handed out, or the initial one. -/
  current : Option Value := none
  /-- The value last set, or none after a reset. -/
  latest : Option Value := none
  /-- Whether there was a set or a reset since the last swap. -/
  pending : Bool := false
  /-- The number of records set since the last swap or reset. -/
  records : Nat := 0
deriving Repr, Inhabited

namespace Slot

/-- A slot that starts at a known state. -/
def start (initial : Option Value) : Slot := { current := initial, latest := initial }

/-- Notes a new state and the records that led to it. -/
def set (s : Slot) (state : Value) (records : Nat) : Slot :=
  { s with latest := some state, pending := true, records := addRecords s.records records }

/-- Forgets everything; that there is no state any more is itself pending. -/
def reset (_ : Slot) : Slot := { current := none, latest := none, pending := true, records := 0 }

/-- What a slot hands out. -/
structure Report where
  state : Option Value
  records : Nat

/-- Makes the pending value current and hands it out. When nothing is pending the slot stays as it is
and has nothing to hand out. -/
def swap (s : Slot) : Slot × Option Report :=
  if s.pending then
    ({ s with current := s.latest, pending := false, records := 0 }, some ⟨s.latest, s.records⟩)
  else (s, none)

end Slot

end Intake
