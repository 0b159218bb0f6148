import Intake.Event
/-!
# The ring of events

Events are published on a ring that holds the last `size` of them. A receiver is a position, the number
of events published before the next one it will take. A receiver that has fallen out of the ring is told
once how many events it missed and goes on with the oldest event held.

The ring keeps the history of all events published and reads it through a window, so that a position
means the same at all times. `Ring.receive_eq` says what a receiver gets in terms of the history.
-/

namespace Intake

/-- The events published so far and the number of them that are held. -/
structure Ring where
  size : Nat
  /-- All events published, newest first. -/
  log : List Event := []
  /-- Their number. -/
  sent : Nat := 0
  sent_eq : sent = log.length := by rfl

instance : Inhabited Ring := ⟨{ size := 1 }⟩

/-- What a receiver gets. -/
inductive Reception
  /-- There is nothing to take. -/
  | empty
  | event (e : Event)
  /-- The number of events missed. -/
  | lagged (missed : Nat)
deriving Repr

namespace Ring

/-- A ring of a capacity: at least one, rounded up to a power of two. -/
def ofCapacity (capacity : Nat) : Ring := { size := (max capacity 1).nextPowerOfTwo }

/-- All events published, in the order of publication. -/
def history (r : Ring) : List Event := r.log.reverse

/-- Publishes an event. -/
def publish (r : Ring) (e : Event) : Ring where
  size := r.size
  log := e :: r.log
  sent := r.sent + 1
  sent_eq := by simp [r.sent_eq]

/-- The position of a receiver that sees only later events. -/
def subscribe (r : Ring) : Nat := r.sent

/-- The position of the oldest event held. -/
def oldest (r : Ring) : Nat := r.sent - r.size

/-- The event at a position. -/
def event? (r : Ring) (position : Nat) : Option Event :=
  if position < r.sent then r.log[r.sent - 1 - position]? else none

/-- Takes the next event at a position, if there is one. -/
def receive (r : Ring) (position : Nat) : Reception × Nat :=
  if position < r.oldest then (.lagged (r.oldest - position), r.oldest)
  else
    match r.event? position with
    | none => (.empty, position)
    | some e => (.event e, position + 1)

/-! ## The history -/

@[simp] theorem history_ofCapacity (capacity : Nat) : (ofCapacity capacity).history = [] := rfl

@[simp] theorem history_publish (r : Ring) (e : Event) : (r.publish e).history = r.history ++ [e] := by
  simp [history, publish]

theorem sent_eq_length (r : Ring) : r.sent = r.history.length := by
  simp [history, r.sent_eq]

theorem event?_eq (r : Ring) (position : Nat) : r.event? position = r.history[position]? := by
  unfold event? history
  split
  · rename_i h
    rw [List.getElem?_reverse (by have := r.sent_eq; omega), r.sent_eq]
  · rename_i h
    have : r.log.reverse.length ≤ position := by
      have := r.sent_eq
      simp
      omega
    simp [List.getElem?_eq_none this]

/-- What a receiver gets: news that it fell behind, the event of the history at its position, or
nothing. -/
theorem receive_eq (r : Ring) (position : Nat) :
    r.receive position =
      if position < r.history.length - r.size then
        (.lagged (r.history.length - r.size - position), r.history.length - r.size)
      else
        match r.history[position]? with
        | none => (.empty, position)
        | some e => (.event e, position + 1) := by
  simp only [receive, oldest, event?_eq, sent_eq_length]

end Ring

end Intake
