import Intake.Fanout
import Intake.Ring
/-!
# Delivery of events

During a read one listener takes the events off the ring and offers each of them to every subscriber.
Refusals and crashes of subscribers are published on the same ring. When the read is over the listener is
told to stop: it takes what is left on the ring, closes the queues and waits until every subscriber has
handled what it has.

`Delivery.step` makes one move. Who publishes, when the listener and the subscribers go on, and how a
subscriber handles an event are moves, so that a list of moves is one way things can go.
-/

namespace Intake

/-- What the listener is about to do. -/
inductive Listening
  /-- Takes events as they come. -/
  | receiving
  /-- Was told to stop and takes what is left. -/
  | draining
  /-- Has closed the queues and waits for the subscribers. -/
  | closing
  | done
deriving DecidableEq, Repr, Inhabited

/-- The ring, the listener and the subscribers of a read. -/
structure Delivery where
  ring : Ring
  /-- The sequence number of the next event. -/
  nextSeq : Nat := 0
  listening : Listening := .receiving
  /-- The position of the listener on the ring. -/
  position : Nat := 0
  /-- Whether the listener has been told to stop. -/
  stopping : Bool := false
  /-- The event that is being offered, and the next subscriber to offer it to. -/
  offering : Option (Event × Nat) := none
  audience : Audience := []
deriving Inhabited

namespace Delivery

/-- One move. -/
inductive Move
  | publish (e : Event)
  /-- The listener is told to stop. -/
  | stop
  /-- The listener takes from the ring. -/
  | receive
  /-- The listener offers the event it has taken to the next subscriber. -/
  | offer
  /-- The listener finds nothing on the ring and goes on to the next stage. -/
  | turn
  /-- The listener sees that all subscribers are idle. -/
  | close
  /-- A subscriber begins with its next event. -/
  | take (i : Nat)
  /-- A subscriber is done with its event. -/
  | finish (i : Nat) (h : Handling)
  /-- A subscriber dies over its event. -/
  | die (i : Nat)
deriving DecidableEq, Repr

/-- Publishes an event under the next sequence number. -/
def publish (d : Delivery) (e : Event) : Delivery :=
  { d with ring := d.ring.publish { e with seq := d.nextSeq }, nextSeq := d.nextSeq + 1 }

/-- Publishes events in order. -/
def publishAll (d : Delivery) (l : List Event) : Delivery := l.foldl publish d

/-- Whether the listener takes events off the ring. -/
def receives (d : Delivery) : Bool :=
  match d.listening with
  | .receiving => true
  | .draining => true
  | .closing => false
  | .done => false

/-- Makes a move, if it can be made. -/
def step (d : Delivery) : Move → Option Delivery
  | .publish e => some (d.publish e)
  | .stop => some { d with stopping := true }
  | .receive =>
    if d.receives && d.offering.isNone then
      match d.ring.receive d.position with
      | (.empty, _) => none
      | (.lagged _, position) => some { d with position }
      | (.event e, position) => some { d with position, offering := some (e, 0) }
    else none
  | .offer =>
    match d.offering with
    | none => none
    | some (e, i) =>
      if i < d.audience.length then
        let (audience, published) := d.audience.offerTo i e
        some ({ d with audience, offering := some (e, i + 1) }.publishAll published)
      else some { d with offering := none }
  | .turn =>
    match d.offering, d.listening, d.ring.receive d.position with
    | none, .receiving, (.empty, _) => if d.stopping then some { d with listening := .draining } else none
    | none, .draining, (.empty, _) => some { d with listening := .closing }
    | _, _, _ => none
  | .close =>
    if d.listening = .closing ∧ d.audience.all Subscriber.idle then
      some { d with listening := .done }
    else none
  | .take i => do
    let s ← d.audience[i]?
    let s ← s.take
    return { d with audience := d.audience.set i s }
  | .finish i h => do
    let s ← d.audience[i]?
    let (s, published) ← s.finish h
    return { d with audience := d.audience.set i s }.publishAll published
  | .die i => do
    let s ← d.audience[i]?
    let s ← s.die
    return { d with audience := d.audience.set i s }

/-- Makes a list of moves, if each of them can be made in its turn. -/
def run (d : Delivery) (moves : List Move) : Option Delivery := moves.foldlM step d

end Delivery

end Intake
