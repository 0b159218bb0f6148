import Intake.Fanout
import Intake.Fault
/-!
# Scripted subscribers

A scripted subscriber takes a fixed time over each event and crashes or dies over events of given kinds.
`Hall` is an audience of scripted subscribers under a clock that moves only when it is told to: events
are offered at an instant, and waiting lets the subscribers work.
-/

namespace Intake.Script

/-- What a subscriber does with events. -/
structure Persona where
  name : String
  capacity : Nat := 1024
  /-- Milliseconds that an event takes. -/
  delay : Nat := 0
  /-- The kinds of events over which it crashes, after the delay, and goes on. -/
  crashOn : List EventKind := []
  /-- The kinds of events over which it dies at once. -/
  dieOn : List EventKind := []
  crash : Crash := .silent
deriving Repr, Inhabited

namespace Persona

/-- The subscriber at the beginning. -/
def subscriber (p : Persona) : Subscriber := { name := p.name, capacity := p.capacity }

/-- How the subscriber ends with an event. -/
def handling (p : Persona) (e : Event) : Handling :=
  if p.crashOn.contains e.kind then .crashed p.crash.message else .done

end Persona

/-- A scripted subscriber at work. -/
structure Seat where
  persona : Persona
  subscriber : Subscriber
  /-- When the event in hand is done. -/
  wake : Nat := 0
  /-- The events handled without a crash and when, newest first. -/
  seen : List (Nat × Event) := []
deriving Inhabited

namespace Seat

/-- A seat at the beginning. -/
def ofPersona (p : Persona) : Seat := { persona := p, subscriber := p.subscriber }

/-- Begins with the next event or ends with the one in hand, if it can; the answer has the events to
publish. -/
def advance (now : Nat) (s : Seat) : Option (Seat × List Event) :=
  match s.subscriber.hand with
  | some e =>
    if now < s.wake then none
    else
      match s.subscriber.finish (s.persona.handling e) with
      | none => none
      | some (subscriber, published) =>
        let seen := if published.isEmpty then (now, e) :: s.seen else s.seen
        some ({ s with subscriber, seen }, published)
  | none =>
    match s.subscriber.take with
    | none => none
    | some subscriber =>
      let dies := subscriber.hand.any fun e => s.persona.dieOn.contains e.kind
      match (if dies then subscriber.die else none) with
      | some dead => some ({ s with subscriber := dead }, [])
      | none => some ({ s with subscriber, wake := now + s.persona.delay }, [])

/-- Goes on at one instant until nothing is left to do; each event takes two steps. -/
def settle (now : Nat) : Nat → Seat → Seat × List Event
  | 0, s => (s, [])
  | fuel + 1, s =>
    match s.advance now with
    | none => (s, [])
    | some (s, published) =>
      let (s, more) := settle now fuel s
      (s, published ++ more)

/-- When the seat wants to go on, if it is busy. -/
def due? (s : Seat) : Option Nat := s.subscriber.hand.map fun _ => s.wake

/-- The steps that are enough to handle everything a seat has. -/
def work (s : Seat) : Nat := 2 * s.subscriber.queue.length + 2

end Seat

/-- An audience of scripted subscribers and the time. -/
structure Hall where
  now : Nat := 0
  seats : List Seat := []
deriving Inhabited

namespace Hall

/-- A hall at the beginning. -/
def ofPersonas (l : List Persona) : Hall := { seats := l.map .ofPersona }

/-- Lets every subscriber work at this instant. -/
def settle (h : Hall) : Hall × List Event :=
  let done := h.seats.map fun s => s.settle h.now s.work
  ({ h with seats := done.map Prod.fst }, done.flatMap Prod.snd)

/-- The next time at which a busy subscriber is done. -/
def nextDue? (h : Hall) : Option Nat := (h.seats.filterMap Seat.due?).min?

/-- Lets the subscribers work until `limit`, or with no limit until they are idle. -/
def work (limit : Option Nat) : Nat → Hall → Hall × List Event
  | 0, h => (h, [])
  | fuel + 1, h =>
    let (h, published) := h.settle
    match h.nextDue? with
    | none => (h, published)
    | some due =>
      if limit.any (· < due) then (h, published)
      else
        let (h, more) := work limit fuel { h with now := due }
        (h, published ++ more)

/-- The rounds of work that are enough to handle everything in the queues. -/
def effort (h : Hall) : Nat := h.seats.foldr (fun seat n => seat.work + n) 1

/-- Sorts events by the subscriber they name; events of one subscriber keep their order. -/
def bySubscriber (l : List Event) : List Event :=
  l.mergeSort fun a b => decide (a.subscriber.getD "" ≤ b.subscriber.getD "")

/-- Offers an event to every subscriber at this instant, without letting any of them work. -/
def emit (h : Hall) (e : Event) : Hall × List Event :=
  let (audience, published) := Audience.emit (h.seats.map Seat.subscriber) e
  ({ h with seats := h.seats.zipWith (fun s subscriber => { s with subscriber }) audience }, published)

/-- Offers an event several times, under growing sequence numbers. -/
def emitMany (h : Hall) (e : Event) (times : Nat) : Hall × List Event :=
  (List.range times).foldl
    (fun (p : Hall × List Event) i =>
      let (h, published) := p.1.emit { e with seq := e.seq + i }
      (h, p.2 ++ published))
    (h, [])

/-- Lets time pass. -/
def wait (h : Hall) (ms : Nat) : Hall × List Event :=
  let limit := h.now + ms
  let (h, published) := h.work (some limit) h.effort
  ({ h with now := limit }, bySubscriber published)

/-- Waits until every subscriber has handled what it has. -/
def shutdown (h : Hall) : Hall × List Event :=
  let (h, published) := h.work none h.effort
  (h, bySubscriber published)

end Hall

end Intake.Script
