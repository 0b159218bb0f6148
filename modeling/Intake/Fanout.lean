import Intake.Event
/-!
# Fan-out to subscribers

Every subscriber has a bounded queue and handles the events in it one after the other. Offering an event
never waits: a queue that is full or closed refuses it. A refusal is published as an overflow event,
unless the refused event is itself one. A subscriber that crashes while it handles an event goes on, and
the crash is published; a subscriber that dies takes no more events and closes its queue.
-/

namespace Intake

/-- Why a queue refuses an event. -/
inductive Refusal
  | full
  | closed
deriving DecidableEq, Repr

/-- The word for a refusal. -/
def Refusal.word : Refusal → String
  | full => "full"
  | closed => "closed"

/-- How the handling of an event ended. -/
inductive Handling
  | done
  | crashed (message : String)
deriving DecidableEq, Repr

/-- A subscriber with its queue. -/
structure Subscriber where
  name : String
  capacity : Nat
  /-- The events that wait, oldest first. -/
  queue : List Event := []
  /-- The event that is being handled. -/
  hand : Option Event := none
  /-- Whether the subscriber is dead and its queue closed. -/
  closed : Bool := false
deriving Repr, Inhabited

namespace Subscriber

/-- The room of the queue: at least one event. -/
def room (s : Subscriber) : Nat := max s.capacity 1

/-- Offers an event to the queue. -/
def offer (s : Subscriber) (e : Event) : Subscriber × Option Refusal :=
  if s.closed then (s, some .closed)
  else if s.queue.length < s.room then ({ s with queue := s.queue ++ [e] }, none)
  else (s, some .full)

/-- What is published when an event is refused. -/
def report (s : Subscriber) (e : Event) : Option Refusal → List Event
  | none => []
  | some r => if e.isOverflow then [] else [Event.overflow s.name r.word]

/-- Begins with the next event of the queue. -/
def take (s : Subscriber) : Option Subscriber :=
  match s.closed, s.hand, s.queue with
  | false, none, e :: rest => some { s with hand := some e, queue := rest }
  | _, _, _ => none

/-- Ends the handling of the event in hand; the answer has the events to publish. -/
def finish (s : Subscriber) (h : Handling) : Option (Subscriber × List Event) :=
  match s.hand with
  | none => none
  | some _ =>
    some ({ s with hand := none },
      match h with
      | .done => []
      | .crashed message => [Event.subscriberCrash s.name message])

/-- Dies over the event in hand; what waits in the queue is lost. -/
def die (s : Subscriber) : Option Subscriber :=
  match s.hand with
  | none => none
  | some _ => some { s with hand := none, queue := [], closed := true }

/-- Whether nothing waits and nothing is being handled. -/
def idle (s : Subscriber) : Bool := s.hand.isNone && s.queue.isEmpty

end Subscriber

/-- The subscribers, in the order in which they are offered an event. -/
abbrev Audience := List Subscriber

namespace Audience

/-- Offers an event to one subscriber; the answer has the events to publish. -/
def offerTo (a : Audience) (i : Nat) (e : Event) : Audience × List Event :=
  match a[i]? with
  | none => (a, [])
  | some s =>
    let (s', refusal) := s.offer e
    (a.set i s', s.report e refusal)

/-- Offers an event to every subscriber, in order. -/
def emit (a : Audience) (e : Event) : Audience × List Event :=
  (List.range a.length).foldl
    (fun (p : Audience × List Event) i =>
      let (a, published) := p.1.offerTo i e
      (a, p.2 ++ published))
    (a, [])

end Audience

end Intake
