import Intake.Delivery
import Intake.Read.System
import Intake.Script.Connector
import Intake.Script.Hall
import Intake.Tracker
/-!
# Scripted reads under a clock

A session plays reads, one after the other, with scripted connectors and subscribers. It closes the open
system of `Read.System`: it chooses the moves, gives the answers of the scripts and keeps the time. The
clock stands still while anything can go on and then moves to the next time at which something can. At
one instant every task goes on until it has to wait, then the next task.

All that can be seen of the reads is noted: the messages, the calls on the connectors, the events that a
subscriber with a very long queue receives, and the reports of progress.
-/

namespace Intake.Script

open Intake.Read

/-- Who listens to the events of a read. -/
inductive Listener
  /-- Keeps track of what is running. -/
  | tracker
  /-- Writes log lines. -/
  | log
  /-- Notes all events for the transcript. -/
  | recorder
  | scripted (p : Persona)
deriving Repr

/-- How a listener deals with events. -/
def Listener.persona : Listener → Persona
  | tracker => { name := "ActiveTracker", capacity := 2048 }
  | log => { name := "LogWriter" }
  | recorder => { name := "recorder", capacity := 65536 }
  | scripted p => p

/-- What is played. -/
structure Scenario where
  settings : Settings := {}
  ledger : Ledger
  decorator : Decorator := .plain
  pools : Pools := []
  factories : List Factory := []
  subscribers : List Persona := []
  /-- The reads; each says how long after its start it is cancelled, if it is. -/
  reads : List (Option Nat) := [none]

namespace Scenario

/-- The listeners of each read, in the order in which an event is offered to them. -/
def listeners (c : Scenario) : List Listener :=
  [.tracker, .log, .recorder] ++ c.subscribers.map .scripted

end Scenario

/-- What became of a read. -/
structure Performance where
  /-- When it was over. -/
  time : Nat
  /-- The result; none for a read that did not end in time. -/
  result : Option (Except Fault Unit)
  /-- The state of every feed afterwards. -/
  states : List (Option Value)
  /-- What the tracker takes to be running afterwards. -/
  active : List String

/-- A session: the read that is going on, and what is kept from read to read. -/
structure Session where
  script : Scenario
  now : Nat := 0
  /-- When the read began. -/
  start : Nat := 0
  system : System
  delivery : Delivery
  /-- When each listener is done with the event in hand. -/
  wakes : List Nat
  tracker : Tracker := {}
  pools : Pools
  /-- The number of calls for a key that a factory has had. -/
  made : Table (String × Nat) Nat := []
  /-- The creator of each feed. -/
  creators : Table Nat Creator := []
  /-- The reader of each partition. -/
  readers : Table (Nat × Nat) Reader := []
  /-- When the timer of a task passes. -/
  timers : Table Actor Nat := []
  cancelAt : Option Nat := none
  /-- When the next report of progress is due. -/
  tick : Option Nat := none
  /-- The messages and when they were written, newest first. -/
  messages : List (Nat × Message) := []
  /-- Whether the output was closed. -/
  closed : Bool := false
  /-- The calls on the connectors, newest first: whose, when and what. -/
  calls : List (String × Nat × Call) := []
  /-- The events and when they were received, newest first. -/
  events : List (Nat × Event) := []
  /-- The reports of progress, newest first. -/
  progress : List (Nat × List String) := []
  /-- The reads that are over, newest first. -/
  performances : List Performance := []

/-- Repeats a step until it cannot be made, or the fuel is used up. -/
def exhaust (step : σ → Option σ) : Nat → σ → σ
  | 0, s => s
  | fuel + 1, s =>
    match step s with
    | none => s
    | some s => exhaust step fuel s

namespace Session

/-! ## Notes and effects -/

/-- Notes a call. -/
def note (s : Session) (name : String) (c : Call) : Session :=
  { s with calls := (name, s.now, c) :: s.calls }

/-- The ledger of the read. -/
def ledger (s : Session) : Ledger := s.system.shared.ledger

/-- The creator or reader of a task releases its resources. -/
def release (s : Session) : Actor → Session
  | .feed i =>
    match s.creators.find? i with
    | none => s
    | some c =>
      let (probe, pools) := c.probe.release s.pools
      { s with pools, creators := s.creators.put i { c with probe } }.note c.name .release
  | .partition i j =>
    match s.readers.find? (i, j) with
    | none => s
    | some r =>
      let (probe, pools) := r.probe.release s.pools
      { s with pools, readers := s.readers.put (i, j) { r with probe } }.note r.name .releaseStopped

/-- Brings about an effect. -/
def perform (s : Session) : Effect → Session
  | .publish e => { s with delivery := s.delivery.publish e }
  | .write m => { s with messages := (s.now, m) :: s.messages }
  | .release who => s.release who
  | .timer who d => { s with timers := s.timers.put who (s.now + d.millis) }

/-- Makes a move of the read, with its effects, if it can be made. -/
def move (s : Session) (m : System.Move) : Option Session := do
  let (system, effects) ← s.system.step m
  return effects.foldl perform { s with system }

/-- Resets all slots of a feed. -/
def resetAll (s : Session) (f : Feed) : Option Session :=
  (s.ledger.scopesOf f).foldlM (fun s key => s.move (.reset key)) s

/-- Whether the timer of a task has passed. -/
def due (s : Session) (who : Actor) : Bool := (s.timers.find? who).any (· ≤ s.now)

/-- What an acquisition that does not probe does next: cancellation comes first, then releases, then the
heartbeat. -/
def acquisitionAct? (s : Session) (who : Actor) (cancelled : Bool) (releases : Nat) :
    Acquisition.Phase → Option Act
  | .waiting seen =>
    if cancelled then some .quit
    else if seen < releases then some .go
    else if s.due who then some .elapse
    else none
  | _ => some .go

/-! ## Feeds -/

/-- A factory is asked for a creator. -/
def askFactory (s : Session) (i : Nat) (t : FeedTask) (f : Nat) (factory : Factory) :
    Option Session := do
  let key := feedKey t.feed
  let current := s.ledger.current t.feed
  let call := (s.made.find? (key, f)).getD 0
  let states := s.ledger.feeds.map s.ledger.current
  let s := { s with made := s.made.put (key, f) (call + 1) }.note key (.make f current states)
  match factory.creator? key call current with
  | none => s.move (.feed i (.made .none))
  | some script =>
    match script.makeCrash with
    | some crash => s.move (.feed i (.made (.crashed crash.message)))
    | none =>
      let s ← if script.resets then s.resetAll t.feed else some s
      let bootstrap : Bootstrap := { feed := t.feed, decorator := s.script.decorator }
      let creator := Creator.make s!"{key}#{f}.{call + 1}" script (bootstrap.writers s.ledger s.now)
      { s with creators := s.creators.put i creator }.move (.feed i (.made .creator))

/-- The probe of a creator is asked. -/
def probeCreator (s : Session) (i : Nat) : Option Session := do
  let c ← s.creators.find? i
  let (answer, probe, pools) := c.probe.ask s.pools
  let s := { s with pools, creators := s.creators.put i { c with probe } }
  (s.note c.name (.acquire answer)).move (.feed i (.probe answer))

/-- The readers that a creator gives, in their places. -/
def seatReaders (s : Session) (i : Nat) (c : Creator) : Session :=
  { s with
    readers := c.readers.zipIdx.foldl (fun readers e => readers.put (i, e.2) e.1) s.readers }

/-- A creator begins its run, ends it once it has slept, or is abandoned when the feed is cancelled. -/
def runCreator (s : Session) (i : Nat) (cancelled : Bool) : Option Session := do
  let c ← s.creators.find? i
  match c.wake with
  | none =>
    let c := { c with wake := some (s.now + c.script.sleep) }
    return { s with creators := s.creators.put i c }.note c.name .run
  | some wake =>
    if wake ≤ s.now then
      let answer := c.script.answer
      let s := s.note c.name (.runEnd (.ofCreated answer))
      (s.seatReaders i c).move (.feed i (.created answer))
    else if cancelled then (s.note c.name (.runEnd .dropped)).move (.feed i .quit)
    else none

/-- The task of a feed makes a step, if it can. -/
def stepFeed (i : Nat) (s : Session) : Option Session := do
  let t ← s.system.feeds[i]?
  let cancelled := t.cancelledIn (s.system.feedView i)
  match t.phase with
  | .making f =>
    match s.script.factories[f]? with
    | some factory => s.askFactory i t f factory
    | none => s.move (.feed i .go)
  | .acquiring (.armed _) => s.probeCreator i
  | .acquiring p => s.move (.feed i (← s.acquisitionAct? (.feed i) cancelled t.releases p))
  | .creating => s.runCreator i cancelled
  | .reading _ =>
    match s.move (.feed i .go) with
    | some s => some s
    | none => (List.range t.parts.length).findSome? fun j => s.move (.feed i (.join j))
  | _ => s.move (.feed i .go)

/-! ## Partitions -/

/-- The probe of a reader is asked. -/
def probeReader (s : Session) (i j : Nat) : Option Session := do
  let r ← s.readers.find? (i, j)
  let (answer, probe, pools) := r.probe.ask s.pools
  let s := { s with pools, readers := s.readers.put (i, j) { r with probe } }
  (s.note r.name (.acquire answer)).move (.partition i j (.probe answer))

/-- A reader in another state. -/
def putReader (s : Session) (i j : Nat) (r : Reader) : Session :=
  { s with readers := s.readers.put (i, j) r }

/-- A run ends by itself. -/
def endRun (s : Session) (i j : Nat) (r : Reader) (ran : Ran) : Option Session :=
  (s.note r.name (.runEnd (.ofRan ran))).move (.partition i j (.ran ran))

/-- A run that has begun is abandoned. -/
def dropRun (s : Session) (i j : Nat) (r : Reader) (a : Act) : Option Session :=
  (s.note r.name (.runEnd .dropped)).move (.partition i j a)

/-- A record is written through the writer of its stream. -/
def emitRecord (s : Session) (r : Reader) (id : StreamId) (data : Fields)
    (changes : List (String × ValueChange)) : Option Session :=
  match r.writers.find? id with
  | some w => s.move (.record (w.write data changes))
  | none => some (s.note r.name .noWriter)

/-- A reader plays its next step. -/
def playStep (s : Session) (i j : Nat) (f : Feed) (r : Reader) : Option Session :=
  match r.steps with
  | [] => s.endRun i j r .done
  | step :: rest =>
    let r := { r with steps := rest }
    let s := s.putReader i j r
    match step with
    | .sleep ms => some (s.putReader i j { r with pause := .sleep (s.now + ms) })
    | .progress c => some (s.putReader i j { r with checkpoint := c })
    | .emit id data changes => s.emitRecord r id data changes
    | .close id => some { s with closed := s.closed || (r.writers.find? id).isSome }
    | .fail e => s.endRun i j r (.failed e)
    | .crash c => s.endRun i j r (.crashed c.message)
    | .waitCancel => some (s.putReader i j { r with pause := .cancel })
    | .resetAll => s.resetAll f

/-- Whether the time of a run is over. -/
def overdue (s : Session) (i j : Nat) (limited : Bool) : Bool := limited && s.due (.partition i j)

/-- A reader that runs is polled when it has something to do or its time is over, unless it is cancelled:
then it is abandoned. -/
def runReader (s : Session) (i j : Nat) (cancelled : Bool) (limited : Bool) : Option Session := do
  let r ← s.readers.find? (i, j)
  if cancelled then
    match r.pause with
    | .fresh => s.move (.partition i j .quit)
    | _ => s.dropRun i j r .quit
  else
    match r.pause with
    | .fresh => ((s.putReader i j { r with pause := .none }).note r.name .run).move (.partition i j .go)
    | .none => s.move (.partition i j .go)
    | .sleep wake =>
      if wake ≤ s.now || s.overdue i j limited then s.move (.partition i j .go) else none
    | .cancel => if s.overdue i j limited then s.move (.partition i j .go) else none

/-- A reader that is polled plays its script until it waits; then its time may be over. -/
def pollReader (s : Session) (i j : Nat) (f : Feed) (limited : Bool) : Option Session := do
  let r ← s.readers.find? (i, j)
  let wait : Option Session :=
    if s.overdue i j limited then s.dropRun i j r .elapse else s.move (.partition i j .go)
  match r.pause with
  | .sleep wake => if wake ≤ s.now then some (s.putReader i j { r with pause := .none }) else wait
  | .cancel => wait
  | _ => s.playStep i j f r

/-- A reader is asked for its progress. -/
def saveReader (s : Session) (i j : Nat) : Option Session := do
  let r ← s.readers.find? (i, j)
  (s.note r.name (.checkpoint r.checkpoint)).move (.partition i j (.saved r.saved))

/-- The task of a partition makes a step, if it can. -/
def stepPartition (i j : Nat) (s : Session) : Option Session := do
  let t ← s.system.feeds[i]?
  let p ← t.parts[j]?
  let v := t.partView (s.system.feedView i) j p
  match p.phase with
  | .queued => s.move (.partition i j (if v.cancelled then .quit else .go))
  | .acquiring (.armed _) => s.probeReader i j
  | .acquiring phase =>
    s.move (.partition i j (← s.acquisitionAct? v.actor v.cancelled v.releases phase))
  | .running => s.runReader i j v.cancelled (p.limit v).isSome
  | .polling => s.pollReader i j t.feed (p.limit v).isSome
  | .saving _ => s.saveReader i j
  | _ => s.move (.partition i j .go)

/-! ## Listeners -/

/-- What a listener does with an event that it has handled. -/
def hear (s : Session) (e : Event) : Listener → Session
  | .tracker => { s with tracker := (s.tracker.update e).1 }
  | .recorder => { s with events := (s.now, e) :: s.events }
  | .log => s
  | .scripted _ => s

/-- A listener begins with its next event or ends with the one in hand, if it can. -/
def stepListener (s : Session) (i : Nat) (listener : Listener) : Option Session := do
  let subscriber ← s.delivery.audience[i]?
  let persona := listener.persona
  match subscriber.hand with
  | some e =>
    if s.wakes.getD i 0 ≤ s.now then
      let delivery ← s.delivery.step (.finish i (persona.handling e))
      return { s with delivery }.hear e listener
    else none
  | none =>
    let delivery ← s.delivery.step (.take i)
    let dies := ((delivery.audience[i]?).bind (·.hand)).any (persona.dieOn.contains ·.kind)
    match (if dies then delivery.step (.die i) else none) with
    | some delivery => return { s with delivery }
    | none => return { s with delivery, wakes := s.wakes.set i (s.now + persona.delay) }

/-- The delivery of events makes a step, if it can. -/
def stepDelivery (s : Session) : Option Session :=
  match [Delivery.Move.offer, .receive, .turn, .close].findSome? s.delivery.step with
  | some delivery => some { s with delivery }
  | none => s.script.listeners.zipIdx.findSome? fun e => s.stepListener e.2 e.1

/-! ## The clock -/

/-- The supervisor makes a step; when the read has its result, the delivery of events is stopped. -/
def stepSupervisor (s : Session) : Option Session :=
  match s.system.result? with
  | none => s.move .supervise
  | some _ =>
    if s.delivery.stopping then none
    else do return { s with delivery := ← s.delivery.step .stop, tick := none }

/-- The read is cancelled when it is time. -/
def stepCancel (s : Session) : Option Session := do
  let time ← s.cancelAt
  if time ≤ s.now then ({ s with cancelAt := none } : Session).move .cancel else none

/-- Progress is reported when it is time. -/
def stepTick (s : Session) : Option Session := do
  let time ← s.tick
  let period ← s.script.settings.progressPeriod
  if time ≤ s.now then
    return { s with
      progress := (s.now, s.tracker.snapshot) :: s.progress
      tick := some (time + period.millis) }
  else none

/-- All that can go on, each as the step that it can make. -/
def workers (s : Session) : List (Session → Option Session) :=
  [stepCancel, stepSupervisor, stepDelivery] ++
    (s.system.feeds.zipIdx.flatMap fun (t, i) =>
      stepFeed i :: (List.range t.parts.length).map fun j => stepPartition i j) ++
    [stepTick]

/-- Everyone in turn goes on until they have to wait, and what they publish is delivered; the answer says
whether anyone went on. -/
def sweep (fuel : Nat) (s : Session) : Session × Bool :=
  s.workers.foldl
    (fun (p : Session × Bool) step =>
      match step p.1 with
      | none => p
      | some s => (exhaust stepDelivery fuel (exhaust step fuel s), true))
    (s, false)

/-- When a reader wants to go on. -/
def readerTime? (r : Reader) : Option Nat :=
  match r.pause with
  | .sleep time => some time
  | _ => none

/-- The times at which something may be able to go on. -/
def times (s : Session) : List Nat :=
  s.cancelAt.toList ++ s.tick.toList ++ s.timers.map Prod.snd ++ s.wakes ++
    s.creators.filterMap (·.2.wake) ++ s.readers.filterMap fun e => readerTime? e.2

/-- The next such time. -/
def nextTime? (s : Session) : Option Nat := (s.times.filter (s.now < ·)).min?

/-- Milliseconds after which a read that has not ended is given up. -/
def patience : Nat := 100000

/-- Whether the read is over: its result has been given and all events have been handled. -/
def finished (s : Session) : Bool := s.delivery.listening == .done

/-- Plays the read that has been begun until it is over, is given up, or the fuel is used up. -/
def play : Nat → Session → Session
  | 0, s => s
  | fuel + 1, s =>
    match s.sweep fuel with
    | (s, true) => play fuel s
    | (s, false) =>
      if s.finished then s
      else
        let limit := s.start + patience
        match s.nextTime?.filter (· ≤ limit) with
        | some time => play fuel { s with now := time }
        | none => { s with now := limit }

/-! ## Reads -/

/-- The listeners at the beginning of a read, on a new ring. -/
def openDelivery (c : Scenario) (nextSeq : Nat) : Delivery where
  ring := .ofCapacity c.settings.busCapacityInForce
  nextSeq
  audience := c.listeners.map fun l => l.persona.subscriber

/-- Begins a read. The ledger, the pools, the tracker and the numbers of events and calls go on from the
read before. -/
def begin (s : Session) (cancelAfter : Option Nat) : Session :=
  { s with
    start := s.now
    system := .start s.script.settings s.script.factories.length s.ledger
    delivery := openDelivery s.script s.delivery.nextSeq
    wakes := s.script.listeners.map fun _ => 0
    creators := []
    readers := []
    timers := []
    cancelAt := cancelAfter.map (s.now + ·)
    tick := s.script.settings.progressPeriod.map (s.now + ·.millis) }

/-- Notes what became of a read. -/
def close (s : Session) : Session :=
  { s with
    performances :=
      { time := s.now
        result := if s.finished then s.system.result? else none
        states := s.ledger.feeds.map s.ledger.current
        active := s.tracker.snapshot } :: s.performances }

/-- Plays reads one after the other, up to the first that is given up. -/
def playAll (fuel : Nat) : List (Option Nat) → Session → Session
  | [], s => s
  | cancelAfter :: rest, s =>
    let s := (play fuel (s.begin cancelAfter)).close
    if s.finished then playAll fuel rest s else s

/-- A session before its first read. -/
def ofScenario (c : Scenario) : Session where
  script := c
  system := .start c.settings c.factories.length c.ledger
  delivery := openDelivery c 0
  wakes := []
  pools := c.pools

end Session

/-- Plays a whole scenario. -/
def Scenario.play (fuel : Nat) (c : Scenario) : Session :=
  Session.playAll fuel c.reads (.ofScenario c)

end Intake.Script
