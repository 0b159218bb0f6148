import Intake.Board
import Intake.Ledger
import Intake.Read.Partition
/-!
# The task of a feed

A feed is read in rounds. In each round a factory makes a creator, the creator acquires its resources
and makes the readers of the round, and their partitions run (`Round`). Then what is pending in the
ledger is handed out, and the next round begins. The feed has come to its end when a creator makes no
reader. The streams of the feed are said to start when the first creator has its resources, and to stop
when the task ends, whichever way it ends.

All feeds share the ledger and the board (`Shared`). Handing out is done under a lock, slot by slot and
message by message, and a notice to the board is given stream by stream: between any two of these steps
other tasks may go on.
-/

namespace Intake.Read

/-- What all feeds share. -/
structure Shared where
  ledger : Ledger
  board : Board
  /-- Whether some feed is handing out. -/
  locked : Bool := false
deriving Inhabited

/-- How a round ended. -/
inductive RoundEnd
  /-- There was nothing to read. -/
  | last
  /-- All partitions ended well. -/
  | more
  | failed (e : Fault)
deriving Repr

namespace FeedTask

/-- Where the task of a feed stands. -/
inductive Phase
  /-- Has not begun. -/
  | asleep
  /-- Asks the factory of an index for a creator. -/
  | making (factory : Nat)
  /-- The creator acquires. -/
  | acquiring (p : Acquisition.Phase)
  /-- Says that its streams start. -/
  | starting (left : List StreamId)
  /-- Is about to let the creator run. -/
  | opening
  /-- The creator runs. -/
  | creating
  /-- Is about to release the resources of the creator. -/
  | releasing (r : Except Fault (List Bool))
  /-- Is about to tell the gate. -/
  | notifying (r : Except Fault (List Bool))
  /-- Has the readers of the round. -/
  | created (readers : List Bool)
  /-- The partitions run. -/
  | reading (r : Round)
  /-- Waits for the lock to hand out. -/
  | locking (next : RoundEnd)
  /-- Visits the slots of the ledger. -/
  | visiting (left : List Ledger.Visit) (draft : Ledger.Draft) (next : RoundEnd)
  /-- Writes the messages it has gathered. -/
  | writing (left : List StateMessage) (count : Nat) (next : RoundEnd)
  /-- Says that it is complete. -/
  | completing (left : List StreamId)
  /-- Is about to publish that it is complete. -/
  | completed
  /-- Has failed or was cancelled. -/
  | failing (e : Fault)
  /-- Says that it has stopped. -/
  | stopping (n : Notice) (e : Fault) (left : List StreamId)
  | done (r : Except Fault Unit)
  | crashed (message : String)

end FeedTask

/-- The task of a feed. -/
structure FeedTask where
  feed : Feed
  phase : FeedTask.Phase := .asleep
  round : Nat := 1
  /-- The number of releases that the gate of the feed has been told of. -/
  releases : Nat := 0
  /-- The partitions of the round. -/
  parts : List Partition := []
  /-- Whether this feed was stopped. -/
  halted : Bool := false
  /-- Why this feed was stopped. -/
  cause : Option Fault := none

namespace FeedTask

/-- What a feed sees of its surroundings. -/
structure View where
  settings : Settings
  /-- The number of factories. -/
  factories : Nat
  /-- The index of the feed. -/
  index : Nat
  /-- Whether the read was cancelled. -/
  cancelled : Bool

/-- What comes of a step. -/
structure Next where
  shared : Shared
  task : FeedTask
  effects : List Effect := []

/-- Whether the feed is cancelled, by itself or with the read. -/
def cancelledIn (v : View) (t : FeedTask) : Bool := v.cancelled || t.halted

/-- The label of the feed. -/
def label (t : FeedTask) : String := t.feed.label

/-- An event about the feed. -/
def event (t : FeedTask) (kind : EventKind) : Event := { kind, feed := some t.label }

/-- An event about the round. -/
def roundEvent (t : FeedTask) (kind : EventKind) : Event :=
  { kind, feed := some t.label, round := some t.round }

/-- The task in another phase. -/
def goto (t : FeedTask) (s : Shared) (phase : Phase) : Next := { shared := s, task := { t with phase } }

/-- The task in another phase, with effects on the way. -/
def gotoWith (t : FeedTask) (s : Shared) (phase : Phase) (effects : List Effect) : Next :=
  { shared := s, task := { t with phase }, effects }

/-! ## Making partitions -/

/-- The task begins: it says so and asks the first factory, if the ledger has a slot for the feed. -/
def stepAsleep (t : FeedTask) (s : Shared) : Act → Option Next
  | .go =>
    let phase := match s.ledger.scope? t.feed with
      | some _ => Phase.making 0
      | none => .failing (.untracked t.label)
    some (t.gotoWith s phase [.publish (t.event .feedStarting)])
  | _ => none

/-- A factory answers. When there is none left, the feed cannot be read. -/
def stepMaking (v : View) (t : FeedTask) (s : Shared) (factory : Nat) : Act → Option Next
  | .go => if factory < v.factories then none else some (t.goto s (.failing (.noFactory t.label)))
  | .made a =>
    if factory < v.factories then
      match a with
      | .none => some (t.goto s (.making (factory + 1)))
      | .creator => some (t.goto s (.acquiring .fresh))
      | .crashed message => some (t.goto s (.crashed message))
    else none
  | _ => none

/-- A failure of the creator is wrapped with its place; only cancellation of the feed itself stays as it
is. -/
def creationFault (v : View) (t : FeedTask) (e : Fault) : Fault :=
  match e, t.cancelledIn v with
  | .cancelled, true => .cancelled
  | e, _ => .creation t.label t.round e

/-- The creator acquires. Once it has its resources, the first round says that the streams start. -/
def stepAcquiring (v : View) (t : FeedTask) (s : Shared) (p : Acquisition.Phase) (a : Act) :
    Option Next := do
  let move ← a.acquisition?
  match ← Acquisition.step (t.cancelledIn v) t.releases p move with
  | .moved p => return t.goto s (.acquiring p)
  | .retried p =>
    return t.gotoWith s (.acquiring p)
      [ .publish (t.roundEvent .resourcesUnavailable)
      , .timer (.feed v.index) v.settings.heartbeatInForce ]
  | .done .acquired => return t.goto s (.starting (if t.round = 1 then t.feed.ids else []))
  | .done (.failed e) => return t.goto s (.failing (t.creationFault v e))
  | .done (.crashed message) => return t.goto s (.crashed message)

/-- Gives a notice for one stream; the answer has the traces to write. -/
def tell (t : FeedTask) (s : Shared) (n : Notice) (id : StreamId) : Shared × List Effect :=
  let (board, traces) := s.board.touch t.feed.key n id
  ({ s with board }, traces.map fun trace => .write (.trace trace))

/-- One stream is said to start. -/
def stepStarting (t : FeedTask) (s : Shared) (left : List StreamId) : Act → Option Next
  | .go =>
    match left with
    | id :: rest =>
      let (s, effects) := t.tell s .starting id
      some (t.gotoWith s (.starting rest) effects)
    | [] => some (t.goto s .opening)
  | _ => none

/-- The creator is let run. -/
def stepOpening (t : FeedTask) (s : Shared) : Act → Option Next
  | .go => some (t.gotoWith s .creating [.publish (t.roundEvent .creatorStarting)])
  | _ => none

/-- The creator answers, or is abandoned because the feed is cancelled. A crash ends the task at once. -/
def stepCreating (v : View) (t : FeedTask) (s : Shared) : Act → Option Next
  | .created (.readers l) => some (t.goto s (.releasing (.ok l)))
  | .created (.failed e) => some (t.goto s (.releasing (.error (.creation t.label t.round e))))
  | .created (.crashed message) => some (t.goto s (.crashed message))
  | .quit =>
    if t.cancelledIn v then some (t.goto s (.releasing (.error .cancelled))) else none
  | _ => none

/-- The resources of the creator are released, whatever it answered. -/
def stepReleasing (v : View) (t : FeedTask) (s : Shared) (r : Except Fault (List Bool)) :
    Act → Option Next
  | .go => some (t.gotoWith s (.notifying r) [.release (.feed v.index)])
  | _ => none

/-- The gate is told of the release. -/
def stepNotifying (t : FeedTask) (s : Shared) (r : Except Fault (List Bool)) : Act → Option Next
  | .go =>
    let t := { t with releases := t.releases + 1 }
    match r with
    | .ok readers => some (t.goto s (.created readers))
    | .error e => some (t.goto s (.failing e))
  | _ => none

/-- The partitions of a round, at the beginning. -/
def partitions (readers : List Bool) : List Partition := readers.mapIdx Partition.start

/-- The readers are announced and their partitions begin; a round without readers is the last. -/
def stepCreated (t : FeedTask) (s : Shared) (readers : List Bool) : Act → Option Next
  | .go =>
    let created := { t.roundEvent .partitionsCreated with count := some readers.length }
    let phase := if readers.isEmpty then Phase.locking .last
      else .reading (.start t.label t.round readers.length)
    some ({ t with parts := partitions readers }.gotoWith s phase [.publish created])
  | _ => none

/-! ## Reading partitions -/

/-- Stops the partitions of some indices. -/
def haltParts (parts : List Partition) (indices : List Nat) : List Partition :=
  indices.foldl (fun parts j => parts.modify j fun p => { p with halted := true }) parts

/-- Takes the end of a partition that has not been taken. -/
def join (v : View) (t : FeedTask) (r : Round) (j : Nat) : Option (FeedTask × Round) := do
  let p ← t.parts[j]?
  let e ← p.ended?
  if p.joined then none
  else
    let (r, halted) := r.observe (t.cancelledIn v) j e
    let parts := haltParts (t.parts.set j { p with joined := true }) halted
    return ({ t with parts }, r)

/-- Applies a checkpoint to the slot of the feed. -/
def applyCheckpoint (t : FeedTask) (s : Shared) (c : Checkpoint) : Shared :=
  match s.ledger.scope? t.feed with
  | some key => { s with ledger := s.ledger.set key c.state c.records }
  | none => s

/-- The checkpoint that is next in order is applied as soon as it is there; else the end of a partition
is taken. When every partition has a result the round is over. -/
def stepReading (v : View) (t : FeedTask) (s : Shared) (r : Round) : Act → Option Next
  | .go =>
    match r.next? with
    | some c =>
      let applied :=
        { t.roundEvent .checkpointApplied with
          partition := some (r.applied + 1)
          records := some c.records }
      some (t.gotoWith (t.applyCheckpoint s c) (.reading r.applyNext) [.publish applied])
    | none =>
      if r.full || t.parts.all (·.joined) then
        let next := match r.verdict (t.cancelledIn v) with
          | .ok () => RoundEnd.more
          | .error e => .failed e
        some (t.goto s (.locking next))
      else none
  | .join j =>
    if r.next?.isNone && !r.full then do
      let (t, r) ← t.join v r j
      return t.goto s (.reading r)
    else none
  | _ => none

/-! ## Handing out -/

/-- The task begins to hand out, when no other feed does. -/
def stepLocking (t : FeedTask) (s : Shared) (next : RoundEnd) : Act → Option Next
  | .go =>
    if s.locked then none
    else some (t.goto { s with locked := true } (.visiting s.ledger.plan {} next))
  | _ => none

/-- One slot of the ledger is visited. -/
def stepVisiting (t : FeedTask) (s : Shared) (left : List Ledger.Visit) (draft : Ledger.Draft)
    (next : RoundEnd) : Act → Option Next
  | .go =>
    match left with
    | visit :: rest =>
      let (ledger, draft) := s.ledger.visit draft visit
      some (t.goto { s with ledger } (.visiting (s.ledger.follow visit ++ rest) draft next))
    | [] => some (t.goto s (.writing draft.messages draft.messages.length next))
  | _ => none

/-- What follows when a round has been handed out. -/
def afterRound (t : FeedTask) (s : Shared) : RoundEnd → Next
  | .last => t.goto s (.completing t.feed.ids)
  | .more => { t with round := t.round + 1 }.goto s (.making 0)
  | .failed e => t.goto s (.failing e)

/-- One message is written. After the last one the lock is given back. -/
def stepWriting (t : FeedTask) (s : Shared) (left : List StateMessage) (count : Nat)
    (next : RoundEnd) : Act → Option Next
  | .go =>
    match left with
    | message :: rest => some (t.gotoWith s (.writing rest count next) [.write (.state message)])
    | [] =>
      let emitted := { t.roundEvent .checkpointEmitted with count := some count }
      some { t.afterRound { s with locked := false } next with
        effects := if count = 0 then [] else [.publish emitted] }
  | _ => none

/-! ## Ending -/

/-- One stream is said to be complete. -/
def stepCompleting (t : FeedTask) (s : Shared) (left : List StreamId) : Act → Option Next
  | .go =>
    match left with
    | id :: rest =>
      let (s, effects) := t.tell s .complete id
      some (t.gotoWith s (.completing rest) effects)
    | [] => some (t.goto s .completed)
  | _ => none

/-- The end of the feed is published. -/
def stepCompleted (t : FeedTask) (s : Shared) : Act → Option Next
  | .go => some (t.gotoWith s (.done (.ok ())) [.publish (t.roundEvent .feedCompleted)])
  | _ => none

/-- A feed that was cancelled for a cause stops without an outcome of its own; any other fault is a
failure. -/
def stepFailing (t : FeedTask) (s : Shared) (e : Fault) : Act → Option Next
  | .go =>
    match e, t.cause with
    | .cancelled, some cause =>
      some (t.goto s (.stopping .stopped (.feedHalted t.label cause) t.feed.ids))
    | e, _ => some (t.goto s (.stopping .failure e t.feed.ids))
  | _ => none

/-- The kind of event that tells how a feed stopped. -/
def stopKind : Notice → EventKind
  | .stopped => .feedCancelled
  | _ => .feedFailed

/-- One stream is said to have stopped; after the last one the reason is published. -/
def stepStopping (t : FeedTask) (s : Shared) (n : Notice) (e : Fault) (left : List StreamId) :
    Act → Option Next
  | .go =>
    match left with
    | id :: rest =>
      let (s, effects) := t.tell s n id
      some (t.gotoWith s (.stopping n e rest) effects)
    | [] =>
      let stopped := { t.event (stopKind n) with reason := some e.message }
      some (t.gotoWith s (.done (.error e)) [.publish stopped])
  | _ => none

/-- Makes a step, if the act can move the task. -/
def step (v : View) (t : FeedTask) (s : Shared) (a : Act) : Option Next :=
  match t.phase with
  | .asleep => t.stepAsleep s a
  | .making factory => t.stepMaking v s factory a
  | .acquiring p => t.stepAcquiring v s p a
  | .starting left => t.stepStarting s left a
  | .opening => t.stepOpening s a
  | .creating => t.stepCreating v s a
  | .releasing r => t.stepReleasing v s r a
  | .notifying r => t.stepNotifying s r a
  | .created readers => t.stepCreated s readers a
  | .reading r => t.stepReading v s r a
  | .locking next => t.stepLocking s next a
  | .visiting left draft next => t.stepVisiting s left draft next a
  | .writing left count next => t.stepWriting s left count next a
  | .completing left => t.stepCompleting s left a
  | .completed => t.stepCompleted s a
  | .failing e => t.stepFailing s e a
  | .stopping n e left => t.stepStopping s n e left a
  | .done _ => none
  | .crashed _ => none

/-! ## The partitions of the feed -/

/-- What the partition of an index sees. -/
def partView (v : View) (t : FeedTask) (j : Nat) (p : Partition) : Partition.View where
  feed := t.label
  round := t.round
  index := j
  actor := .partition v.index j
  heartbeat := v.settings.heartbeatInForce
  timeout := v.settings.partitionTimeout
  cancelled := t.cancelledIn v || p.halted
  releases := t.releases
  turn :=
    match j with
    | 0 => true
    | before + 1 => (t.parts[before]?).any (·.passed)

/-- Makes a step of a partition, if the act can move it. -/
def stepPart (v : View) (t : FeedTask) (j : Nat) (a : Act) : Option (FeedTask × List Effect) := do
  let p ← t.parts[j]?
  let next ← p.step (t.partView v j p) a
  return ({ t with
    parts := t.parts.set j next.task
    releases := if next.notified then t.releases + 1 else t.releases }, next.effects)

/-- Whether the task is over. -/
def finished (t : FeedTask) : Bool :=
  match t.phase with
  | .done _ => true
  | .crashed _ => true
  | _ => false

end FeedTask

end Intake.Read
