import Intake.Feed
import Intake.Message
import Intake.Slot
/-!
# The ledger

The ledger keeps the progress of a read: one slot per stream and one shared slot when there is a global
feed. It knows the feeds to read, in order, and hands out what is pending as state messages.

A stream that the global feed lists is a member; every other stream is standalone. Handing out visits
the shared slot and the members, which together make at most one message, and then the standalone
streams, which make one message each. The message of the global feed tells the states of all its slots,
so where nothing is pending the current state is read, in a further visit (`follow`). A visit is one step
on one slot, so that a run of visits can be interleaved with steps of others; `checkpoint` is the run with
nothing in between.
-/

namespace Intake

/-- Names a slot of the ledger. -/
inductive SlotKey
  /-- The shared slot of the global feed. -/
  | shared
  | stream (id : StreamId)
deriving DecidableEq, Repr

/-- The progress of all feeds of a read. -/
structure Ledger where
  global : Option Global := none
  /-- The streams read on their own, in order and without repetition. -/
  streams : List Stream := []
  slots : Table SlotKey Slot := []
deriving Inhabited

namespace Ledger

/-! ## Making a ledger -/

/-- Adds a stream with its initial state, unless a stream of that name is there already. -/
def enroll (l : Ledger) (stream : Stream) (initial : Option Value) : Ledger :=
  if (l.slots.find? (.stream stream.id)).isSome then l
  else
    { l with
      streams := l.streams ++ [stream]
      slots := l.slots.put (.stream stream.id) (.start initial) }

/-- Gives a member that is not read on its own an empty slot. -/
def ensure (l : Ledger) (id : StreamId) : Ledger :=
  if (l.slots.find? (.stream id)).isSome then l
  else { l with slots := l.slots.put (.stream id) (.start none) }

/-- A ledger without slots of streams. -/
def empty : Option (Global × Option Value) → Ledger
  | none => {}
  | some (g, initial) => { global := some g, slots := [(.shared, .start initial)] }

/-- The ledger of a read: an optional global feed, and the streams to read with their states. Of two
streams with one name the first counts. -/
def make (global : Option (Global × Option Value)) (streams : List (Stream × Option Value)) :
    Ledger :=
  let l := streams.foldl (fun l entry => l.enroll entry.1 entry.2) (empty global)
  match global with
  | none => l
  | some (g, _) => g.ids.foldl ensure l

/-! ## Looking things up -/

/-- The feeds to read: the global feed first, then the streams. -/
def feeds (l : Ledger) : List Feed :=
  (l.global.map Feed.global).toList ++ l.streams.map Feed.stream

/-- Whether the global feed lists the stream. -/
def isMember (l : Ledger) (id : StreamId) : Bool := l.global.any (·.contains id)

/-- The streams outside the global feed, in order. -/
def standalone (l : Ledger) : List StreamId := (l.streams.map (·.id)).filter (!l.isMember ·)

/-- The slot of a stream, if the ledger has one. -/
def streamScope? (l : Ledger) (id : StreamId) : Option SlotKey :=
  if (l.slots.find? (.stream id)).isSome then some (.stream id) else none

/-- The slot of a feed, if the ledger has one. A global feed has one only if it is the ledger's own. -/
def scope? (l : Ledger) : Feed → Option SlotKey
  | .global g => if l.global.map Global.ids = some g.ids then some .shared else none
  | .stream s => l.streamScope? s.id

/-- The current state in a slot. -/
def currentAt (l : Ledger) (key : SlotKey) : Option Value := (l.slots.find? key).bind (·.current)

/-- The current state of a feed. -/
def current (l : Ledger) (feed : Feed) : Option Value := (l.scope? feed).bind l.currentAt

/-! ## Changing slots -/

/-- Sets the state of a slot and adds to its records. -/
def set (l : Ledger) (key : SlotKey) (state : Value) (records : Nat) : Ledger :=
  { l with slots := l.slots.adjust key (·.set state records) }

/-- Resets a slot. -/
def reset (l : Ledger) (key : SlotKey) : Ledger :=
  { l with slots := l.slots.adjust key (·.reset) }

/-- The slots that belong to a feed: its own, and those of its streams. -/
def scopesOf (l : Ledger) (feed : Feed) : List SlotKey :=
  (l.scope? feed).toList ++ feed.ids.filterMap l.streamScope?

/-- Resets every slot that belongs to a feed. -/
def resetAll (l : Ledger) (feed : Feed) : Ledger := (l.scopesOf feed).foldl reset l

/-! ## Handing out -/

/-- One step of handing out. -/
inductive Visit
  /-- Swaps the shared slot. -/
  | shared
  /-- Swaps the slot of a member. -/
  | member (id : StreamId)
  /-- Makes the message of the global feed, if anything in it was pending. -/
  | wrap
  /-- Swaps the slot of a standalone stream. -/
  | alone (id : StreamId)
  /-- Reads the current state of a slot of the global feed, in which nothing was pending. -/
  | look (key : SlotKey)
deriving DecidableEq, Repr

/-- What the visits so far have gathered. -/
structure Draft where
  /-- Whether anything was pending in the shared slot or in a member. -/
  swapped : Bool := false
  shared : Option Value := none
  states : List (StreamId × Value) := []
  records : Nat := 0
  /-- The finished messages, in order. -/
  messages : List StateMessage := []
deriving Inhabited

/-- The visits that hand out a ledger, in order. -/
def plan (l : Ledger) : List Visit :=
  (match l.global with
    | none => []
    | some g => .shared :: g.ids.map .member ++ [.wrap])
  ++ l.standalone.map .alone

/-- Swaps a slot; a missing slot has nothing to report. -/
def swapAt (l : Ledger) (key : SlotKey) : Ledger × Option Slot.Report :=
  match l.slots.find? key with
  | none => (l, none)
  | some slot => ({ l with slots := l.slots.put key slot.swap.1 }, slot.swap.2)

namespace Draft

/-- Takes up what the shared slot reported, and whether it was pending. -/
def addShared (d : Draft) (swapped : Bool) (r : Slot.Report) : Draft :=
  { d with swapped, shared := r.state, records := r.records }

/-- Takes up what the slot of a member reported, and whether it was pending. -/
def addMember (d : Draft) (id : StreamId) (swapped : Bool) (r : Slot.Report) : Draft :=
  { d with
    swapped := d.swapped || swapped
    states := d.states ++ [(id, .ofOption r.state)]
    records := addRecords d.records r.records }

/-- Makes the message of the global feed, if anything of it was pending. -/
def wrap (d : Draft) : Draft :=
  { messages :=
      if d.swapped then d.messages ++ [.global (.ofOption d.shared) d.states d.records]
      else d.messages }

/-- Makes the message of a stream of its own. -/
def addAlone (d : Draft) (id : StreamId) (r : Slot.Report) : Draft :=
  { d with messages := d.messages ++ [.stream id (.ofOption r.state) r.records] }

/-- Takes in what a swap handed out. -/
def add (d : Draft) : Visit → Slot.Report → Draft
  | .shared, r => d.addShared true r
  | .member id, r => d.addMember id true r
  | .alone id, r => d.addAlone id r
  | _, _ => d

/-- Takes in the current state of a slot of the global feed, in which nothing was pending. -/
def addCurrent (d : Draft) (state : Option Value) : SlotKey → Draft
  | .shared => d.addShared false ⟨state, 0⟩
  | .stream id => d.addMember id false ⟨state, 0⟩

end Draft

/-- The slot a visit swaps. -/
def Visit.key? : Visit → Option SlotKey
  | .shared => some .shared
  | .member id => some (.stream id)
  | .wrap => none
  | .alone id => some (.stream id)
  | .look _ => none

/-- Makes one visit. -/
def visit (l : Ledger) (d : Draft) (v : Visit) : Ledger × Draft :=
  match v.key? with
  | some key =>
    match l.swapAt key with
    | (l, some report) => (l, d.add v report)
    | (l, none) => (l, d)
  | none =>
    match v with
    | .look key => (l, d.addCurrent (l.currentAt key) key)
    | _ => (l, d.wrap)

/-- A slot is read when nothing is pending in it. -/
def lookAt (l : Ledger) (key : SlotKey) : List Visit :=
  if (l.slots.find? key).any (!·.pending) then [.look key] else []

/-- What is to be visited right after a visit: a slot of the global feed in which nothing was pending is
read. -/
def follow (l : Ledger) : Visit → List Visit
  | .shared => l.lookAt .shared
  | .member id => l.lookAt (.stream id)
  | _ => []

/-- Makes a visit, and what follows it, with nothing in between. -/
def attend (l : Ledger) (d : Draft) (v : Visit) : Ledger × Draft :=
  (l.follow v).foldl (fun p w => p.1.visit p.2 w) (l.visit d v)

/-- Hands out everything that is pending. -/
def checkpoint (l : Ledger) : Ledger × List StateMessage :=
  let done := l.plan.foldl (fun (p : Ledger × Draft) v => p.1.attend p.2 v) (l, {})
  (done.1, done.2.messages)

end Ledger

end Intake
