import Intake.Message
/-!
# The status board

The board says how each stream is doing. A stream has started when the first feed that reads it gives
notice of anything; it is over when every feed that reads it has stopped. It is complete when at least
one of these feeds completed and none failed.

A notice of a feed is taken stream by stream (`touch`), so that notices of several feeds can be
interleaved; `notify` is a notice with nothing in between.
-/

namespace Intake

/-- What a feed tells the board. -/
inductive Notice
  /-- The feed begins to read. -/
  | starting
  /-- The feed has come to its end. -/
  | complete
  /-- The feed failed. -/
  | failure
  /-- The feed was stopped because of others. -/
  | stopped
deriving DecidableEq, Repr

/-- Where a stream stands. -/
inductive Standing
  | pending
  | success
  | failure
  | done
deriving DecidableEq, Repr, Inhabited

/-- What the board knows of one stream. -/
structure BoardEntry where
  /-- The feeds that read the stream. -/
  readers : List FeedKey := []
  standing : Standing := .pending
  /-- The feeds that have stopped. -/
  stopped : List FeedKey := []
  /-- Whether a feed completed. -/
  completed : Bool := false
deriving Repr, Inhabited

namespace BoardEntry

/-- Starts a stream that has not started. -/
def start (e : BoardEntry) : BoardEntry × List Verdict :=
  match e.standing with
  | .pending => ({ e with standing := .success }, [.started])
  | _ => (e, [])

/-- Whether every feed that reads the stream has stopped. -/
def allStopped (e : BoardEntry) : Bool := e.readers.all (e.stopped.contains ·)

/-- Notes that a feed has stopped, and how. -/
def noteStop (e : BoardEntry) (feed : FeedKey) (n : Notice) : BoardEntry :=
  let e := { e with stopped := if e.stopped.contains feed then e.stopped else e.stopped ++ [feed] }
  match n, e.standing with
  | .failure, .success => { e with standing := .failure }
  | .complete, _ => { e with completed := true }
  | _, _ => e

/-- Closes a stream whose feeds have all stopped. -/
def close (e : BoardEntry) : BoardEntry × List Verdict :=
  if !e.allStopped then (e, [])
  else
    match e.standing with
    | .success =>
      ({ e with standing := .done }, [if e.completed then .complete else .incomplete])
    | .failure => ({ e with standing := .done }, [.incomplete])
    | .pending => (e, [])
    | .done => (e, [])

/-- Takes a notice of a feed. -/
def take (e : BoardEntry) (feed : FeedKey) (n : Notice) : BoardEntry × List Verdict :=
  match n with
  | .starting => e.start
  | n =>
    let (e, first) := e.start
    let (e, last) := (e.noteStop feed n).close
    (e, first ++ last)

end BoardEntry

/-- The entries of all streams that some feed reads. -/
abbrev Board := Table StreamId BoardEntry

namespace Board

/-- Notes that a feed reads a stream. -/
def enter (b : Board) (feed : FeedKey) (id : StreamId) : Board :=
  let e := (b.find? id).getD {}
  b.put id { e with readers := if e.readers.contains feed then e.readers else e.readers ++ [feed] }

/-- The board of a list of feeds. -/
def make (feeds : List Feed) : Board :=
  feeds.foldl (fun b feed => feed.ids.foldl (fun b id => b.enter feed.key id) b) []

/-- Takes a notice of a feed for one stream; a stream that no feed reads has no entry. -/
def touch (b : Board) (feed : FeedKey) (n : Notice) (id : StreamId) : Board × List Trace :=
  match b.find? id with
  | none => (b, [])
  | some e =>
    let (e, verdicts) := e.take feed n
    (b.put id e, verdicts.map (⟨id, ·⟩))

/-- Takes a notice of a feed for all its streams, in order. -/
def notify (b : Board) (feed : Feed) (n : Notice) : Board × List Trace :=
  feed.ids.foldl
    (fun (p : Board × List Trace) id =>
      let (b, traces) := p.1.touch feed.key n id
      (b, p.2 ++ traces))
    (b, [])

/-- Where a stream stands, if some feed reads it. -/
def standing? (b : Board) (id : StreamId) : Option Standing := (b.find? id).map (·.standing)

end Board

end Intake
