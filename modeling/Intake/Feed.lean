/-!
# Streams and feeds

A stream is named by its identifier and by nothing else: two streams with one identifier are the same
stream, whatever their schemas. A feed is what one task reads: a single stream, or the global feed over
a list of streams. Feeds are compared by `Feed.key`.
-/

namespace Intake

/-- The name of a stream, with the name space it lives in if it has one. -/
structure StreamId where
  name : String
  space : Option String := none
deriving DecidableEq, Repr, Inhabited

namespace StreamId

/-- The printed form: the name space and the name joined by an underscore, or the bare name. -/
def label (id : StreamId) : String :=
  match id.space with
  | some space => space ++ "_" ++ id.name
  | none => id.name

/-- Whether one optional name space sorts before or with another; none comes first. -/
def spaceLe : Option String → Option String → Bool
  | none, _ => true
  | some _, none => false
  | some a, some b => decide (a ≤ b)

/-- The order of identifiers: by name, then by name space. -/
def le (a b : StreamId) : Bool :=
  if a.name = b.name then spaceLe a.space b.space else decide (a.name < b.name)

end StreamId

/-- How a stream is configured to be read. -/
inductive SyncMode
  | fullRefresh
  | incremental
deriving DecidableEq, Repr

/-- A stream and the way it is configured. -/
structure Stream where
  id : StreamId
  /-- Names of the fields, in order. -/
  schema : List String := []
  mode : SyncMode := .fullRefresh
  primaryKey : Option (List String) := none
  cursor : Option String := none
deriving Repr, Inhabited

namespace Stream

/-- The stream read incrementally on `cursor`. -/
def incremental (s : Stream) (cursor : String) : Stream :=
  { s with mode := .incremental, cursor := some cursor }

end Stream

/-- The streams of a global feed, in order; an identifier may be listed more than once. -/
structure Global where
  streams : List Stream
deriving Repr, Inhabited

namespace Global

/-- The identifiers of the listed streams, in order and with repetitions. -/
def ids (g : Global) : List StreamId := g.streams.map (·.id)

/-- Whether the global feed lists the stream. -/
def contains (g : Global) (id : StreamId) : Bool := g.ids.any (· == id)

end Global

/-- What one task reads. -/
inductive Feed
  | stream (s : Stream)
  | global (g : Global)
deriving Repr

/-- The identity of a feed. -/
inductive FeedKey
  | stream (id : StreamId)
  | global (ids : List StreamId)
deriving DecidableEq, Repr

namespace Feed

/-- The identity of a feed: the stream's identifier, or the list of the global's identifiers. -/
def key : Feed → FeedKey
  | stream s => .stream s.id
  | global g => .global g.ids

/-- The label of a feed in events and faults; every global feed has the same. -/
def label : Feed → String
  | stream s => s.id.label
  | global _ => "global"

/-- The streams a feed reads. -/
def streams : Feed → List Stream
  | stream s => [s]
  | global g => g.streams

/-- The identifiers of the streams a feed reads. -/
def ids (f : Feed) : List StreamId := f.streams.map (·.id)

/-- The stream of a stream feed. -/
def stream? : Feed → Option Stream
  | stream s => some s
  | global _ => none

/-- The streams of the global feed. -/
def global? : Feed → Option Global
  | stream _ => none
  | global g => some g

/-- Whether the feed is the global one. -/
def isGlobal (f : Feed) : Bool := f.global?.isSome

end Feed

end Intake
