import Intake.Ledger
import Intake.RecordWriter
/-!
# What a factory is given

A factory makes a creator for one feed. It may look up the state of any feed in the ledger, reset the
feed it works for, and make the record writers of the feed's streams. `Bootstrap` holds the feed and
the decorator; its operations take the ledger as it stands.
-/

namespace Intake

/-- The feed to be read and the decorator of the source. -/
structure Bootstrap where
  feed : Feed
  decorator : Decorator

namespace Bootstrap

/-- Whether a stream is read incrementally on the cursor that all streams share, without having it
among its own fields. -/
def followsSharedCursor (d : Decorator) (s : Stream) : Bool :=
  match d.cursor with
  | none => false
  | some cursor => s.mode == .incremental && s.schema.all (· != cursor) && s.cursor == some cursor

/-- The writer of one stream. It is decorated when the feed is a single stream that the ledger's global
feed lists, then with the state of the global feed, and when the stream follows the shared cursor
outside the global feed. -/
def writer (b : Bootstrap) (l : Ledger) (now : Nat) (s : Stream) : RecordWriter :=
  let plain := RecordWriter.make s now
  match l.global.filter (·.contains s.id) with
  | some g => if b.feed.isGlobal then plain else plain.decorated b.decorator (l.current (.global g))
  | none => if followsSharedCursor b.decorator s then plain.decorated b.decorator none else plain

/-- One writer per stream of the feed; of two streams with one name the last counts. -/
def writers (b : Bootstrap) (l : Ledger) (now : Nat) : Table StreamId RecordWriter :=
  b.feed.streams.foldl (fun table s => table.put s.id (b.writer l now s)) []

end Bootstrap

end Intake
