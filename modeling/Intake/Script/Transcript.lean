import Intake.Script.Session
/-!
# Transcripts

A transcript is what can be seen of a session, in an order that does not depend on which of several tasks
went on first at one instant: calls and events are grouped by what they are about, and statuses that were
written in a row at one instant are sorted by stream.
-/

namespace Intake.Script

/-- What can be seen of a session. -/
structure Transcript where
  reads : List Performance
  messages : List (Nat × Message)
  closed : Bool
  calls : Table String (List (Nat × Call))
  events : Table String (List (Nat × Event))
  progress : List (Nat × List String)

namespace Transcript

/-- Groups entries by key; the entries of one key keep their order. -/
def group (l : List (String × α)) : Table String (List α) :=
  ((l.mergeSort fun a b => decide (a.1 ≤ b.1)).splitBy fun a b => a.1 == b.1).filterMap fun run =>
    run.head?.map fun first => (first.1, run.map Prod.snd)

/-- What an event is about: a subscriber, a task, or the whole read. -/
def subject (e : Event) : String :=
  match e.subscriber with
  | some name => "@" ++ name
  | none => e.taskKey.getD ""

/-- Whether two messages are statuses of one instant. -/
def together : Nat × Message → Nat × Message → Bool
  | (t, .trace _), (u, .trace _) => t == u
  | _, _ => false

/-- The order of statuses: that of their streams. -/
def traceLe : Nat × Message → Nat × Message → Bool
  | (_, .trace a), (_, .trace b) => a.stream.le b.stream
  | _, _ => true

/-- Sorts statuses of one instant that stand in a row by stream. -/
def sortTraces (l : List (Nat × Message)) : List (Nat × Message) :=
  (l.splitBy together).flatMap fun run => run.mergeSort traceLe

/-- Whether an event is shown. A partition that was stopped is not waited for, so its last event may come
too late to be received. -/
def shown (keepCancelled : Bool) (e : Event) : Bool :=
  keepCancelled || e.kind != .partitionReadCancelled

/-- The transcript of a session. -/
def ofSession (keepCancelled : Bool) (s : Session) : Transcript where
  reads := s.performances.reverse
  messages := sortTraces s.messages.reverse
  closed := s.closed
  calls := group s.calls.reverse
  events := group ((s.events.reverse.filter (shown keepCancelled ·.2)).map fun e => (subject e.2, e))
  progress := s.progress.reverse

end Transcript

end Intake.Script
