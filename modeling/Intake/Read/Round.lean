import Intake.Event
import Intake.Fault
import Intake.Value
/-!
# Rounds

The partitions of a round run at the same time and end in any order. `Round` takes their ends as they
come and puts them in order: a checkpoint is applied when all partitions before it have been applied,
and the first end that is a failure stops every later partition that has not ended.

`observe` records the end of one partition, `next?` says which checkpoint is to be applied next, and
`verdict` is the result of a round in which all ends have been recorded: the failure of the lowest index.
-/

namespace Intake.Read

/-- The progress that a partition reports: a state and the number of records that led to it. -/
structure Checkpoint where
  state : Value := .null
  records : Nat := 0
deriving Repr, Inhabited

/-- How the task of a partition ended. -/
inductive Ended
  | finished (r : Except Fault Checkpoint)
  | crashed (message : String)

/-- The ends of the partitions of a round, as far as they are known. -/
structure Round where
  /-- The label of the feed. -/
  feed : String
  /-- The number of the round. -/
  number : Nat
  /-- The recorded result of each partition. -/
  results : List (Option (Except Fault Checkpoint))
  /-- The number of results recorded. -/
  recorded : Nat := 0
  /-- The number of checkpoints applied. -/
  applied : Nat := 0

namespace Round

/-- A round of `size` partitions, none of which has ended. -/
def start (feed : String) (number size : Nat) : Round :=
  { feed, number, results := List.replicate size none }

/-- The number of partitions. -/
def size (r : Round) : Nat := r.results.length

/-- Whether the partition of an index has a result. -/
def isRecorded (r : Round) (i : Nat) : Bool :=
  match r.results[i]? with
  | some (some _) => true
  | _ => false

/-- The result that is recorded for an end. A failure is wrapped with its place; only cancellation of
the feed itself stays as it is. -/
def judge (r : Round) (cancelled : Bool) (i : Nat) : Ended → Except Fault Checkpoint
  | .finished (.ok c) => .ok c
  | .finished (.error e) =>
    match e, cancelled with
    | .cancelled, true => .error .cancelled
    | e, _ => .error (.partition r.feed r.number (i + 1) e)
  | .crashed message => .error (.partition r.feed r.number (i + 1) (.crashed r.feed message))

/-- The partitions after an index that have no result. -/
def openAfter (r : Round) (i : Nat) : List Nat :=
  (List.range r.size).filter fun j => decide (i < j) && !r.isRecorded j

/-- Gives every partition after an index that has no result the result of being stopped. -/
def haltAfter (r : Round) (i : Nat) (cause : Fault) : Round :=
  { r with
    results := r.results.mapIdx fun j entry =>
      match entry with
      | some result => some result
      | none =>
        if i < j then some (.error (.partitionHalted r.feed r.number (j + 1) cause)) else none
    recorded := r.recorded + (r.openAfter i).length }

/-- Records a result. -/
def record (r : Round) (i : Nat) (result : Except Fault Checkpoint) : Round :=
  { r with results := r.results.set i (some result), recorded := r.recorded + 1 }

/-- Takes the end of a partition. The answer has the partitions that are to be stopped. -/
def observe (r : Round) (cancelled : Bool) (i : Nat) (e : Ended) : Round × List Nat :=
  if r.isRecorded i then (r, [])
  else
    match r.judge cancelled i e with
    | .ok c => (r.record i (.ok c), [])
    | .error failure => ((r.haltAfter i failure).record i (.error failure), r.openAfter i)

/-- The checkpoint that is to be applied next, if the partition it comes from has ended well. -/
def next? (r : Round) : Option Checkpoint :=
  match r.results[r.applied]? with
  | some (some (.ok c)) => some c
  | _ => none

/-- Notes that the next checkpoint was applied. -/
def applyNext (r : Round) : Round := { r with applied := r.applied + 1 }

/-- Whether every partition has a result. -/
def full (r : Round) : Bool := r.size ≤ r.recorded

/-- The failure of the lowest index. -/
def failure? (r : Round) : Option Fault :=
  r.results.findSome? fun entry =>
    match entry with
    | some (.error e) => some e
    | _ => none

/-- The result of the round. Under cancellation every fault that is itself one is just cancellation. -/
def verdict (r : Round) (cancelled : Bool) : Except Fault Unit :=
  match r.failure? with
  | none => .ok ()
  | some e => if cancelled && e.isCancellation then .error .cancelled else .error e

end Round

end Intake.Read
