import Intake.Bootstrap
import Intake.Read.Act
import Intake.Script.Probe
/-!
# Scripted connectors

A scripted connector gives all its answers from scripts. A factory has a list of creators for each feed,
and each call takes the next of them, or the one that the state of the feed points to. A creator sleeps
and then crashes, fails or gives its readers. A reader plays a list of steps.

Every call is noted under the name of what was called: a factory's calls under the key of the feed, a
creator's under the key, the factory and the number of the call, a reader's under its creator and its
place.
-/

namespace Intake.Script

open Intake.Read

/-- One step of a reader. -/
inductive ReaderStep
  | sleep (ms : Nat)
  /-- Replaces the progress that the reader will report. -/
  | progress (c : Checkpoint)
  | emit (id : StreamId) (data : Fields) (changes : List (String × ValueChange))
  /-- Closes the output through the writer of a stream. -/
  | close (id : StreamId)
  | fail (e : Fault)
  | crash (c : Crash)
  /-- Waits until the run is cancelled. -/
  | waitCancel
  /-- Resets the slots of the feed. -/
  | resetAll
deriving Repr

/-- The script of a reader. -/
structure ReaderScript where
  probe : Probe := {}
  steps : List ReaderStep := []
  /-- The progress it reports, unless a step replaces it. -/
  checkpoint : Checkpoint := { state := .null, records := 0 }
  unlimited : Bool := false
  /-- Crashes when it is asked for its progress. -/
  saveCrash : Option Crash := none
deriving Repr

/-- The script of a creator. -/
structure CreatorScript where
  probe : Probe := {}
  sleep : Nat := 0
  crash : Option Crash := none
  fault : Option Fault := none
  readers : List ReaderScript := []
  /-- Crashes when it is made. -/
  makeCrash : Option Crash := none
  /-- Resets the slots of the feed when it is made. -/
  resets : Bool := false
deriving Repr

namespace CreatorScript

/-- What the creator answers once it has slept. -/
def answer (c : CreatorScript) : Created :=
  match c.crash, c.fault with
  | some crash, _ => .crashed crash.message
  | none, some e => .failed e
  | none, none => .readers (c.readers.map (·.unlimited))

end CreatorScript

/-- The script of a factory. -/
structure Factory where
  /-- Whether the state of a feed chooses the creator, rather than the number of the call. -/
  byState : Bool := false
  /-- The creators for the key of a feed; a gap means that the factory makes none. -/
  creators : Table String (List (Option CreatorScript)) := []
deriving Repr

namespace Factory

/-- The place that a state points to: the first item of a list, from zero. A state of another form points
to the first place. -/
def statePlace : Option Value → Nat
  | some (.list (.int (.ofNat n) :: _)) => n
  | _ => 0

/-- The creator for a feed at the call of an index, from zero. -/
def creator? (f : Factory) (key : String) (call : Nat) (state : Option Value) : Option CreatorScript :=
  let place := if f.byState then statePlace state else call
  (((f.creators.find? key).getD [])[place]?).join

end Factory

/-- The key under which factories know a feed. -/
def feedKey (f : Feed) : String := if f.isGlobal then "*" else f.label

/-- How a run ended. -/
inductive RunEnd
  | ok
  | failed
  | crashed
  /-- Abandoned, by cancellation or because its time was over. -/
  | dropped
deriving DecidableEq, Repr

/-- The end of a run of a creator. -/
def RunEnd.ofCreated : Created → RunEnd
  | .readers _ => ok
  | .failed _ => failed
  | .crashed _ => crashed

/-- The end of a run of a reader. -/
def RunEnd.ofRan : Ran → RunEnd
  | .done => ok
  | .failed _ => failed
  | .crashed _ => crashed

/-- A call on a connector. -/
inductive Call
  /-- A factory is asked; the state of the feed and of all feeds at that time. -/
  | make (factory : Nat) (current : Option Value) (states : List (Option Value))
  | acquire (a : ProbeAnswer)
  | run
  | runEnd (e : RunEnd)
  /-- A creator releases. -/
  | release
  /-- A reader releases, after its run was stopped. -/
  | releaseStopped
  | checkpoint (c : Checkpoint)
  /-- A reader has no writer for a stream. -/
  | noWriter
deriving Repr

/-- A creator at work. -/
structure Creator where
  /-- The name under which its calls are noted. -/
  name : String
  script : CreatorScript
  probe : Probe
  /-- The writers that it hands to its readers. -/
  writers : Table StreamId RecordWriter
  /-- When its sleep is over, once it runs. -/
  wake : Option Nat := none

namespace Creator

/-- A creator that a factory has made. -/
def make (name : String) (script : CreatorScript) (writers : Table StreamId RecordWriter) : Creator :=
  { name, script, probe := script.probe, writers }

end Creator

/-- What a reader at work waits for. -/
inductive Pause
  /-- Its run has not begun. -/
  | fresh
  /-- Nothing: it can go on. -/
  | none
  | sleep (deadline : Nat)
  /-- Cancellation. -/
  | cancel
deriving DecidableEq, Repr

/-- A reader at work. -/
structure Reader where
  name : String
  probe : Probe
  writers : Table StreamId RecordWriter
  /-- The steps that are left. -/
  steps : List ReaderStep
  checkpoint : Checkpoint
  saveCrash : Option Crash
  pause : Pause := .fresh

namespace Reader

/-- What the reader answers when it is asked for its progress. -/
def saved (r : Reader) : Saved :=
  match r.saveCrash with
  | some crash => .crashed crash.message
  | none => .checkpoint r.checkpoint

end Reader

/-- The readers of a creator, at the beginning. -/
def Creator.readers (c : Creator) : List Reader :=
  c.script.readers.mapIdx fun j script =>
    { name := s!"{c.name}/{j + 1}"
      probe := script.probe
      writers := c.writers
      steps := script.steps
      checkpoint := script.checkpoint
      saveCrash := script.saveCrash }

end Intake.Script
