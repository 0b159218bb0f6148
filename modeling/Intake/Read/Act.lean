import Intake.Acquisition
import Intake.Message
import Intake.Read.Round
/-!
# What the tasks of a read do and hear

The tasks of a read are driven from outside: they go on by themselves, they are told that a timer has
passed or see that they are cancelled, and they hear the answers of the connector. An `Act` is one such
thing. What a task does to the world around it is an `Effect`.
-/

namespace Intake.Read

/-- What a factory answers. -/
inductive Made
  /-- The factory is not for this feed. -/
  | none
  | creator
  | crashed (message : String)
deriving Repr

/-- What a creator answers. -/
inductive Created
  /-- The readers of the round; each says whether it may run without limit. -/
  | readers (unlimited : List Bool)
  | failed (e : Fault)
  | crashed (message : String)
deriving Repr

/-- How the run of a reader ends. -/
inductive Ran
  | done
  | failed (e : Fault)
  | crashed (message : String)
deriving Repr

/-- What a reader answers when it is asked for its progress. -/
inductive Saved
  | checkpoint (c : Checkpoint)
  | crashed (message : String)
deriving Repr

/-- What makes a task take a step. -/
inductive Act
  /-- The task goes on by itself. -/
  | go
  /-- The task sees that it is cancelled. -/
  | quit
  /-- The timer of the task has passed. -/
  | elapse
  | probe (a : ProbeAnswer)
  | made (a : Made)
  | created (a : Created)
  | ran (a : Ran)
  | saved (a : Saved)
  /-- A feed takes the end of the partition of an index. -/
  | join (j : Nat)
deriving Repr

/-- A task of a read: that of a feed, or that of a partition of a feed. -/
inductive Actor
  | feed (i : Nat)
  | partition (i j : Nat)
deriving DecidableEq, Repr

/-- What a step does to the world around the read. -/
inductive Effect
  | publish (e : Event)
  | write (m : Message)
  /-- The creator or reader of a task is told to release its resources. -/
  | release (who : Actor)
  /-- The timer of a task begins. -/
  | timer (who : Actor) (d : Duration)
deriving Repr

/-- The move of an acquisition that an act stands for. -/
def Act.acquisition? : Act → Option Acquisition.Move
  | .go => some .go
  | .quit => some .quit
  | .elapse => some .elapse
  | .probe a => some (.probe a)
  | _ => none

end Intake.Read
