import Intake.Fault
/-!
# Acquiring resources

A task that needs resources probes for them. A probe that is refused is reported, and the task waits
until resources are released, until a heartbeat has passed or until it is cancelled, and probes again.

The gate of a feed counts its releases. A task notes the count before it probes, and its wait is over as
soon as the count is greater: a release between the probe and the wait is not missed.
-/

namespace Intake

/-- What a probe answers. -/
inductive ProbeAnswer
  | ready
  | retry
  | failed (e : Fault)
  | crashed (message : String)
deriving Repr

namespace Acquisition

/-- Where an acquisition stands. -/
inductive Phase
  /-- Before an attempt. -/
  | fresh
  /-- Has noted the count of releases and is about to probe. -/
  | armed (seen : Nat)
  /-- Was refused and is about to report it. -/
  | refused (seen : Nat)
  /-- Waits for a release, the heartbeat or cancellation. -/
  | waiting (seen : Nat)
deriving DecidableEq, Repr, Inhabited

/-- How an acquisition ends. -/
inductive Outcome
  | acquired
  | failed (e : Fault)
  /-- The probe crashed, and the task with it. -/
  | crashed (message : String)
deriving Repr

/-- What makes an acquisition go on. -/
inductive Move
  /-- The task goes on by itself. -/
  | go
  /-- The probe answers. -/
  | probe (a : ProbeAnswer)
  /-- The heartbeat has passed. -/
  | elapse
  /-- The task sees that it is cancelled. -/
  | quit
deriving Repr

/-- What comes of a move. -/
inductive Next
  | moved (p : Phase)
  /-- The refusal is reported and the heartbeat begins. -/
  | retried (p : Phase)
  | done (o : Outcome)
deriving Repr

/-- Makes a move, given whether the task is cancelled and the number of releases so far. -/
def step (cancelled : Bool) (releases : Nat) : Phase → Move → Option Next
  | .fresh, .go => if cancelled then some (.done (.failed .cancelled)) else some (.moved (.armed releases))
  | .armed _, .probe .ready => some (.done .acquired)
  | .armed seen, .probe .retry => some (.moved (.refused seen))
  | .armed _, .probe (.failed e) => some (.done (.failed e))
  | .armed _, .probe (.crashed message) => some (.done (.crashed message))
  | .armed _, .quit => if cancelled then some (.done (.failed .cancelled)) else none
  | .refused seen, .go => some (.retried (.waiting seen))
  | .waiting seen, .go => if seen < releases then some (.moved .fresh) else none
  | .waiting _, .elapse => some (.moved .fresh)
  | .waiting _, .quit => if cancelled then some (.done (.failed .cancelled)) else none
  | _, _ => none

end Acquisition

end Intake
