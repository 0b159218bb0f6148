import Intake.Acquisition
import Intake.Table
/-!
# Scripted probes

A scripted probe gives its answers from a list. When the list is used up it asks its pool for a place,
and without a pool it is always ready. A place that was taken is given back at most once.
-/

namespace Intake.Script

/-- The number of free places in each pool. -/
abbrev Pools := Table String Nat

/-- One scripted answer of a probe. -/
inductive Reply
  | ready
  | retry
  | fail (e : Fault)
  | crash (c : Crash)
deriving Repr

/-- The answer that a reply stands for. -/
def Reply.answer : Reply → ProbeAnswer
  | ready => .ready
  | retry => .retry
  | fail e => .failed e
  | crash c => .crashed c.message

/-- A scripted probe. -/
structure Probe where
  replies : List Reply := []
  pool : Option String := none
  /-- Whether a place of the pool is held. -/
  holds : Bool := false
deriving Repr, Inhabited

namespace Probe

/-- Asks the probe. -/
def ask (p : Probe) (pools : Pools) : ProbeAnswer × Probe × Pools :=
  match p.replies, p.pool with
  | r :: rest, _ => (r.answer, { p with replies := rest }, pools)
  | [], none => (.ready, p, pools)
  | [], some name =>
    match (pools.find? name).getD 0 with
    | 0 => (.retry, p, pools)
    | free + 1 => (.ready, { p with holds := true }, pools.put name free)

/-- Gives back the place that is held, if one is. -/
def release (p : Probe) (pools : Pools) : Probe × Pools :=
  match p.holds, p.pool with
  | true, some name => ({ p with holds := false }, pools.adjust name (· + 1))
  | _, _ => (p, pools)

end Probe

end Intake.Script
