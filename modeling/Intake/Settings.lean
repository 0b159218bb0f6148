/-!
# Settings of a read

Times are lengths in nanoseconds. Zero switches the partition timeout and the progress report off;
the heartbeat and the capacity of the bus have a least value.
-/

namespace Intake

/-- A length of time. -/
structure Duration where
  nanos : Nat
deriving DecidableEq, Repr, Inhabited

namespace Duration

/-- The length made of whole seconds and nanoseconds. -/
def ofParts (seconds nanos : Nat) : Duration := ⟨seconds * 1000000000 + nanos⟩

/-- A duration of milliseconds. -/
def ofMillis (ms : Nat) : Duration := ⟨ms * 1000000⟩

/-- The whole seconds of a length. -/
def seconds (d : Duration) : Nat := d.nanos / 1000000000

/-- What a length has beyond its whole seconds. -/
def subsecond (d : Duration) : Nat := d.nanos % 1000000000

/-- A length in milliseconds, rounded down. -/
def millis (d : Duration) : Nat := d.nanos / 1000000

end Duration

/-- The settings of a read. -/
structure Settings where
  /-- How long one partition may run; zero sets no limit. -/
  timeout : Duration := .ofParts 300 0
  /-- How long a refused acquisition waits at most before it probes again. -/
  heartbeat : Duration := .ofMillis 100
  /-- How many events the bus holds. -/
  busCapacity : Nat := 1024
  /-- How often progress is reported; zero switches the report off. -/
  progress : Duration := .ofParts 60 0
deriving DecidableEq, Repr, Inhabited

namespace Settings

/-- A length that means something only when it is not zero. -/
def unlessZero (d : Duration) : Option Duration :=
  if d.nanos = 0 then none else some d

/-- The limit of a partition run, if there is one. -/
def partitionTimeout (s : Settings) : Option Duration := unlessZero s.timeout

/-- The heartbeat in force: at least one millisecond. -/
def heartbeatInForce (s : Settings) : Duration := ⟨max s.heartbeat.nanos 1000000⟩

/-- The capacity of the bus in force: at least one event. -/
def busCapacityInForce (s : Settings) : Nat := max s.busCapacity 1

/-- The period of the progress report, if there is one. -/
def progressPeriod (s : Settings) : Option Duration := unlessZero s.progress

end Settings

end Intake
