/-!
# Faults

A fault says why a read, a feed, a creator or a partition did not end well. Faults are trees: a fault
may carry the fault that made it, and `several` carries all faults of one read, the first of them being
the one that counts.

Each fault has one sentence (`describe`). Following `source?` gives the chain of causes (`chain`);
`message` is the sentences of the fault and of its chain, and `root` is the last cause.
-/

namespace Intake

/-- Why something did not end well. -/
inductive Fault
  /-- A connector reports a failure of its own. -/
  | reported (text : String)
  /-- No factory makes a creator for the feed. -/
  | noFactory (feed : String)
  /-- The ledger has no slot for the feed. -/
  | untracked (feed : String)
  /-- The creator of a round failed. -/
  | creation (feed : String) (round : Nat) (source : Fault)
  /-- A partition of a round failed. -/
  | partition (feed : String) (round index : Nat) (source : Fault)
  /-- A partition was stopped because an earlier one failed. -/
  | partitionHalted (feed : String) (round index : Nat) (cause : Fault)
  /-- The global feed was stopped because some of its streams did not complete. -/
  | feedHalted (feed : String) (cause : Fault)
  /-- Connector code crashed inside a task of the feed. -/
  | crashed (feed message : String)
  /-- The read was cancelled from outside. -/
  | cancelled
  /-- More than one fault; the first one counts. -/
  | several (first : Fault) (others : List Fault)
deriving Repr, Inhabited

namespace Fault

/-- The kind of a fault, as a fixed label. -/
def label : Fault → String
  | reported _ => "read_failed"
  | noFactory _ => "factory_exhausted"
  | untracked _ => "unknown_feed"
  | creation .. => "creator_failed"
  | partition .. => "partition_failed"
  | partitionHalted .. => "partition_cancelled"
  | feedHalted .. => "feed_cancelled"
  | crashed .. => "feed_panicked"
  | cancelled => "read_canceled"
  | several .. => "aggregate"

/-- The sentence of a fault, without its causes; `several` speaks through its first fault. -/
def describe : Fault → String
  | reported text => "read failed: " ++ text
  | noFactory feed => "no partitions creator factory accepted feed '" ++ feed ++ "'"
  | untracked feed => "feed '" ++ feed ++ "' is not tracked by the state manager"
  | creation feed round _ =>
    "feed '" ++ feed ++ "' round " ++ toString round ++ ": partitions creator failed"
  | partition feed round index _ =>
    "feed '" ++ feed ++ "' round " ++ toString round ++ ": partition " ++ toString index ++ " failed"
  | partitionHalted feed round index _ =>
    "feed '" ++ feed ++ "' round " ++ toString round ++ ": partition " ++ toString index
      ++ " cancelled after an earlier partition failed"
  | feedHalted feed _ =>
    "feed '" ++ feed ++ "' cancelled: at least one of its streams did not complete"
  | crashed feed message => "feed '" ++ feed ++ "' task panicked: " ++ message
  | cancelled => "context cancelled"
  | several first others =>
    describe first ++ " (and " ++ toString others.length ++ " suppressed)"

/-- The fault that made this one. -/
def source? : Fault → Option Fault
  | creation _ _ source => some source
  | partition _ _ _ source => some source
  | partitionHalted _ _ _ cause => some cause
  | feedHalted _ cause => some cause
  | several first _ => some first
  | _ => none

/-- The causes of a fault, nearest first; the fault itself is not among them. -/
def chain : Fault → List Fault
  | creation _ _ source => source :: chain source
  | partition _ _ _ source => source :: chain source
  | partitionHalted _ _ _ cause => cause :: chain cause
  | feedHalted _ cause => cause :: chain cause
  | several first _ => first :: chain first
  | _ => []

/-- The last cause of a fault, or the fault itself when it has none. -/
def root : Fault → Fault
  | creation _ _ source => root source
  | partition _ _ _ source => root source
  | partitionHalted _ _ _ cause => root cause
  | feedHalted _ cause => root cause
  | several first _ => root first
  | fault => fault

/-- The sentences of the causes, each after a colon. -/
def trail : Fault → String
  | creation _ _ source => ": " ++ source.describe ++ trail source
  | partition _ _ _ source => ": " ++ source.describe ++ trail source
  | partitionHalted _ _ _ cause => ": " ++ cause.describe ++ trail cause
  | feedHalted _ cause => ": " ++ cause.describe ++ trail cause
  | several first _ => ": " ++ first.describe ++ trail first
  | _ => ""

/-- The full message of a fault: its sentence and the sentences of its causes. -/
def message (e : Fault) : String := e.describe ++ e.trail

/-- Whether a fault only says that something was stopped from elsewhere. -/
def isCancellation : Fault → Bool
  | cancelled => true
  | partitionHalted .. => true
  | feedHalted .. => true
  | _ => false

/-- One fault for a list of them: none for none, the fault itself for one. -/
def aggregate? : List Fault → Option Fault
  | [] => none
  | [e] => some e
  | e :: rest => some (several e rest)

end Fault

/-- What connector code leaves behind when it crashes. -/
inductive Crash
  /-- A crash that says something. -/
  | saying (text : String)
  /-- A crash with anything else. -/
  | silent
deriving DecidableEq, Repr, Inhabited

namespace Crash

/-- The message under which a crash is reported. -/
def message : Crash → String
  | saying text => text
  | silent => "unknown panic"

end Crash

end Intake
