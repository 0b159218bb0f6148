import Intake.Table
import Intake.Value
import Intake.Feed
import Intake.Fault
import Intake.Settings
import Intake.Event
import Intake.LogLine
import Intake.Tracker
import Intake.Message
import Intake.RecordWriter
import Intake.Slot
import Intake.Ledger
import Intake.Bootstrap
import Intake.Board
import Intake.Ring
import Intake.Script.Decoration
import Intake.Fanout
import Intake.Delivery
import Intake.Script.Hall
import Intake.Acquisition
import Intake.Script.Probe
import Intake.Script.Contention
import Intake.Read.Round
import Intake.Read.Act
import Intake.Read.Partition
import Intake.Read.FeedTask
import Intake.Read.System
import Intake.Script.Connector
import Intake.Script.Session
import Intake.Script.Transcript
import Intake.Proofs.Rules
import Intake.Proofs.Trace
import Intake.Proofs.Round
import Intake.Proofs.Fate
import Intake.Proofs.Reading
import Intake.Proofs.Enrolment
import Intake.Proofs.Supervision
import Intake.Proofs.Serial
import Intake.Proofs.Following
import Intake.Proofs.Interleaving
import Intake.Proofs.History
import Intake.Proofs.Desk
import Intake.Proofs.Reporting
import Intake.Proofs.Emission
import Intake.Proofs.Progress
import Intake.Proofs.Isolation
import Intake.Proofs.Status
import Intake.Proofs.Blame
import Intake.Proofs.Roster
import Intake.Proofs.Notices
import Intake.Proofs.Coupling
import Intake.Proofs.Replay
import Intake.Proofs.Closing
import Intake.Proofs.Protocol
import Intake.Proofs.Parties
import Intake.Proofs.Dealings
import Intake.Proofs.Storyline
import Intake.Proofs.Instalments
import Intake.Proofs.Bookkeeping
import Intake.Proofs.Remainder
import Intake.Proofs.Checkpoint
import Intake.Proofs.Flush
import Intake.Proofs.Queueing
import Intake.Proofs.Audience
import Intake.Proofs.Listening
import Intake.Proofs.Feedback
import Intake.Proofs.Tracking
import Intake.Proofs.Endings
import Intake.Proofs.Broadcast
import Intake.Proofs.Performance
import Intake.Proofs.Running
import Intake.Proofs.Gate
import Intake.Proofs.Contest
import Intake.Proofs.Wakeup
import Intake.Proofs.Causes
import Intake.Proofs.Resetting
import Intake.Proofs.Records
import Intake.Proofs.Neighbours
import Intake.Proofs.Answers
import Intake.Proofs.Gathering
import Intake.Proofs.Layout
