import Intake.Read.System
import Mathlib.Tactic.Common
/-!
# The steps of the tasks, rule by rule

`Partition.step`, `FeedTask.step` and `System.supervise` compute the next state of a task. Here the same
steps are given as rules, one constructor per kind of step, with what must hold for it and what comes of it.
A proof about all steps of a task is then a case split over named rules and need not unfold the step
functions.

* `Partition.rule_of_step`: every step of a partition is by one of the rules `Partition.Rule`.
* `FeedTask.rule_of_step`: every step of a feed is by one of the rules `FeedTask.Rule`.
* `System.supervision_of_supervise`: every step of the supervisor is by one of the rules
  `System.Supervision`.
-/

namespace Intake.Read

/-! ### Partitions -/

namespace Partition

/-- The rules by which the task of a partition goes on. -/
inductive Rule (v : View) (t : Partition) : Act → Next → Prop
  | enters : t.phase = .queued → v.turn = true → Rule v t .go (t.goto (.acquiring .fresh))
  | leavesQueue : t.phase = .queued → v.cancelled = true →
      Rule v t .quit (t.goto (.signalling (.error .cancelled)))
  | acquireMoves {p p' : Acquisition.Phase} {a : Act} {move : Acquisition.Move} :
      t.phase = .acquiring p → a.acquisition? = some move →
      Acquisition.step v.cancelled v.releases p move = some (.moved p') →
      Rule v t a (t.goto (.acquiring p'))
  | acquireRetries {p p' : Acquisition.Phase} {a : Act} {move : Acquisition.Move} :
      t.phase = .acquiring p → a.acquisition? = some move →
      Acquisition.step v.cancelled v.releases p move = some (.retried p') →
      Rule v t a { t.goto (.acquiring p') with
        effects := [.publish (event v .resourcesUnavailable), .timer v.actor v.heartbeat] }
  | acquires {p : Acquisition.Phase} {a : Act} {move : Acquisition.Move} :
      t.phase = .acquiring p → a.acquisition? = some move →
      Acquisition.step v.cancelled v.releases p move = some (.done .acquired) →
      Rule v t a (t.goto (.signalling (.ok ())))
  | acquireFails {p : Acquisition.Phase} {a : Act} {move : Acquisition.Move} {e : Fault} :
      t.phase = .acquiring p → a.acquisition? = some move →
      Acquisition.step v.cancelled v.releases p move = some (.done (.failed e)) →
      Rule v t a (t.goto (.signalling (.error e)))
  | acquireCrashes {p : Acquisition.Phase} {a : Act} {move : Acquisition.Move} {message : String} :
      t.phase = .acquiring p → a.acquisition? = some move →
      Acquisition.step v.cancelled v.releases p move = some (.done (.crashed message)) →
      Rule v t a (t.crash message)
  | signals : t.phase = .signalling (.ok ()) →
      Rule v t .go ({ t with passed := true }.goto .opening)
  | signalsFailure {e : Fault} : t.phase = .signalling (.error e) →
      Rule v t .go ({ t with passed := true }.goto (.reporting (.error e)))
  | opens : t.phase = .opening →
      Rule v t .go { t.goto .running with
        effects := .publish (event v .partitionReadStarting) ::
          (t.limit v).toList.map (.timer v.actor) }
  | quits : t.phase = .running → v.cancelled = true →
      Rule v t .quit (t.goto (.releasing (.error .cancelled)))
  | polls : t.phase = .running → v.cancelled = false → Rule v t .go (t.goto .polling)
  | waits : t.phase = .polling → Rule v t .go (t.goto .running)
  | runs : t.phase = .polling → Rule v t (.ran .done) (t.goto (.releasing (.ok .completed)))
  | runFails {e : Fault} : t.phase = .polling →
      Rule v t (.ran (.failed e)) (t.goto (.releasing (.error e)))
  | runCrashes {message : String} : t.phase = .polling →
      Rule v t (.ran (.crashed message)) (t.crash message)
  | timesOut : t.phase = .polling → (t.limit v).isSome = true →
      Rule v t .elapse (t.goto (.releasing (.ok .timedOut)))
  | releases {r : Except Fault Ending} : t.phase = .releasing r →
      Rule v t .go { t.goto (.notifying r) with effects := [.release v.actor] }
  | notifies {e : Ending} : t.phase = .notifying (.ok e) →
      Rule v t .go { t.goto (.saving e) with notified := true }
  | notifiesFailure {e : Fault} : t.phase = .notifying (.error e) →
      Rule v t .go { t.goto (.reporting (.error e)) with notified := true }
  | saves {e : Ending} {c : Checkpoint} : t.phase = .saving e →
      Rule v t (.saved (.checkpoint c)) (t.goto (.reporting (.ok (e, c))))
  | saveCrashes {e : Ending} {message : String} : t.phase = .saving e →
      Rule v t (.saved (.crashed message)) (t.crash message)
  | reports {r : Except Fault (Ending × Checkpoint)} : t.phase = .reporting r →
      Rule v t .go { t.goto (.ended (t.report v r).2) with effects := [.publish (t.report v r).1] }

theorem rule_of_stepAcquiring {v : View} {t : Partition} {p : Acquisition.Phase} {a : Act}
    {next : Next} (hp : t.phase = .acquiring p) (h : t.stepAcquiring v p a = some next) :
    Rule v t a next := by
  unfold stepAcquiring at h
  obtain ⟨move, hm, h⟩ := Option.bind_eq_some_iff.mp h
  obtain ⟨result, hr, h⟩ := Option.bind_eq_some_iff.mp h
  rcases result with p' | p' | o
  · cases h; exact .acquireMoves hp hm hr
  · cases h; exact .acquireRetries hp hm hr
  · rcases o with _ | e | message
    · cases h; exact .acquires hp hm hr
    · cases h; exact .acquireFails hp hm hr
    · cases h; exact .acquireCrashes hp hm hr

theorem rule_of_stepRunning {v : View} {t : Partition} {a : Act} {next : Next}
    (hp : t.phase = .running) (h : t.stepRunning v a = some next) : Rule v t a next := by
  unfold stepRunning at h
  split at h
  · split at h
    · cases h; exact .quits hp ‹_›
    · cases h
  · split at h
    · cases h
    · rename_i hc
      cases h; exact .polls hp (Bool.eq_false_iff.mpr hc)
  · cases h

theorem rule_of_stepPolling {v : View} {t : Partition} {a : Act} {next : Next}
    (hp : t.phase = .polling) (h : t.stepPolling v a = some next) : Rule v t a next := by
  unfold stepPolling at h
  split at h
  · cases h; exact .runs hp
  · cases h; exact .runFails hp
  · cases h; exact .runCrashes hp
  · split at h
    · cases h; exact .timesOut hp ‹_›
    · cases h
  · cases h; exact .waits hp
  · cases h

/-- Every step of a partition is by one of the rules. -/
theorem rule_of_step {v : View} {t : Partition} {a : Act} {next : Next}
    (h : t.step v a = some next) : Rule v t a next := by
  unfold step at h
  split at h
  case h_1 hp =>
    unfold stepQueued at h
    split at h
    · split at h
      · cases h; exact .enters hp ‹_›
      · cases h
    · split at h
      · cases h; exact .leavesQueue hp ‹_›
      · cases h
    · cases h
  case h_2 hp => exact rule_of_stepAcquiring hp h
  case h_3 r hp =>
    unfold stepSignalling at h
    split at h
    · rcases r with e | _
      · cases h; exact .signalsFailure hp
      · cases h; exact .signals hp
    · cases h
  case h_4 hp =>
    unfold stepOpening at h
    split at h
    · cases h; exact .opens hp
    · cases h
  case h_5 hp => exact rule_of_stepRunning hp h
  case h_6 hp => exact rule_of_stepPolling hp h
  case h_7 hp =>
    unfold stepReleasing at h
    split at h
    · cases h; exact .releases hp
    · cases h
  case h_8 r hp =>
    unfold stepNotifying at h
    split at h
    · rcases r with e | e
      · cases h; exact .notifiesFailure hp
      · cases h; exact .notifies hp
    · cases h
  case h_9 hp =>
    unfold stepSaving at h
    split at h
    · cases h; exact .saves hp
    · cases h; exact .saveCrashes hp
    · cases h
  case h_10 hp =>
    unfold stepReporting at h
    split at h
    · cases h; exact .reports hp
    · cases h
  case h_11 => cases h

/-- Who stopped a partition, whether its end was taken and its limit are not its own business. -/
theorem Rule.frame {v : View} {t : Partition} {a : Act} {next : Next} (h : Rule v t a next) :
    next.task.halted = t.halted ∧ next.task.joined = t.joined ∧
      next.task.unlimited = t.unlimited := by
  cases h <;> exact ⟨rfl, rfl, rfl⟩

/-- A task that has ended makes no step. -/
theorem Rule.ended?_eq_none {v : View} {t : Partition} {a : Act} {next : Next}
    (h : Rule v t a next) : t.ended? = none := by
  cases h with
  | _ hp => simp only [ended?, hp]

/-- Whether a task in a phase has done with acquiring. -/
def Phase.hasAcquired : Phase → Bool
  | .queued => false
  | .acquiring _ => false
  | .signalling _ => false
  | _ => true

theorem hasAcquired_of_ended {t : Partition} (h : t.ended?.isSome = true) :
    t.phase.hasAcquired = true := by
  unfold ended? at h
  split at h
  · rename_i hp
    rw [hp]
    rfl
  · cases h

/-- A task that has done with acquiring lets the next partition go on. -/
theorem Rule.passed {v : View} {t : Partition} {a : Act} {next : Next} (h : Rule v t a next)
    (ht : t.phase.hasAcquired = true → t.passed = true)
    (hnext : next.task.phase.hasAcquired = true) : next.task.passed = true := by
  cases h with
  | signals | signalsFailure | acquireCrashes | runCrashes | saveCrashes => rfl
  | enters | leavesQueue | acquireMoves | acquireRetries | acquires | acquireFails => cases hnext
  | _ hp => exact ht (by rw [hp]; rfl)

end Partition

/-! ### Feeds -/

namespace FeedTask

/-- How the round of a feed is to end, once every partition has a result. -/
def roundEnd (v : View) (t : FeedTask) (r : Round) : RoundEnd :=
  match r.verdict (t.cancelledIn v) with
  | .ok () => .more
  | .error e => .failed e

/-- The event that tells of a checkpoint applied for the partition of an index. -/
def appliedEvent (t : FeedTask) (index : Nat) (c : Checkpoint) : Event :=
  { t.roundEvent .checkpointApplied with partition := some (index + 1), records := some c.records }

/-- The rules by which the task of a feed goes on. -/
inductive Rule (v : View) (t : FeedTask) (s : Shared) : Act → Next → Prop
  | begins {key : SlotKey} : t.phase = .asleep → s.ledger.scope? t.feed = some key →
      Rule v t s .go (t.gotoWith s (.making 0) [.publish (t.event .feedStarting)])
  | beginsUntracked : t.phase = .asleep → s.ledger.scope? t.feed = none →
      Rule v t s .go (t.gotoWith s (.failing (.untracked t.label)) [.publish (t.event .feedStarting)])
  | exhausts {k : Nat} : t.phase = .making k → ¬ k < v.factories →
      Rule v t s .go (t.goto s (.failing (.noFactory t.label)))
  | isDeclined {k : Nat} : t.phase = .making k → k < v.factories →
      Rule v t s (.made .none) (t.goto s (.making (k + 1)))
  | makes {k : Nat} : t.phase = .making k → k < v.factories →
      Rule v t s (.made .creator) (t.goto s (.acquiring .fresh))
  | makeCrashes {k : Nat} {message : String} : t.phase = .making k → k < v.factories →
      Rule v t s (.made (.crashed message)) (t.goto s (.crashed message))
  | acquireMoves {p p' : Acquisition.Phase} {a : Act} {move : Acquisition.Move} :
      t.phase = .acquiring p → a.acquisition? = some move →
      Acquisition.step (t.cancelledIn v) t.releases p move = some (.moved p') →
      Rule v t s a (t.goto s (.acquiring p'))
  | acquireRetries {p p' : Acquisition.Phase} {a : Act} {move : Acquisition.Move} :
      t.phase = .acquiring p → a.acquisition? = some move →
      Acquisition.step (t.cancelledIn v) t.releases p move = some (.retried p') →
      Rule v t s a (t.gotoWith s (.acquiring p')
        [ .publish (t.roundEvent .resourcesUnavailable)
        , .timer (.feed v.index) v.settings.heartbeatInForce ])
  | acquires {p : Acquisition.Phase} {a : Act} {move : Acquisition.Move} :
      t.phase = .acquiring p → a.acquisition? = some move →
      Acquisition.step (t.cancelledIn v) t.releases p move = some (.done .acquired) →
      Rule v t s a (t.goto s (.starting (if t.round = 1 then t.feed.ids else [])))
  | acquireFails {p : Acquisition.Phase} {a : Act} {move : Acquisition.Move} {e : Fault} :
      t.phase = .acquiring p → a.acquisition? = some move →
      Acquisition.step (t.cancelledIn v) t.releases p move = some (.done (.failed e)) →
      Rule v t s a (t.goto s (.failing (t.creationFault v e)))
  | acquireCrashes {p : Acquisition.Phase} {a : Act} {move : Acquisition.Move} {message : String} :
      t.phase = .acquiring p → a.acquisition? = some move →
      Acquisition.step (t.cancelledIn v) t.releases p move = some (.done (.crashed message)) →
      Rule v t s a (t.goto s (.crashed message))
  | saysStarting {id : StreamId} {rest : List StreamId} : t.phase = .starting (id :: rest) →
      Rule v t s .go
        (t.gotoWith (t.tell s .starting id).1 (.starting rest) (t.tell s .starting id).2)
  | hasStarted : t.phase = .starting [] → Rule v t s .go (t.goto s .opening)
  | opens : t.phase = .opening →
      Rule v t s .go (t.gotoWith s .creating [.publish (t.roundEvent .creatorStarting)])
  | creates {readers : List Bool} : t.phase = .creating →
      Rule v t s (.created (.readers readers)) (t.goto s (.releasing (.ok readers)))
  | createFails {e : Fault} : t.phase = .creating →
      Rule v t s (.created (.failed e)) (t.goto s (.releasing (.error (.creation t.label t.round e))))
  | createCrashes {message : String} : t.phase = .creating →
      Rule v t s (.created (.crashed message)) (t.goto s (.crashed message))
  | quits : t.phase = .creating → t.cancelledIn v = true →
      Rule v t s .quit (t.goto s (.releasing (.error .cancelled)))
  | releases {r : Except Fault (List Bool)} : t.phase = .releasing r →
      Rule v t s .go (t.gotoWith s (.notifying r) [.release (.feed v.index)])
  | notifies {readers : List Bool} : t.phase = .notifying (.ok readers) →
      Rule v t s .go ({ t with releases := t.releases + 1 }.goto s (.created readers))
  | notifiesFailure {e : Fault} : t.phase = .notifying (.error e) →
      Rule v t s .go ({ t with releases := t.releases + 1 }.goto s (.failing e))
  | findsNothing : t.phase = .created [] →
      Rule v t s .go ({ t with parts := [] }.gotoWith s (.locking .last)
        [.publish { t.roundEvent .partitionsCreated with count := some 0 }])
  | starts {readers : List Bool} : t.phase = .created readers → readers ≠ [] →
      Rule v t s .go ({ t with parts := partitions readers }.gotoWith s
        (.reading (.start t.label t.round readers.length))
        [.publish { t.roundEvent .partitionsCreated with count := some readers.length }])
  | applies {r : Round} {c : Checkpoint} : t.phase = .reading r → r.next? = some c →
      Rule v t s .go (t.gotoWith (t.applyCheckpoint s c) (.reading r.applyNext)
        [.publish (t.appliedEvent r.applied c)])
  | closes {r : Round} : t.phase = .reading r → r.next? = none →
      (r.full || t.parts.all (·.joined)) = true →
      Rule v t s .go (t.goto s (.locking (t.roundEnd v r)))
  | joins {r r' : Round} {j : Nat} {t' : FeedTask} : t.phase = .reading r → r.next? = none →
      r.full = false → t.join v r j = some (t', r') →
      Rule v t s (.join j) (t'.goto s (.reading r'))
  | locks {next : RoundEnd} : t.phase = .locking next → s.locked = false →
      Rule v t s .go (t.goto { s with locked := true } (.visiting s.ledger.plan {} next))
  | visits {visit : Ledger.Visit} {rest : List Ledger.Visit} {draft : Ledger.Draft}
      {next : RoundEnd} : t.phase = .visiting (visit :: rest) draft next →
      Rule v t s .go (t.goto { s with ledger := (s.ledger.visit draft visit).1 }
        (.visiting (s.ledger.follow visit ++ rest) (s.ledger.visit draft visit).2 next))
  | hasVisited {draft : Ledger.Draft} {next : RoundEnd} : t.phase = .visiting [] draft next →
      Rule v t s .go (t.goto s (.writing draft.messages draft.messages.length next))
  | writes {message : StateMessage} {rest : List StateMessage} {count : Nat} {next : RoundEnd} :
      t.phase = .writing (message :: rest) count next →
      Rule v t s .go (t.gotoWith s (.writing rest count next) [.write (.state message)])
  | unlocks {count : Nat} {next : RoundEnd} : t.phase = .writing [] count next →
      Rule v t s .go { t.afterRound { s with locked := false } next with
        effects := if count = 0 then []
          else [.publish { t.roundEvent .checkpointEmitted with count := some count }] }
  | saysComplete {id : StreamId} {rest : List StreamId} : t.phase = .completing (id :: rest) →
      Rule v t s .go
        (t.gotoWith (t.tell s .complete id).1 (.completing rest) (t.tell s .complete id).2)
  | hasCompleted : t.phase = .completing [] → Rule v t s .go (t.goto s .completed)
  | finishes : t.phase = .completed →
      Rule v t s .go (t.gotoWith s (.done (.ok ())) [.publish (t.roundEvent .feedCompleted)])
  | stopsForCause {cause : Fault} : t.phase = .failing .cancelled → t.cause = some cause →
      Rule v t s .go (t.goto s (.stopping .stopped (.feedHalted t.label cause) t.feed.ids))
  | stops {e : Fault} : t.phase = .failing e → (e = .cancelled → t.cause = none) →
      Rule v t s .go (t.goto s (.stopping .failure e t.feed.ids))
  | saysStopped {n : Notice} {e : Fault} {id : StreamId} {rest : List StreamId} :
      t.phase = .stopping n e (id :: rest) →
      Rule v t s .go (t.gotoWith (t.tell s n id).1 (.stopping n e rest) (t.tell s n id).2)
  | hasStopped {n : Notice} {e : Fault} : t.phase = .stopping n e [] →
      Rule v t s .go (t.gotoWith s (.done (.error e))
        [.publish { t.event (stopKind n) with reason := some e.message }])

theorem rule_of_stepMaking {v : View} {t : FeedTask} {s : Shared} {k : Nat} {a : Act} {next : Next}
    (hp : t.phase = .making k) (h : t.stepMaking v s k a = some next) : Rule v t s a next := by
  unfold stepMaking at h
  split at h
  · split at h
    · cases h
    · cases h; exact .exhausts hp ‹_›
  · split at h
    · split at h
      · cases h; exact .isDeclined hp ‹_›
      · cases h; exact .makes hp ‹_›
      · cases h; exact .makeCrashes hp ‹_›
    · cases h
  · cases h

theorem rule_of_stepAcquiring {v : View} {t : FeedTask} {s : Shared} {p : Acquisition.Phase}
    {a : Act} {next : Next} (hp : t.phase = .acquiring p)
    (h : t.stepAcquiring v s p a = some next) : Rule v t s a next := by
  unfold stepAcquiring at h
  obtain ⟨move, hm, h⟩ := Option.bind_eq_some_iff.mp h
  obtain ⟨result, hr, h⟩ := Option.bind_eq_some_iff.mp h
  rcases result with p' | p' | o
  · cases h; exact .acquireMoves hp hm hr
  · cases h; exact .acquireRetries hp hm hr
  · rcases o with _ | e | message
    · cases h; exact .acquires hp hm hr
    · cases h; exact .acquireFails hp hm hr
    · cases h; exact .acquireCrashes hp hm hr

theorem rule_of_stepCreating {v : View} {t : FeedTask} {s : Shared} {a : Act} {next : Next}
    (hp : t.phase = .creating) (h : t.stepCreating v s a = some next) : Rule v t s a next := by
  unfold stepCreating at h
  split at h
  · cases h; exact .creates hp
  · cases h; exact .createFails hp
  · cases h; exact .createCrashes hp
  · split at h
    · cases h; exact .quits hp ‹_›
    · cases h
  · cases h

theorem rule_of_stepCreated {v : View} {t : FeedTask} {s : Shared} {readers : List Bool} {a : Act}
    {next : Next} (hp : t.phase = .created readers) (h : t.stepCreated s readers a = some next) :
    Rule v t s a next := by
  unfold stepCreated at h
  split at h
  · rcases readers with _ | ⟨first, rest⟩
    · cases h; exact .findsNothing hp
    · cases h; exact .starts hp (List.cons_ne_nil _ _)
  · cases h

theorem rule_of_stepReading {v : View} {t : FeedTask} {s : Shared} {r : Round} {a : Act}
    {next : Next} (hp : t.phase = .reading r) (h : t.stepReading v s r a = some next) :
    Rule v t s a next := by
  unfold stepReading at h
  split at h
  · split at h
    · cases h; exact .applies hp ‹_›
    · split at h
      · cases h; exact .closes hp ‹_› ‹_›
      · cases h
  · split at h
    · rename_i hc
      obtain ⟨⟨t', r'⟩, hj, h⟩ := Option.bind_eq_some_iff.mp h
      cases h
      simp only [Bool.and_eq_true, Option.isNone_iff_eq_none, Bool.not_eq_true'] at hc
      exact .joins hp hc.1 hc.2 hj
    · cases h
  · cases h

theorem rule_of_stepFailing {v : View} {t : FeedTask} {s : Shared} {e : Fault} {a : Act} {next : Next}
    (hp : t.phase = .failing e) (h : t.stepFailing s e a = some next) : Rule v t s a next := by
  unfold stepFailing at h
  split at h
  · split at h
    · cases h; exact .stopsForCause hp ‹_›
    · rename_i hn
      cases h
      refine .stops hp fun he => ?_
      rcases hc : t.cause with _ | cause
      · rfl
      · exact absurd hc (hn cause he)
  · cases h

/-- Every step of a feed is by one of the rules. -/
theorem rule_of_step {v : View} {t : FeedTask} {s : Shared} {a : Act} {next : Next}
    (h : t.step v s a = some next) : Rule v t s a next := by
  unfold step at h
  split at h
  case h_1 hp =>
    unfold stepAsleep at h
    split at h
    · rcases hs : s.ledger.scope? t.feed with _ | key
      · rw [hs] at h; cases h; exact .beginsUntracked hp hs
      · rw [hs] at h; cases h; exact .begins hp hs
    · cases h
  case h_2 hp => exact rule_of_stepMaking hp h
  case h_3 hp => exact rule_of_stepAcquiring hp h
  case h_4 left hp =>
    unfold stepStarting at h
    split at h
    · rcases left with _ | ⟨id, rest⟩
      · cases h; exact .hasStarted hp
      · cases h; exact .saysStarting hp
    · cases h
  case h_5 hp =>
    unfold stepOpening at h
    split at h
    · cases h; exact .opens hp
    · cases h
  case h_6 hp => exact rule_of_stepCreating hp h
  case h_7 hp =>
    unfold stepReleasing at h
    split at h
    · cases h; exact .releases hp
    · cases h
  case h_8 r hp =>
    unfold stepNotifying at h
    split at h
    · rcases r with e | readers
      · cases h; exact .notifiesFailure hp
      · cases h; exact .notifies hp
    · cases h
  case h_9 hp => exact rule_of_stepCreated hp h
  case h_10 hp => exact rule_of_stepReading hp h
  case h_11 hp =>
    unfold stepLocking at h
    split at h
    · split at h
      · cases h
      · cases h; exact .locks hp (Bool.eq_false_iff.mpr ‹_›)
    · cases h
  case h_12 left draft next hp =>
    unfold stepVisiting at h
    split at h
    · rcases left with _ | ⟨visit, rest⟩
      · cases h; exact .hasVisited hp
      · cases h; exact .visits hp
    · cases h
  case h_13 left count next hp =>
    unfold stepWriting at h
    split at h
    · rcases left with _ | ⟨message, rest⟩
      · cases h; exact .unlocks hp
      · cases h; exact .writes hp
    · cases h
  case h_14 left hp =>
    unfold stepCompleting at h
    split at h
    · rcases left with _ | ⟨id, rest⟩
      · cases h; exact .hasCompleted hp
      · cases h; exact .saysComplete hp
    · cases h
  case h_15 hp =>
    unfold stepCompleted at h
    split at h
    · cases h; exact .finishes hp
    · cases h
  case h_16 hp => exact rule_of_stepFailing hp h
  case h_17 n e left hp =>
    unfold stepStopping at h
    split at h
    · rcases left with _ | ⟨id, rest⟩
      · cases h; exact .hasStopped hp
      · cases h; exact .saysStopped hp
    · cases h
  case h_18 => cases h
  case h_19 => cases h

/-- The task after the end of the partition of an index was taken and others were stopped. -/
def taken (t : FeedTask) (j : Nat) (p : Partition) (indices : List Nat) : FeedTask :=
  { t with parts := haltParts (t.parts.set j { p with joined := true }) indices }

/-- Only the end of a partition that has ended is taken. -/
theorem eq_taken_of_join {v : View} {t t' : FeedTask} {r r' : Round} {j : Nat}
    (h : t.join v r j = some (t', r')) :
    ∃ p e, t.parts[j]? = some p ∧ p.ended? = some e ∧
      t' = t.taken j p (r.observe (t.cancelledIn v) j e).2 ∧
      r' = (r.observe (t.cancelledIn v) j e).1 := by
  unfold join at h
  obtain ⟨p, hp, h⟩ := Option.bind_eq_some_iff.mp h
  obtain ⟨e, he, h⟩ := Option.bind_eq_some_iff.mp h
  split at h
  · cases h
  · obtain ⟨rfl, rfl⟩ := Prod.mk.injEq _ _ _ _ ▸ Option.some.inj h
    exact ⟨p, e, hp, he, rfl, rfl⟩

/-- Taking the end of a partition changes the partitions of a feed and nothing else of it. -/
theorem join_frame {v : View} {t t' : FeedTask} {r r' : Round} {j : Nat}
    (h : t.join v r j = some (t', r')) : ∃ parts, t' = { t with parts } := by
  obtain ⟨p, e, -, -, rfl, -⟩ := eq_taken_of_join h
  exact ⟨_, rfl⟩

/-- What a feed is, and whether and why it was stopped, is not changed by its own steps. -/
theorem Rule.frame {v : View} {t : FeedTask} {s : Shared} {a : Act} {next : Next}
    (h : Rule v t s a next) :
    next.task.feed = t.feed ∧ next.task.halted = t.halted ∧ next.task.cause = t.cause := by
  cases h with
  | joins hp hn hf hj =>
    obtain ⟨parts, rfl⟩ := join_frame hj
    exact ⟨rfl, rfl, rfl⟩
  | @unlocks count next hp => cases next <;> exact ⟨rfl, rfl, rfl⟩
  | _ => exact ⟨rfl, rfl, rfl⟩

/-- A feed does not cancel itself. -/
theorem Rule.cancelledIn_eq {v : View} {t : FeedTask} {s : Shared} {a : Act} {next : Next}
    (h : Rule v t s a next) (w : View) : next.task.cancelledIn w = t.cancelledIn w :=
  congrArg (w.cancelled || ·) h.frame.2.1

/-- A task that is over makes no step. -/
theorem Rule.not_finished {v : View} {t : FeedTask} {s : Shared} {a : Act} {next : Next}
    (h : Rule v t s a next) : t.finished = false := by
  cases h with
  | _ hp => simp only [finished, hp]

/-- While a feed reads partitions it applies a checkpoint, closes the round or takes an end. -/
theorem Rule.of_reading {v : View} {t : FeedTask} {s : Shared} {a : Act} {next : Next} {r : Round}
    (h : Rule v t s a next) (hp : t.phase = .reading r) :
    (∃ c, a = .go ∧ r.next? = some c ∧
      next = t.gotoWith (t.applyCheckpoint s c) (.reading r.applyNext)
        [.publish (t.appliedEvent r.applied c)]) ∨
    (a = .go ∧ r.next? = none ∧ (r.full || t.parts.all (·.joined)) = true ∧
      next = t.goto s (.locking (t.roundEnd v r))) ∨
    (∃ j t' r', a = .join j ∧ r.next? = none ∧ r.full = false ∧ t.join v r j = some (t', r') ∧
      next = t'.goto s (.reading r')) := by
  cases h with
  | applies hp' hn =>
    rw [hp] at hp'; cases hp'
    exact Or.inl ⟨_, rfl, hn, rfl⟩
  | closes hp' hn hc =>
    rw [hp] at hp'; cases hp'
    exact Or.inr (Or.inl ⟨rfl, hn, hc, rfl⟩)
  | joins hp' hn hf hj =>
    rw [hp] at hp'; cases hp'
    exact Or.inr (Or.inr ⟨_, _, _, rfl, hn, hf, hj, rfl⟩)
  | _ hp' => rw [hp] at hp'; cases hp'

end FeedTask

/-! ### The supervisor -/

namespace System

/-- The rules by which the supervisor goes on. -/
inductive Supervision (s : System) : System → List Effect → Prop
  | opens : s.watch = .opening →
      Supervision s { s with watch := .joining .streams (s.indices .streams) }
        [.publish { kind := .readStarting, count := some s.feeds.length }]
  | hasStreams : s.watch = .joining .streams [] →
      Supervision s { s with watch := .checking (s.indices .globals) } []
  | hasGlobals : s.watch = .joining .globals [] → Supervision s { s with watch := .closing } []
  | joinsDone {stage : Stage} {i : Nat} {left : List Nat} {t : FeedTask} :
      s.watch = .joining stage (i :: left) → s.feeds[i]? = some t → t.phase = .done (.ok ()) →
      Supervision s { s with watch := .joining stage left } []
  | joinsFailed {stage : Stage} {i : Nat} {left : List Nat} {t : FeedTask} {e : Fault} :
      s.watch = .joining stage (i :: left) → s.feeds[i]? = some t → t.phase = .done (.error e) →
      Supervision s { s.noteFault stage t.feed e with watch := .joining stage left } []
  | joinsCrashed {stage : Stage} {i : Nat} {left : List Nat} {t : FeedTask} {message : String} :
      s.watch = .joining stage (i :: left) → s.feeds[i]? = some t → t.phase = .crashed message →
      Supervision s { s with watch := .burying stage left i message t.feed.ids } []
  | buries {stage : Stage} {left : List Nat} {i : Nat} {message : String} {id : StreamId}
      {rest : List StreamId} {t : FeedTask} :
      s.watch = .burying stage left i message (id :: rest) → s.feeds[i]? = some t →
      Supervision s
        { s with shared := (t.tell s.shared .failure id).1,
                 watch := .burying stage left i message rest }
        (t.tell s.shared .failure id).2
  | hasBuried {stage : Stage} {left : List Nat} {i : Nat} {message : String} {t : FeedTask} :
      s.watch = .burying stage left i message [] → s.feeds[i]? = some t →
      Supervision s
        { s.noteFault stage t.feed (.crashed t.label message) with watch := .joining stage left }
        [.publish { t.event .feedFailed with reason := some message }]
  | hasChecked : s.watch = .checking [] →
      Supervision s { s with watch := .joining .globals (s.indices .globals) } []
  | passesFinished {i : Nat} {left : List Nat} {t : FeedTask} : s.watch = .checking (i :: left) →
      s.feeds[i]? = some t → t.finished = true →
      Supervision s { s with watch := .checking left } []
  | passesSound {i : Nat} {left : List Nat} {t : FeedTask} : s.watch = .checking (i :: left) →
      s.feeds[i]? = some t → t.finished = false →
      Fault.aggregate? (s.memberFaults t.feed) = none →
      Supervision s { s with watch := .checking left } []
  | blames {i : Nat} {left : List Nat} {t : FeedTask} {cause : Fault} :
      s.watch = .checking (i :: left) → s.feeds[i]? = some t → t.finished = false →
      Fault.aggregate? (s.memberFaults t.feed) = some cause →
      Supervision s
        { s with feeds := s.feeds.set i { t with cause := some (t.cause.getD cause) },
                 watch := .halting left i } []
  | halts {i : Nat} {left : List Nat} : s.watch = .halting left i →
      Supervision s
        { s with feeds := s.feeds.modify i fun t => { t with halted := true },
                 watch := .checking left } []
  | closes : s.watch = .closing →
      Supervision s { s with watch := .done (outcome s.cancelled s.faults) }
        [.publish (outcomeEvent s.faults.length (outcome s.cancelled s.faults))]

theorem supervision_of_joining {s s' : System} {stage : Stage} {left : List Nat}
    {effects : List Effect} (hw : s.watch = .joining stage left)
    (h : s.superviseJoining stage left = some (s', effects)) : Supervision s s' effects := by
  rcases left with _ | ⟨i, left⟩
  · cases stage with
    | streams => cases h; exact .hasStreams hw
    | globals => cases h; exact .hasGlobals hw
  · simp only [superviseJoining] at h
    obtain ⟨t, ht, h⟩ := Option.bind_eq_some_iff.mp h
    split at h
    · cases h; exact .joinsDone hw ht ‹_›
    · cases h; exact .joinsFailed hw ht ‹_›
    · cases h; exact .joinsCrashed hw ht ‹_›
    · cases h

theorem supervision_of_burying {s s' : System} {stage : Stage} {left : List Nat} {i : Nat}
    {message : String} {ids : List StreamId} {effects : List Effect}
    (hw : s.watch = .burying stage left i message ids)
    (h : s.superviseBurying stage left i message ids = some (s', effects)) :
    Supervision s s' effects := by
  unfold superviseBurying at h
  obtain ⟨t, ht, h⟩ := Option.bind_eq_some_iff.mp h
  rcases ids with _ | ⟨id, rest⟩
  · cases h; exact .hasBuried hw ht
  · cases h; exact .buries hw ht

theorem supervision_of_checking {s s' : System} {left : List Nat} {effects : List Effect}
    (hw : s.watch = .checking left) (h : s.superviseChecking left = some (s', effects)) :
    Supervision s s' effects := by
  rcases left with _ | ⟨i, left⟩
  · cases h; exact .hasChecked hw
  · simp only [superviseChecking] at h
    obtain ⟨t, ht, h⟩ := Option.bind_eq_some_iff.mp h
    split at h
    · cases h; exact .passesFinished hw ht ‹_›
    · rename_i hf
      split at h
      · cases h; exact .passesSound hw ht (Bool.eq_false_iff.mpr hf) ‹_›
      · cases h; exact .blames hw ht (Bool.eq_false_iff.mpr hf) ‹_›

/-- Every step of the supervisor is by one of the rules. -/
theorem supervision_of_supervise {s s' : System} {effects : List Effect}
    (h : s.supervise = some (s', effects)) : Supervision s s' effects := by
  unfold supervise at h
  split at h
  · cases h; exact .opens ‹_›
  · exact supervision_of_joining ‹_› h
  · exact supervision_of_burying ‹_› h
  · exact supervision_of_checking ‹_› h
  · cases h; exact .halts ‹_›
  · cases h; exact .closes ‹_›
  · cases h

end System

end Intake.Read
