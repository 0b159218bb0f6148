import Intake.Proofs.Fate
import Mathlib.Data.List.Induction
/-!
# Dealing with creators and readers

The code of a creator or of a reader is called by one task. The task probes until the resources are there,
lets the code run, tells it to release the resources, tells the gate, and asks a reader that has ended well
for its progress. `Exchange` is one such call with its answer, and `Phase.exchange?` says which exchange a
step of a task is.

A reader runs in polls. The task looks at its token before each of them and not while it polls, so the run of
a reader that was cancelled may still end well in the poll that had begun (`Phase.isPolling`, `Phase.forgoes`).

`Protocol` is the grammar of what may pass between a task and code that does not crash. That every task
keeps to it goes through `Dealing`, a machine that reads the exchanges one by one:

* `Partition.Rule.onward` and `FeedTask.Rule.onward`: a task whose phase fits a state of the machine takes a
  step that the machine can read, and fits the state after it.
* `Dealing.eq_log_of_after`: the state of the machine says everything that has passed, but for the number of
  refused probes.
* `Dealing.exists_protocol` and `Dealing.protocol`: what has passed is the beginning of a word of the grammar,
  and a whole word when the dealing is over.
-/

namespace Intake.Read

/-! ### Exchanges -/

/-- How the run of a creator or of a reader ended. -/
inductive RunEnd
  /-- It ended by itself without a failure, or its time was over. -/
  | well (e : Ending)
  | failed (e : Fault)
  /-- The task saw that it is cancelled. -/
  | cancelled
  | crashed (message : String)
deriving Repr

namespace RunEnd

/-- Whether the run ended well. -/
def isWell : RunEnd → Bool
  | .well _ => true
  | _ => false

/-- Whether the run ended in a crash. -/
def isCrash : RunEnd → Bool
  | .crashed _ => true
  | _ => false

/-- What the task of a partition goes on with, unless the run has ended in a crash. -/
def result? : RunEnd → Option (Except Fault Ending)
  | .well e => some (.ok e)
  | .failed e => some (.error e)
  | .cancelled => some (.error .cancelled)
  | .crashed _ => none

theorem isCrash_of_result? {how : RunEnd} {r : Except Fault Ending} (h : how.result? = some r) :
    how.isCrash = false := by
  cases how with
  | crashed => cases h
  | _ => rfl

theorem eq_well_of_result? {how : RunEnd} {e : Ending} (h : how.result? = some (.ok e)) :
    how = .well e := by
  cases how <;> cases h
  rfl

theorem isWell_of_result? {how : RunEnd} {e : Fault} (h : how.result? = some (.error e)) :
    how.isWell = false := by
  cases how with
  | well => cases h
  | _ => rfl

end RunEnd

/-- What passes between a task and the code of its creator or reader, and what the task makes known of
it. -/
inductive Exchange
  /-- The code is probed for its resources, and answers. -/
  | probe (a : ProbeAnswer)
  /-- The task sees that it is cancelled, and does not probe any more. -/
  | quit
  /-- The code is let run. -/
  | run
  | ran (how : RunEnd)
  /-- The code is told to release its resources. -/
  | release
  /-- The gate of the feed is told of the release. -/
  | notify
  /-- The reader is asked for its progress, and answers. -/
  | checkpoint (a : Saved)
deriving Repr

namespace Exchange

/-- Whether the code crashed. -/
def isCrash : Exchange → Bool
  | .probe (.crashed _) => true
  | .ran how => how.isCrash
  | .checkpoint (.crashed _) => true
  | _ => false

/-- Whether the code is told to release its resources. -/
def isRelease : Exchange → Bool
  | .release => true
  | _ => false

/-- Whether an exchange with a reader comes of a poll: the run ends in one unless it is given up, and only
a reader whose run has ended so is asked for its progress. -/
def comesOfPoll : Exchange → Bool
  | .ran .cancelled => false
  | .ran _ => true
  | .checkpoint _ => true
  | _ => false

/-- The exchange that an act of a task is while it acquires. -/
def ofAcquiring (cancelled : Bool) : Acquisition.Phase → Act → Option Exchange
  | _, .probe a => some (.probe a)
  | _, .quit => some .quit
  | .fresh, .go => if cancelled then some .quit else none
  | _, _ => none

theorem eq_of_ofAcquiring {cancelled : Bool} {p : Acquisition.Phase} {a : Act} {x : Exchange}
    (h : ofAcquiring cancelled p a = some x) : x = .quit ∨ ∃ answer, x = .probe answer := by
  unfold ofAcquiring at h
  split at h
  · cases h; exact Or.inr ⟨_, rfl⟩
  · cases h; exact Or.inl rfl
  · split at h
    · cases h; exact Or.inl rfl
    · cases h
  · cases h

/-- What stands behind an exchange: only a task that is cancelled gives up, only a run with a limit is cut
off, and the release and the notice are made. -/
def Backed (cancelled limited released notified : Prop) : Exchange → Prop
  | .quit => cancelled
  | .ran .cancelled => cancelled
  | .ran (.well .timedOut) => limited
  | .release => released
  | .notify => notified
  | _ => True

theorem Backed.imp {c l r n c' l' r' n' : Prop} {x : Exchange} (h : x.Backed c l r n) (hc : c → c')
    (hl : l → l') (hr : r → r') (hn : n → n') : x.Backed c' l' r' n' := by
  unfold Backed at h ⊢
  split at h
  · exact hc h
  · exact hc h
  · exact hl h
  · exact hr h
  · exact hn h
  · trivial

end Exchange

/-- The exchange that an act of the task of a partition is, if it is one. -/
def Partition.Phase.exchange? (cancelled : Bool) : Partition.Phase → Act → Option Exchange
  | .queued, .quit => some .quit
  | .acquiring p, a => Exchange.ofAcquiring cancelled p a
  | .opening, .go => some .run
  | .running, .quit => some (.ran .cancelled)
  | .polling, .ran .done => some (.ran (.well .completed))
  | .polling, .ran (.failed e) => some (.ran (.failed e))
  | .polling, .ran (.crashed message) => some (.ran (.crashed message))
  | .polling, .elapse => some (.ran (.well .timedOut))
  | .releasing _, .go => some .release
  | .notifying _, .go => some .notify
  | .saving _, .saved a => some (.checkpoint a)
  | _, _ => none

/-- The exchange with the creator that an act of the task of a feed is, if it is one. -/
def FeedTask.Phase.exchange? (cancelled : Bool) : FeedTask.Phase → Act → Option Exchange
  | .acquiring p, a => Exchange.ofAcquiring cancelled p a
  | .opening, .go => some .run
  | .creating, .created (.readers _) => some (.ran (.well .completed))
  | .creating, .created (.failed e) => some (.ran (.failed e))
  | .creating, .created (.crashed message) => some (.ran (.crashed message))
  | .creating, .quit => some (.ran .cancelled)
  | .releasing _, .go => some .release
  | .notifying _, .go => some .notify
  | _, _ => none

/-! ### The grammar -/

/-- A number of probes that are refused. -/
def refusals (n : Nat) : List Exchange := List.replicate n (.probe .retry)

theorem countP_isRelease_refusals (n : Nat) (xs : List Exchange) :
    (refusals n ++ xs).countP Exchange.isRelease = xs.countP Exchange.isRelease := by
  rw [List.countP_append, refusals, List.countP_replicate]
  exact Nat.zero_add _

/-- What may pass between a task and code that does not crash, from the first probe to the end. Code that
is `asked` is that of a reader: it answers for its progress when its run has ended well. -/
inductive Protocol (asked : Bool) : List Exchange → Prop
  /-- The task was cancelled before the resources were there. -/
  | left (n : Nat) : Protocol asked (refusals n ++ [.quit])
  | denied (n : Nat) (e : Fault) : Protocol asked (refusals n ++ [.probe (.failed e)])
  /-- The resources are released, however the run ended. -/
  | served (n : Nat) (how : RunEnd) : how.isCrash = false → (asked && how.isWell) = false →
      Protocol asked (refusals n ++ [.probe .ready, .run, .ran how, .release, .notify])
  /-- A reader whose run ended well has released its resources before it is asked for its progress. -/
  | saved (n : Nat) (e : Ending) (c : Checkpoint) : asked = true →
      Protocol asked (refusals n ++ [.probe .ready, .run, .ran (.well e), .release, .notify,
        .checkpoint (.checkpoint c)])

/-! ### The machine -/

/-- Where the dealing of a task with a creator or reader stands. -/
inductive Dealing
  | probing
  /-- The task gave up before the resources were there. -/
  | left
  | denied (e : Fault)
  /-- The probe crashed. -/
  | lost (message : String)
  | granted
  | running
  | ran (how : RunEnd)
  | released (how : RunEnd)
  /-- The gate has been told. -/
  | told (how : RunEnd)
  | answered (e : Ending) (a : Saved)

namespace Dealing

/-- Reads one exchange. After a crash there is none. -/
def next? : Dealing → Exchange → Option Dealing
  | .probing, .probe .retry => some .probing
  | .probing, .probe .ready => some .granted
  | .probing, .probe (.failed e) => some (.denied e)
  | .probing, .probe (.crashed message) => some (.lost message)
  | .probing, .quit => some .left
  | .granted, .run => some .running
  | .running, .ran how => some (.ran how)
  | .ran how, .release => if how.isCrash then none else some (.released how)
  | .released how, .notify => some (.told how)
  | .told (.well e), .checkpoint a => some (.answered e a)
  | _, _ => none

/-- Reads the exchange of a step, if it is one. -/
def onward (d : Dealing) (x? : Option Exchange) : Option Dealing := x?.elim (some d) d.next?

/-- Reads exchanges from the first probe on. -/
def after (xs : List Exchange) : Option Dealing := xs.foldlM next? .probing

theorem after_snoc (xs : List Exchange) (x : Exchange) :
    after (xs ++ [x]) = (after xs).bind (·.next? x) := by
  simp only [after, List.foldlM_append, List.foldlM_cons, List.foldlM_nil, bind_pure]
  rfl

/-- What the machine has read after one more step. -/
theorem after_onward {xs : List Exchange} {d d' : Dealing} {x? : Option Exchange}
    (h : after xs = some d) (hx : d.onward x? = some d') : after (xs ++ x?.toList) = some d' := by
  rcases x? with _ | x
  · rw [Option.toList_none, List.append_nil, h]
    exact hx
  · rw [Option.toList_some, after_snoc, h]
    exact hx

/-- What has passed when the machine is in a state, with the number of refused probes. -/
def log (n : Nat) : Dealing → List Exchange
  | .probing => refusals n
  | .left => refusals n ++ [.quit]
  | .denied e => refusals n ++ [.probe (.failed e)]
  | .lost message => refusals n ++ [.probe (.crashed message)]
  | .granted => refusals n ++ [.probe .ready]
  | .running => refusals n ++ [.probe .ready, .run]
  | .ran how => refusals n ++ [.probe .ready, .run, .ran how]
  | .released how => refusals n ++ [.probe .ready, .run, .ran how, .release]
  | .told how => refusals n ++ [.probe .ready, .run, .ran how, .release, .notify]
  | .answered e a =>
    refusals n ++ [.probe .ready, .run, .ran (.well e), .release, .notify, .checkpoint a]

attribute [local simp] log

/-- One more exchange is one more entry of the log. -/
theorem log_next {d d' : Dealing} {x : Exchange} (n : Nat) (h : d.next? x = some d') :
    ∃ m, d.log n ++ [x] = d'.log m := by
  unfold next? at h
  split at h
  case h_1 =>
    cases h
    exact ⟨n + 1, (List.replicate_succ').symm⟩
  case h_8 =>
    split at h
    · cases h
    · cases h
      exact ⟨n, List.append_assoc _ _ _⟩
  case h_11 => cases h
  case h_2 | h_3 | h_4 | h_5 =>
    cases h
    exact ⟨n, rfl⟩
  case h_6 | h_7 | h_9 | h_10 =>
    cases h
    exact ⟨n, List.append_assoc _ _ _⟩

/-- The state of the machine says what it has read, but for the number of refused probes. -/
theorem eq_log_of_after {xs : List Exchange} {d : Dealing} (h : after xs = some d) :
    ∃ n, xs = d.log n := by
  induction xs using List.reverseRecOn generalizing d with
  | nil =>
    cases h
    exact ⟨0, rfl⟩
  | append_singleton xs x ih =>
    rw [after_snoc] at h
    obtain ⟨d₀, h₀, hx⟩ := Option.bind_eq_some_iff.mp h
    obtain ⟨n, rfl⟩ := ih h₀
    exact log_next n hx

/-- Only a run that did not crash is followed by the release. -/
theorem isCrash_of_after {xs : List Exchange} {d : Dealing} {how : RunEnd} (h : after xs = some d)
    (hd : d = .released how ∨ d = .told how) : how.isCrash = false := by
  induction xs using List.reverseRecOn generalizing d with
  | nil =>
    cases h
    rcases hd with hd | hd <;> cases hd
  | append_singleton xs x ih =>
    rw [after_snoc] at h
    obtain ⟨d₀, h₀, hx⟩ := Option.bind_eq_some_iff.mp h
    unfold next? at hx
    split at hx
    case h_8 how' =>
      split at hx
      · cases hx
      · rename_i hcrash
        cases hx
        rcases hd with hd | hd <;> cases hd
        exact Bool.eq_false_iff.mpr hcrash
    case h_9 how' =>
      cases hx
      rcases hd with hd | hd <;> cases hd
      exact ih h₀ (Or.inl rfl)
    all_goals
      cases hx <;> rcases hd with hd | hd <;> cases hd

/-- A crash of the run is the last thing that passes. -/
theorem eq_ran_of_crash {xs : List Exchange} {d : Dealing} {message : String} (h : after xs = some d)
    (hcrash : .ran (.crashed message) ∈ xs) : d = .ran (.crashed message) := by
  obtain ⟨n, rfl⟩ := eq_log_of_after h
  cases d with
  | ran how =>
    have hhow : RunEnd.crashed message = how := by simpa [refusals] using hcrash
    rw [hhow]
  | released how =>
    have hhow : RunEnd.crashed message = how := by simpa [refusals] using hcrash
    have hsafe := isCrash_of_after h (Or.inl rfl)
    rw [← hhow] at hsafe
    cases hsafe
  | told how =>
    have hhow : RunEnd.crashed message = how := by simpa [refusals] using hcrash
    have hsafe := isCrash_of_after h (Or.inr rfl)
    rw [← hhow] at hsafe
    cases hsafe
  | _ => simp [refusals] at hcrash

/-- What a task owes after what has passed: it releases the resources when the run has ended, and tells the
gate of it. -/
def owed (xs : List Exchange) : Option Exchange :=
  match xs.getLast? with
  | some (.ran how) => if how.isCrash then none else some .release
  | some .release => some .notify
  | _ => none

/-- A task owes something only at two states of the machine. -/
theorem owed_log {d : Dealing} {n : Nat} {x : Exchange} (h : owed (d.log n) = some x) :
    (∃ how, d = .ran how ∧ how.isCrash = false ∧ x = .release) ∨
      (∃ how, d = .released how ∧ x = .notify) := by
  cases d with
  | probing =>
    rcases n with _ | n
    · cases h
    · simp [owed, refusals, List.replicate_succ'] at h
  | ran how =>
    have hlast : how.isCrash = false ∧ .release = x := by simpa [owed] using h
    exact Or.inl ⟨how, rfl, hlast.1, hlast.2.symm⟩
  | released how =>
    have hlast : .notify = x := by simpa [owed] using h
    exact Or.inr ⟨how, rfl, hlast.symm⟩
  | _ => simp [owed] at h

/-- Whether the dealing is over. A reader whose run ended well is still to be asked. -/
def isOver (asked : Bool) : Dealing → Bool
  | .left => true
  | .denied _ => true
  | .lost _ => true
  | .ran how => how.isCrash
  | .told how => !(asked && how.isWell)
  | .answered _ _ => asked
  | _ => false

/-- A dealing that is over, with code that did not crash, went by the grammar. -/
theorem protocol {d : Dealing} {asked : Bool} {n : Nat} (hd : d.isOver asked = true)
    (hsafe : ∀ x ∈ d.log n, x.isCrash = false) : Protocol asked (d.log n) := by
  cases d with
  | left => exact .left n
  | denied e => exact .denied n e
  | lost message =>
    have hlost := hsafe (.probe (.crashed message)) (by simp)
    cases hlost
  | ran how =>
    have hhow : how.isCrash = false := hsafe (.ran how) (by simp)
    rw [isOver, hhow] at hd
    cases hd
  | told how =>
    have hhow : how.isCrash = false := hsafe (.ran how) (by simp)
    rw [isOver, Bool.not_eq_true'] at hd
    exact .served n how hhow hd
  | answered e a =>
    have ha : (Exchange.checkpoint a).isCrash = false := hsafe (.checkpoint a) (by simp)
    rcases a with c | message
    · exact .saved n e c hd
    · cases ha
  | probing | granted | running | released => cases hd

/-- What is still to pass when a run has ended and its resources are released. -/
def closing (asked : Bool) (how : RunEnd) : List Exchange :=
  if asked && how.isWell then [.checkpoint (.checkpoint {})] else []

theorem protocol_closing (asked : Bool) {how : RunEnd} (n : Nat) (hhow : how.isCrash = false) :
    Protocol asked (refusals n ++ [.probe .ready, .run, .ran how, .release, .notify] ++
      closing asked how) := by
  by_cases ha : (asked && how.isWell) = true
  · rw [closing, if_pos ha, List.append_assoc]
    obtain ⟨hasked, hwell⟩ := Bool.and_eq_true_iff.mp ha
    rcases how with e | _ | _ | _
    · exact .saved n e {} hasked
    · cases hwell
    · cases hwell
    · cases hwell
  · rw [closing, if_neg ha, List.append_nil]
    exact .served n how hhow (Bool.eq_false_iff.mpr ha)

/-- Only a reader is asked for its progress. -/
def isOf (asked : Bool) : Dealing → Bool
  | .answered _ _ => asked
  | _ => true

theorem isOf_true (d : Dealing) : d.isOf true = true := by
  cases d <;> rfl

theorem isOf_of_isOver {d : Dealing} {asked : Bool} (h : d.isOver asked = true) :
    d.isOf asked = true := by
  cases d with
  | answered => exact h
  | _ => rfl

/-- What has passed with code that did not crash is the beginning of a word of the grammar. -/
theorem exists_protocol {d : Dealing} {asked : Bool} {n : Nat} (hd : d.isOf asked = true)
    (hsafe : ∀ x ∈ d.log n, x.isCrash = false) : ∃ rest, Protocol asked (d.log n ++ rest) := by
  cases d with
  | probing => exact ⟨[.quit], .left n⟩
  | left => exact ⟨[], by rw [List.append_nil]; exact .left n⟩
  | denied e => exact ⟨[], by rw [List.append_nil]; exact .denied n e⟩
  | lost message =>
    have hlost := hsafe (.probe (.crashed message)) (by simp)
    cases hlost
  | granted =>
    have h := protocol_closing asked n (show RunEnd.cancelled.isCrash = false from rfl)
    exact ⟨[.run, .ran .cancelled, .release, .notify] ++ closing asked .cancelled, by
      simpa using h⟩
  | running =>
    have h := protocol_closing asked n (show RunEnd.cancelled.isCrash = false from rfl)
    exact ⟨[.ran .cancelled, .release, .notify] ++ closing asked .cancelled, by
      simpa using h⟩
  | ran how =>
    have hhow : how.isCrash = false := hsafe (.ran how) (by simp)
    have h := protocol_closing asked n hhow
    exact ⟨[.release, .notify] ++ closing asked how, by simpa using h⟩
  | released how =>
    have hhow : how.isCrash = false := hsafe (.ran how) (by simp)
    have h := protocol_closing asked n hhow
    exact ⟨[.notify] ++ closing asked how, by simpa using h⟩
  | told how =>
    have hhow : how.isCrash = false := hsafe (.ran how) (by simp)
    exact ⟨closing asked how, protocol_closing asked n hhow⟩
  | answered e a =>
    refine ⟨[], ?_⟩
    rw [List.append_nil]
    exact protocol hd hsafe

end Dealing

/-! ### Acquiring -/

namespace Dealing

/-- Whether a state of the machine suits what came of a move of an acquisition. -/
def Suits : Acquisition.Next → Dealing → Prop
  | .moved _, d => d = .probing
  | .retried _, d => d = .probing
  | .done .acquired, d => d = .granted
  | .done (.failed e), d => d = .denied e ∨ d = .left
  | .done (.crashed message), d => d = .lost message

/-- Every move of an acquisition is a probe, giving up, or nothing to the code. -/
theorem onward_acquiring {cancelled : Bool} {releases : Nat} {p : Acquisition.Phase} {a : Act}
    {move : Acquisition.Move} {result : Acquisition.Next} (ha : a.acquisition? = some move)
    (h : Acquisition.step cancelled releases p move = some result) :
    ∃ d, probing.onward (Exchange.ofAcquiring cancelled p a) = some d ∧ d.Suits result := by
  cases a with
  | go =>
    cases ha
    rcases p with _ | seen | seen | seen
    · cases cancelled <;> cases h
      · exact ⟨_, rfl, rfl⟩
      · exact ⟨_, rfl, Or.inr rfl⟩
    · cases h
    · cases h; exact ⟨_, rfl, rfl⟩
    · simp only [Acquisition.step] at h
      split at h
      · cases h; exact ⟨_, rfl, rfl⟩
      · cases h
  | quit =>
    cases ha
    rcases p with _ | seen | seen | seen <;> cases cancelled <;> cases h <;>
      exact ⟨_, rfl, Or.inr rfl⟩
  | elapse =>
    cases ha
    rcases p with _ | seen | seen | seen <;> cases h
    exact ⟨_, rfl, rfl⟩
  | probe answer =>
    cases ha
    rcases p with _ | seen | seen | seen
    · cases h
    · rcases answer with _ | _ | e | message <;> cases h
      · exact ⟨_, rfl, rfl⟩
      · exact ⟨_, rfl, rfl⟩
      · exact ⟨_, rfl, Or.inl rfl⟩
      · exact ⟨_, rfl, rfl⟩
    · cases h
    · cases h
  | made _ | created _ | ran _ | saved _ | join _ => cases ha

/-- Who gives up acquiring is cancelled. -/
theorem cancelled_of_ofAcquiring {cancelled : Bool} {releases : Nat} {p : Acquisition.Phase} {a : Act}
    {move : Acquisition.Move} {result : Acquisition.Next} (ha : a.acquisition? = some move)
    (h : Acquisition.step cancelled releases p move = some result)
    (hx : Exchange.ofAcquiring cancelled p a = some .quit) : cancelled = true := by
  cases a with
  | go =>
    rcases p with _ | seen | seen | seen
    · cases cancelled
      · cases hx
      · rfl
    · cases hx
    · cases hx
    · cases hx
  | quit =>
    cases ha
    cases cancelled
    · rcases p with _ | seen | seen | seen <;> cases h
    · rfl
  | probe answer => cases hx
  | _ => cases ha <;> rcases p with _ | seen | seen | seen <;> cases hx

end Dealing

/-! ### The task of a partition -/

namespace Partition

/-- Whether the task in a phase has made its dealing with the reader what it is. -/
def Phase.Fits : Phase → Dealing → Prop
  | .queued, d => d = .probing
  | .acquiring _, d => d = .probing
  | .signalling (.ok ()), d => d = .granted
  | .opening, d => d = .granted
  | .running, d => d = .running
  | .polling, d => d = .running
  | .releasing r, d => ∃ how, d = .ran how ∧ how.result? = some r
  | .notifying r, d => ∃ how, d = .released how ∧ how.result? = some r
  | .saving e, d => d = .told (.well e)
  -- nothing more passes
  | _, d => d.isOver true = true

theorem fits_start (index : Nat) (unlimited : Bool) : (start index unlimited).phase.Fits .probing := by
  unfold start
  split <;> rfl

/-- A step of a partition is read by the machine, and the phase after it fits the state after it. -/
theorem Rule.onward {v : View} {t : Partition} {a : Act} {next : Next} {d : Dealing}
    (h : Rule v t a next) (hd : t.phase.Fits d) :
    ∃ d', d.onward (t.phase.exchange? v.cancelled a) = some d' ∧ next.task.phase.Fits d' := by
  cases h with
  | enters hp | leavesQueue hp | signals hp | opens hp | polls hp | waits hp | runCrashes hp | saves hp
  | saveCrashes hp =>
    rw [hp] at hd ⊢
    cases hd
    exact ⟨_, rfl, rfl⟩
  | acquireMoves hp ha hs | acquireRetries hp ha hs | acquires hp ha hs | acquireCrashes hp ha hs =>
    rw [hp] at hd ⊢
    cases hd
    obtain ⟨d', hd', hsuits⟩ := Dealing.onward_acquiring ha hs
    cases hsuits
    exact ⟨_, hd', rfl⟩
  | acquireFails hp ha hs =>
    rw [hp] at hd ⊢
    cases hd
    obtain ⟨d', hd', hsuits⟩ := Dealing.onward_acquiring ha hs
    rcases hsuits with rfl | rfl <;> exact ⟨_, hd', rfl⟩
  | quits hp | runs hp | runFails hp | timesOut hp =>
    rw [hp] at hd ⊢
    cases hd
    exact ⟨_, rfl, _, rfl, rfl⟩
  | releases hp =>
    rw [hp] at hd ⊢
    obtain ⟨how, rfl, hr⟩ := hd
    have hhow := RunEnd.isCrash_of_result? hr
    exact ⟨.released how, if_neg (Bool.eq_false_iff.mp hhow), how, rfl, hr⟩
  | notifies hp =>
    rw [hp] at hd ⊢
    obtain ⟨how, rfl, hr⟩ := hd
    exact ⟨.told how, rfl, congrArg Dealing.told (RunEnd.eq_well_of_result? hr)⟩
  | notifiesFailure hp =>
    rw [hp] at hd ⊢
    obtain ⟨how, rfl, hr⟩ := hd
    refine ⟨.told how, rfl, ?_⟩
    simp only [goto, Phase.Fits, Dealing.isOver, RunEnd.isWell_of_result? hr]
    rfl
  | signalsFailure hp | reports hp =>
    rw [hp] at hd ⊢
    exact ⟨d, rfl, hd⟩

/-- A task that owes its reader the release, or the gate the notice, can always make it. -/
theorem exists_step_of_ran {v : View} {t : Partition} {how : RunEnd} (hd : t.phase.Fits (.ran how))
    (hhow : how.isCrash = false) :
    t.phase.exchange? v.cancelled .go = some .release ∧ ∃ next, t.step v .go = some next := by
  unfold Phase.Fits at hd
  split at hd
  case h_7 =>
    rename_i r hp
    rw [hp]
    exact ⟨rfl, _, by rw [step, hp]; rfl⟩
  case h_8 =>
    obtain ⟨_, hne, -⟩ := hd
    cases hne
  case h_10 => exact absurd (hd.symm.trans hhow) Bool.noConfusion
  all_goals cases hd

theorem exists_step_of_released {v : View} {t : Partition} {how : RunEnd}
    (hd : t.phase.Fits (.released how)) :
    t.phase.exchange? v.cancelled .go = some .notify ∧ ∃ next, t.step v .go = some next := by
  unfold Phase.Fits at hd
  split at hd
  case h_7 =>
    obtain ⟨_, hne, -⟩ := hd
    cases hne
  case h_8 =>
    rename_i r hp
    rw [hp]
    rcases r with e | e <;> exact ⟨rfl, _, by rw [step, hp]; rfl⟩
  all_goals cases hd

/-- A task that has ended is through with its reader. -/
theorem isOver_of_ended {t : Partition} {d : Dealing} (hd : t.phase.Fits d) (h : t.ended?.isSome = true) :
    d.isOver true = true := by
  unfold ended? at h
  split at h
  · rename_i hp
    rw [hp] at hd
    exact hd
  · cases h

/-- What stands behind an exchange with a reader. -/
theorem Rule.backed {v : View} {t : Partition} {a : Act} {next : Next} {x : Exchange}
    (h : Rule v t a next) (hx : t.phase.exchange? v.cancelled a = some x) :
    x.Backed (v.cancelled = true) ((t.limit v).isSome = true) (Effect.release v.actor ∈ next.effects)
      (next.notified = true) := by
  cases h with
  | acquireMoves hp ha hs | acquireRetries hp ha hs | acquires hp ha hs | acquireFails hp ha hs
  | acquireCrashes hp ha hs =>
    rw [hp] at hx
    rcases Exchange.eq_of_ofAcquiring hx with rfl | ⟨answer, rfl⟩
    · exact Dealing.cancelled_of_ofAcquiring ha hs hx
    · trivial
  | leavesQueue hp hc | quits hp hc | timesOut hp hc =>
    rw [hp] at hx
    cases hx
    exact hc
  | releases hp =>
    rw [hp] at hx
    cases hx
    exact List.mem_singleton_self _
  | notifies hp | notifiesFailure hp =>
    rw [hp] at hx
    cases hx
    rfl
  | _ hp =>
    rw [hp] at hx
    cases hx <;> trivial

/-- Whether the task in a phase polls its reader. -/
def Phase.isPolling : Phase → Bool
  | .polling => true
  | _ => false

/-- A poll begins only when the task is not cancelled. -/
theorem Rule.cancelled_of_isPolling {v : View} {t : Partition} {a : Act} {next : Next}
    (h : Rule v t a next) (hnext : next.task.phase.isPolling = true) : v.cancelled = false := by
  cases h with
  | polls hp hc => exact hc
  | _ hp => cases hnext

/-- A run ends in a poll, unless it is given up. -/
theorem isPolling_of_exchange? {p : Phase} {cancelled : Bool} {a : Act} {how : RunEnd}
    (h : p.exchange? cancelled a = some (.ran how)) (hhow : how ≠ .cancelled) : p.isPolling = true := by
  cases p with
  | polling => rfl
  | running =>
    cases a <;> cases h
    exact absurd rfl hhow
  | acquiring q => rcases Exchange.eq_of_ofAcquiring h with hquit | ⟨answer, hprobe⟩ <;> contradiction
  | _ => cases a <;> cases h

/-- Whether a task in a phase has nothing more to expect of its reader if it is cancelled: it is not polling
it, and no poll has brought the run to a good end. -/
def Phase.forgoes : Phase → Bool
  | .polling => false
  | .releasing r => !r.isOk
  | .notifying r => !r.isOk
  | .saving _ => false
  | _ => true

/-- A task that is cancelled and does not poll gives up its run, and does not ask its reader. -/
theorem Rule.forgoes {v : View} {t : Partition} {a : Act} {next : Next} (h : Rule v t a next)
    (hc : v.cancelled = true) (hf : t.phase.forgoes = true) :
    next.task.phase.forgoes = true ∧
      ∀ x, t.phase.exchange? v.cancelled a = some x → x.comesOfPoll = false := by
  cases h with
  | polls _ hfree => rw [hc] at hfree; cases hfree
  | acquireMoves hp | acquireRetries hp | acquires hp | acquireFails hp | acquireCrashes hp =>
    refine ⟨rfl, fun x hx => ?_⟩
    rw [hp] at hx
    rcases Exchange.eq_of_ofAcquiring hx with rfl | ⟨answer, rfl⟩ <;> rfl
  | releases hp | notifies hp | notifiesFailure hp =>
    rw [hp] at hf ⊢
    refine ⟨hf, fun x hx => ?_⟩
    cases hx
    rfl
  | waits hp | runs hp | runFails hp | runCrashes hp | timesOut hp | saves hp | saveCrashes hp =>
    rw [hp] at hf
    cases hf
  | _ hp =>
    rw [hp]
    refine ⟨rfl, fun x hx => ?_⟩
    cases hx <;> rfl

/-- Before its run has ended, a task forgoes what may come of it at every moment but in a poll. -/
theorem Phase.forgoes_of_fits {p : Phase} {d : Dealing} {n : Nat} (hfits : p.Fits d)
    (hpoll : p.isPolling = false) (hran : ∀ how, .ran how ∉ d.log n) : p.forgoes = true := by
  cases p with
  | polling => cases hpoll
  | releasing r | notifying r =>
    obtain ⟨how, rfl, -⟩ := hfits
    exact absurd (by simp [Dealing.log]) (hran how)
  | saving e =>
    cases hfits
    exact absurd (by simp [Dealing.log]) (hran (.well e))
  | _ => rfl

/-- Nothing else tells a reader to release its resources. -/
theorem Rule.exchange?_of_release {v : View} {t : Partition} {a : Act} {next : Next} {who : Actor}
    (h : Rule v t a next) (he : Effect.release who ∈ next.effects) :
    who = v.actor ∧ t.phase.exchange? v.cancelled a = some .release := by
  cases h with
  | releases hp =>
    rw [hp]
    cases List.mem_singleton.mp he
    exact ⟨rfl, rfl⟩
  | opens hp => simp at he
  | _ hp => simp [goto, crash] at he

end Partition

/-! ### The task of a feed -/

namespace FeedTask

/-- Whether the task in a phase has made its dealing with the creator what it is. -/
def Phase.Fits : Phase → Dealing → Prop
  | .acquiring _, d => d = .probing
  | .starting _, d => d = .granted
  | .opening, d => d = .granted
  | .creating, d => d = .running
  | .releasing _, d => ∃ how, d = .ran how ∧ how.isCrash = false
  | .notifying _, d => ∃ how, d = .released how ∧ how.isCrash = false
  -- nothing more passes
  | _, d => d.isOver false = true

/-- How far the task in a phase has come in its round: at stage 1 it deals with the creator, and from
stage 3 on the readers are there. -/
def Phase.stage : Phase → Nat
  | .asleep => 0
  | .making _ => 0
  | .acquiring _ => 1
  | .starting _ => 1
  | .opening => 1
  | .creating => 1
  | .releasing _ => 1
  | .notifying _ => 1
  | .created _ => 2
  | _ => 3

/-- A step of a feed that deals with a creator is read by the machine, and the phase after it fits the
state after it. -/
theorem Rule.onward {v : View} {t : FeedTask} {s : Shared} {a : Act} {next : Next} {d : Dealing}
    (h : Rule v t s a next) (hc : t.phase.stage = 1) (hd : t.phase.Fits d) :
    ∃ d', d.onward (t.phase.exchange? (t.cancelledIn v) a) = some d' ∧
      next.task.phase.Fits d' ∧ next.task.round = t.round := by
  cases h with
  | acquireMoves hp ha hs | acquireRetries hp ha hs | acquires hp ha hs | acquireCrashes hp ha hs =>
    rw [hp] at hd ⊢
    cases hd
    obtain ⟨d', hd', hsuits⟩ := Dealing.onward_acquiring ha hs
    cases hsuits
    exact ⟨_, hd', rfl, rfl⟩
  | acquireFails hp ha hs =>
    rw [hp] at hd ⊢
    cases hd
    obtain ⟨d', hd', hsuits⟩ := Dealing.onward_acquiring ha hs
    rcases hsuits with rfl | rfl <;> exact ⟨_, hd', rfl, rfl⟩
  | saysStarting hp | hasStarted hp | opens hp | createCrashes hp =>
    rw [hp] at hd ⊢
    cases hd
    exact ⟨_, rfl, rfl, rfl⟩
  | creates hp | createFails hp | quits hp =>
    rw [hp] at hd ⊢
    cases hd
    exact ⟨_, rfl, ⟨_, rfl, rfl⟩, rfl⟩
  | releases hp =>
    rw [hp] at hd ⊢
    obtain ⟨how, rfl, hhow⟩ := hd
    exact ⟨.released how, if_neg (Bool.eq_false_iff.mp hhow), ⟨how, rfl, hhow⟩, rfl⟩
  | notifies hp | notifiesFailure hp =>
    rw [hp] at hd ⊢
    obtain ⟨how, rfl, hhow⟩ := hd
    exact ⟨.told how, rfl, rfl, rfl⟩
  | _ hp => rw [hp] at hc; cases hc

/-- A feed that owes its creator the release, or the gate the notice, can always make it. -/
theorem exists_step_of_ran {v : View} {t : FeedTask} {s : Shared} {how : RunEnd}
    (hd : t.phase.Fits (.ran how)) (hhow : how.isCrash = false) :
    t.phase.exchange? (t.cancelledIn v) .go = some .release ∧ ∃ next, t.step v s .go = some next := by
  unfold Phase.Fits at hd
  split at hd
  case h_5 =>
    rename_i r hp
    rw [hp]
    exact ⟨rfl, _, by rw [step, hp]; rfl⟩
  case h_6 =>
    obtain ⟨_, hne, -⟩ := hd
    cases hne
  case h_7 => exact absurd (hd.symm.trans hhow) Bool.noConfusion
  all_goals cases hd

theorem exists_step_of_released {v : View} {t : FeedTask} {s : Shared} {how : RunEnd}
    (hd : t.phase.Fits (.released how)) :
    t.phase.exchange? (t.cancelledIn v) .go = some .notify ∧ ∃ next, t.step v s .go = some next := by
  unfold Phase.Fits at hd
  split at hd
  case h_5 =>
    obtain ⟨_, hne, -⟩ := hd
    cases hne
  case h_6 =>
    rename_i r hp
    rw [hp]
    rcases r with e | readers <;> exact ⟨rfl, _, by rw [step, hp]; rfl⟩
  all_goals cases hd

/-- A feed that is through with the creator of its round has nothing more to say to it. -/
theorem isOver_of_stage {t : FeedTask} {d : Dealing} (hd : t.phase.Fits d)
    (h : t.phase.stage ≠ 1) : d.isOver false = true := by
  unfold Phase.Fits at hd
  split at hd
  case h_7 => exact hd
  all_goals
    rename_i hp
    rw [hp] at h
    exact absurd rfl h

theorem stage_of_exchange? {p : Phase} {cancelled : Bool} {a : Act} {x : Exchange}
    (h : p.exchange? cancelled a = some x) : p.stage = 1 := by
  unfold Phase.exchange? at h
  split at h
  case h_9 => cases h
  all_goals rfl

/-- A creator is not asked for its progress. -/
theorem isOf_of_fits {p : Phase} {d : Dealing} (hd : p.Fits d) : d.isOf false = true := by
  unfold Phase.Fits at hd
  split at hd
  case h_5 | h_6 =>
    obtain ⟨how, rfl, -⟩ := hd
    rfl
  case h_7 => exact Dealing.isOf_of_isOver hd
  all_goals
    cases hd
    rfl

/-- What stands behind an exchange with a creator. The run of a creator has no limit. -/
theorem Rule.backed {v : View} {t : FeedTask} {s : Shared} {a : Act} {next : Next} {x : Exchange}
    (h : Rule v t s a next) (hx : t.phase.exchange? (t.cancelledIn v) a = some x) :
    x.Backed (t.cancelledIn v = true) False (Effect.release (.feed v.index) ∈ next.effects)
      (next.task.releases = t.releases + 1) := by
  cases h with
  | acquireMoves hp ha hs | acquireRetries hp ha hs | acquires hp ha hs | acquireFails hp ha hs
  | acquireCrashes hp ha hs =>
    rw [hp] at hx
    rcases Exchange.eq_of_ofAcquiring hx with rfl | ⟨answer, rfl⟩
    · exact Dealing.cancelled_of_ofAcquiring ha hs hx
    · trivial
  | quits hp hc =>
    rw [hp] at hx
    cases hx
    exact hc
  | releases hp =>
    rw [hp] at hx
    cases hx
    exact List.mem_singleton_self _
  | notifies hp | notifiesFailure hp =>
    rw [hp] at hx
    cases hx
    rfl
  | _ hp =>
    rw [hp] at hx
    cases hx <;> trivial

/-- Nothing else tells a creator to release its resources. -/
theorem Rule.exchange?_of_release {v : View} {t : FeedTask} {s : Shared} {a : Act} {next : Next}
    {who : Actor} (h : Rule v t s a next) (he : Effect.release who ∈ next.effects) :
    who = .feed v.index ∧ t.phase.exchange? (t.cancelledIn v) a = some .release := by
  cases h with
  | releases hp =>
    rw [hp]
    cases List.mem_singleton.mp he
    exact ⟨rfl, rfl⟩
  | saysStarting hp | saysComplete hp | saysStopped hp => simp [gotoWith, tell] at he
  | unlocks hp =>
    split at he <;> simp at he
  | _ hp => simp [goto, gotoWith] at he

end FeedTask

end Intake.Read
