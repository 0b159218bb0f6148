import Intake.Proofs.Rules
import Intake.Proofs.Round
/-!
# What becomes of a reader

How a partition ends is up to its reader: its probe may be refused for good, its run may fail, end by
itself or be cut off, and it may crash at any of these. `Fate` is one such course of things, without the
times and without the number of refused probes, and `Fate.ended` is the end it leads to.

A schedule agrees with a fate when every answer of the reader does (`Fate.Allows`). The statement of this
file is `Fate.Leads.step`: as long as nobody stops the partition, its task is on the way to the end that
the fate of its reader sets, whatever the other tasks do in between.
-/

namespace Intake

/-! ### How an acquisition ends -/

namespace Acquisition

theorem eq_ready_of_acquired {cancelled : Bool} {releases : Nat} {p : Phase} {move : Move}
    (h : step cancelled releases p move = some (.done .acquired)) : move = .probe .ready := by
  cases cancelled <;> rcases p with _ | seen | seen | seen <;>
    rcases move with _ | (_ | _ | f | m) | _ | _ <;> simp_all [step]

/-- An acquisition that is not cancelled fails only with the fault of its probe. -/
theorem eq_failed_of_failed {releases : Nat} {p : Phase} {move : Move} {e : Fault}
    (h : step false releases p move = some (.done (.failed e))) : move = .probe (.failed e) := by
  rcases p with _ | seen | seen | seen <;> rcases move with _ | (_ | _ | f | m) | _ | _ <;>
    simp_all [step]

theorem eq_crashed_of_crashed {cancelled : Bool} {releases : Nat} {p : Phase} {move : Move}
    {message : String} (h : step cancelled releases p move = some (.done (.crashed message))) :
    move = .probe (.crashed message) := by
  cases cancelled <;> rcases p with _ | seen | seen | seen <;>
    rcases move with _ | (_ | _ | f | m) | _ | _ <;> simp_all [step]

end Acquisition

namespace Read

theorem Act.eq_probe {a : Act} {x : ProbeAnswer} (h : a.acquisition? = some (.probe x)) :
    a = .probe x := by
  cases a <;> cases h
  rfl

/-! ### Fates -/

/-- What becomes of a reader that nobody stops. -/
inductive Fate
  /-- Its probe fails. -/
  | denied (e : Fault)
  /-- Its probe crashes. -/
  | lost (message : String)
  /-- Its run fails. -/
  | fails (e : Fault)
  /-- Its run crashes. -/
  | crashes (message : String)
  /-- Its run ends, by itself or with its time, and the reader answers for its progress. -/
  | answers (ending : Ending) (a : Saved)

namespace Fate

/-- Whether the probe of the reader gets its resources in the end. -/
def granted : Fate → Bool
  | .denied _ => false
  | .lost _ => false
  | _ => true

/-- The end that a fate leads to. -/
def ended : Fate → Ended
  | .denied e => .finished (.error e)
  | .lost message => .crashed message
  | .fails e => .finished (.error e)
  | .crashes message => .crashed message
  | .answers _ (.checkpoint c) => .finished (.ok c)
  | .answers _ (.crashed message) => .crashed message

/-- The result that a reader has of its own: a checkpoint, or the fault it ends with. -/
def result (feed : String) (f : Fate) : Except Fault Checkpoint := f.ended.result feed

/-- Whether an act agrees with a fate. Any number of probes may be refused, and a heartbeat may pass at
any time; the time of a run passes only for a reader that is cut off. -/
def Allows (f : Fate) (phase : Partition.Phase) : Act → Prop
  | .probe .ready => f.granted = true
  | .probe (.failed e) => f = .denied e
  | .probe (.crashed message) => f = .lost message
  | .ran .done => ∃ a, f = .answers .completed a
  | .ran (.failed e) => f = .fails e
  | .ran (.crashed message) => f = .crashes message
  | .elapse => phase = .polling → ∃ a, f = .answers .timedOut a
  | .saved a => ∃ ending, f = .answers ending a
  | _ => True

/-- Whether a task in a phase is on the way that a fate sets. -/
def Leads (f : Fate) : Partition.Phase → Prop
  | .queued => True
  | .acquiring _ => True
  | .signalling (.ok ()) => f.granted = true
  | .signalling (.error e) => f = .denied e
  | .opening => f.granted = true
  | .running => f.granted = true
  | .polling => f.granted = true
  | .releasing (.ok ending) => ∃ a, f = .answers ending a
  | .releasing (.error e) => f = .fails e
  | .notifying (.ok ending) => ∃ a, f = .answers ending a
  | .notifying (.error e) => f = .fails e
  | .saving ending => ∃ a, f = .answers ending a
  | .reporting (.ok (ending, c)) => f = .answers ending (.checkpoint c)
  | .reporting (.error e) => f.ended = .finished (.error e)
  | .ended e => f.ended = e

/-- What is reported for a partition that is not cancelled is what it ends with. -/
theorem ended_report {v : Partition.View} (hv : v.cancelled = false) (t : Partition)
    (r : Except Fault (Ending × Checkpoint)) :
    (t.report v r).2 = .finished (r.map Prod.snd) := by
  rcases r with e | ⟨ending, c⟩
  · simp only [Partition.report, hv]
    cases e <;> rfl
  · cases ending <;> rfl

/-- A partition that nobody stops, and whose reader acts by its fate, stays on the way that the fate
sets. -/
theorem Leads.step {f : Fate} {v : Partition.View} {p : Partition} {a : Act} {next : Partition.Next}
    (hl : f.Leads p.phase) (hr : Partition.Rule v p a next) (hv : v.cancelled = false)
    (ha : f.Allows p.phase a) : f.Leads next.task.phase := by
  cases hr with
  | enters | acquireMoves | acquireRetries => exact trivial
  | leavesQueue _ hc | quits _ hc => rw [hv] at hc; cases hc
  | acquires hp hm hs =>
    obtain rfl := Acquisition.eq_ready_of_acquired hs
    obtain rfl := Act.eq_probe hm
    exact ha
  | acquireFails hp hm hs =>
    rw [hv] at hs
    obtain rfl := Acquisition.eq_failed_of_failed hs
    obtain rfl := Act.eq_probe hm
    exact ha
  | acquireCrashes hp hm hs =>
    obtain rfl := Acquisition.eq_crashed_of_crashed hs
    obtain rfl := Act.eq_probe hm
    have hf : f = .lost _ := ha
    rw [hf]; rfl
  | signals hp => rw [hp] at hl; exact hl
  | signalsFailure hp =>
    rw [hp] at hl
    have hf : f = .denied _ := hl
    rw [hf]; rfl
  | opens hp | polls hp | waits hp => rw [hp] at hl; exact hl
  | runs => exact ha
  | runFails => exact ha
  | runCrashes hp =>
    have hf : f = .crashes _ := ha
    rw [hf]; rfl
  | timesOut hp => exact ha hp
  | @releases r hp => rw [hp] at hl; cases r <;> exact hl
  | notifies hp => rw [hp] at hl; exact hl
  | notifiesFailure hp =>
    rw [hp] at hl
    have hf : f = .fails _ := hl
    rw [hf]; rfl
  | saves hp =>
    rw [hp] at hl
    obtain ⟨a, rfl⟩ := hl
    obtain ⟨ending, he⟩ := ha
    cases he
    rfl
  | saveCrashes hp =>
    obtain ⟨ending, rfl⟩ := ha
    rfl
  | @reports r hp =>
    rw [hp] at hl
    show f.ended = (p.report v r).2
    rw [ended_report hv]
    rcases r with e | ⟨ending, c⟩
    · exact hl
    · have hf : f = .answers ending (.checkpoint c) := hl
      rw [hf]; rfl

/-- A new task is on the way of any fate. -/
theorem leads_start (f : Fate) (index : Nat) (unlimited : Bool) :
    f.Leads (Partition.start index unlimited).phase := by
  simp only [Partition.start]
  split <;> exact trivial

end Fate

end Read

end Intake
