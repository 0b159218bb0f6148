import Intake.Proofs.Emission
import Intake.Proofs.Interleaving
/-!
# A stream feed can always go on

That a feed does nothing but what its serial reading says does not mean that it gets anywhere: it might wait
for ever, for the lock that another feed has, for a partition whose turn does not come, or for the answer of
a probe. Here it is shown that it need not. From every state of a read in which the feed follows its serial
reading, the read can be continued, by steps in which the connector honours its conduct, so that the feed
comes to its end if the serial reading does (`Follows.canFinish`).

The argument goes from the inside out, and every part of it is an induction on what is ahead:

* a partition whose turn it is has a step by the fate of its reader (`Fate.Leads.onward`), so the first
  partition without a result can be brought to its end (`Underway.canEnd`), and then the round
  (`Underway.canClose`);
* who has the lock can go on handing out until it gives the lock back (`Underway.canUnlock`);
* in all other phases the feed has a step of its own, or the connector an answer by its conduct
  (`FeedTask.Stands.onward`), so the feed comes to its end or into its next round (`Underway.canAdvance`);
* and the serial reading has only so many rounds (`Underway.canFinish`).
-/

namespace Intake

/-- How many moves an acquisition is from the answer of its probe. -/
@[simp] def Acquisition.Phase.ahead : Acquisition.Phase → Nat
  | .armed _ => 0
  | .fresh => 1
  | .waiting _ => 2
  | .refused _ => 3

namespace Ledger

/-- How many steps a visit takes at most. -/
def Visit.steps : Visit → Nat
  | .shared => 2
  | .member _ => 2
  | _ => 1

/-- With every step there is less to visit, also when a slot is still to be read. -/
theorem steps_follow_lt (l : Ledger) (v : Visit) (rest : List Visit) :
    ((l.follow v ++ rest).map Visit.steps).sum < ((v :: rest).map Visit.steps).sum := by
  have hlook : ∀ key, ((l.lookAt key).map Visit.steps).sum < 2 := by
    intro key
    unfold lookAt
    split
    · exact Nat.lt_succ_self 1
    · exact Nat.zero_lt_two
  rw [List.map_append, List.sum_append, List.map_cons, List.sum_cons]
  refine Nat.add_lt_add_right ?_ _
  cases v with
  | shared => exact hlook .shared
  | member id => exact hlook (.stream id)
  | wrap | alone | look => exact Nat.zero_lt_one

end Ledger

namespace Read

/-! ### Partitions -/

/-- How far a partition in a phase is from its end, if it need not probe again. -/
@[simp] def Partition.Phase.ahead : Partition.Phase → Nat
  | .queued => 13
  | .acquiring p => 9 + p.ahead
  | .signalling _ => 8
  | .opening => 7
  | .running => 6
  | .polling => 5
  | .releasing _ => 4
  | .notifying _ => 3
  | .saving _ => 2
  | .reporting _ => 1
  | .ended _ => 0

/-- A partition that nobody stops, whose turn it is and whose reader is cut off only if its run is limited,
can make a step by the fate of its reader that brings it nearer to its end. -/
theorem Fate.Leads.onward {f : Fate} {v : Partition.View} {p : Partition} (hl : f.Leads p.phase)
    (hv : v.cancelled = false) (hturn : p.phase = .queued → v.turn = true)
    (hlimit : ∀ a, f = .answers .timedOut a → (p.limit v).isSome = true) (hend : p.ended? = none) :
    ∃ a next, p.step v a = some next ∧ f.Allows p.phase a ∧
      next.task.phase.ahead < p.phase.ahead := by
  cases hp : p.phase with
  | queued =>
    refine ⟨.go, p.goto (.acquiring .fresh), ?_, trivial, by simp [Partition.goto]⟩
    simp only [Partition.step, hp, Partition.stepQueued, hturn hp, if_true]
  | acquiring q =>
    simp only [Partition.step, hp, Partition.stepAcquiring]
    cases q with
    | fresh =>
      refine ⟨.go, p.goto (.acquiring (.armed v.releases)), ?_, trivial, by simp [Partition.goto]⟩
      simp [Act.acquisition?, Acquisition.step, hv]
    | refused seen => exact ⟨.go, _, rfl, trivial, by simp [Partition.goto]⟩
    | waiting seen => exact ⟨.elapse, _, rfl, by rintro ⟨⟩, by simp [Partition.goto]⟩
    | armed seen =>
      cases f with
      | denied e => exact ⟨.probe (.failed e), _, rfl, rfl, by simp [Partition.goto]⟩
      | lost message => exact ⟨.probe (.crashed message), _, rfl, rfl, by simp [Partition.crash]⟩
      | _ => exact ⟨.probe .ready, _, rfl, rfl, by simp [Partition.goto]⟩
  | signalling r =>
    simp only [Partition.step, hp]
    rcases r with e | _
    · exact ⟨.go, _, rfl, trivial, by simp [Partition.goto]⟩
    · exact ⟨.go, _, rfl, trivial, by simp [Partition.goto]⟩
  | running =>
    refine ⟨.go, p.goto .polling, ?_, trivial, by simp [Partition.goto]⟩
    simp [Partition.step, hp, Partition.stepRunning, hv]
  | polling =>
    simp only [Partition.step, hp]
    rw [hp] at hl
    rcases f with e | message | e | message | ⟨_ | _, a⟩
    · cases hl
    · cases hl
    · exact ⟨.ran (.failed e), _, rfl, rfl, by simp [Partition.goto]⟩
    · exact ⟨.ran (.crashed message), _, rfl, rfl, by simp [Partition.crash]⟩
    · exact ⟨.ran .done, _, rfl, ⟨a, rfl⟩, by simp [Partition.goto]⟩
    · refine ⟨.elapse, p.goto (.releasing (.ok .timedOut)), ?_, fun _ => ⟨a, rfl⟩,
        by simp [Partition.goto]⟩
      simp only [Partition.stepPolling, hlimit a rfl, if_true]
  | notifying r =>
    simp only [Partition.step, hp]
    rcases r with e | ending
    · exact ⟨.go, _, rfl, trivial, by simp [Partition.goto]⟩
    · exact ⟨.go, _, rfl, trivial, by simp [Partition.goto]⟩
  | saving ending =>
    simp only [Partition.step, hp]
    rw [hp] at hl
    obtain ⟨a, rfl⟩ := hl
    rcases a with c | message
    · exact ⟨.saved (.checkpoint c), _, rfl, ⟨ending, rfl⟩, by simp [Partition.goto]⟩
    · exact ⟨.saved (.crashed message), _, rfl, ⟨ending, rfl⟩, by simp [Partition.crash]⟩
  | opening | releasing | reporting =>
    simp only [Partition.step, hp]
    exact ⟨.go, _, rfl, trivial, by simp [Partition.goto]⟩
  | ended e =>
    simp only [Partition.ended?, hp] at hend
    cases hend

/-! ### Feeds -/

namespace FeedTask

/-- What a task in a phase has ahead of it in its round: stages, and steps in the stage it is in. -/
@[simp] def Phase.ahead (factories : Nat) : Phase → Nat × Nat
  | .asleep => (17, 0)
  | .making k => (16, factories - k)
  | .acquiring p => (15, p.ahead)
  | .starting left => (14, left.length)
  | .opening => (13, 0)
  | .creating => (12, 0)
  | .releasing _ => (11, 0)
  | .notifying _ => (10, 0)
  | .created _ => (9, 0)
  | .reading _ => (8, 0)
  | .locking _ => (7, 0)
  | .visiting left _ _ => (6, (left.map Ledger.Visit.steps).sum)
  | .writing left _ _ => (5, left.length)
  | .completing left => (4, left.length)
  | .completed => (3, 0)
  | .failing _ => (2, 0)
  | .stopping _ _ left => (1, left.length)
  | .done _ => (0, 0)
  | .crashed _ => (0, 0)

/-- A phase is nearer to the end of a round than another one. -/
def Phase.Nearer (factories : Nat) (p q : Phase) : Prop :=
  Prod.Lex (· < ·) (· < ·) (p.ahead factories) (q.ahead factories)

theorem Phase.wellFounded_nearer (factories : Nat) : WellFounded (Phase.Nearer factories) :=
  InvImage.wf (Phase.ahead factories) (Prod.lex Nat.lt_wfRel Nat.lt_wfRel).wf

/-- A step brings a task nearer to the end of its round, or into the next one. -/
def Onward (factories : Nat) (t : FeedTask) (next : Next) : Prop :=
  next.task.round = t.round + 1 ∨
    next.task.round = t.round ∧ Phase.Nearer factories next.task.phase t.phase

section
variable {conduct : Conduct} {factories : Nat} {key : SlotKey} {state : Option Value}
  {plan : Option Creation} {part : List Note} {slot : Slot} {t : FeedTask} {v : View} {s : Shared}

/-- A step into a later stage. -/
theorem onward_of_stage {next : Next} {p : Phase} (hp : t.phase = p)
    (hround : next.task.round = t.round)
    (h : (next.task.phase.ahead factories).1 < (p.ahead factories).1) : Onward factories t next :=
  Or.inr ⟨hround, Prod.lex_def.mpr (Or.inl (hp ▸ h))⟩

/-- A step in a stage. -/
theorem onward_of_steps {next : Next} {p : Phase} (hp : t.phase = p)
    (hround : next.task.round = t.round)
    (h : (next.task.phase.ahead factories).1 = (p.ahead factories).1)
    (h' : (next.task.phase.ahead factories).2 < (p.ahead factories).2) : Onward factories t next :=
  Or.inr ⟨hround, Prod.lex_def.mpr (Or.inr ⟨hp ▸ h, hp ▸ h'⟩)⟩

/-- A task that hands out can go on with it, until it gives the lock back. -/
theorem exists_hand (factories : Nat) (hjob : t.phase.job?.isSome = true) :
    ∃ next, t.step v s .go = some next ∧ Onward factories t next ∧
      (next.shared.locked = false ∨
        next.task.phase.job?.isSome = true ∧ next.task.round = t.round) := by
  cases hp : t.phase with
  | visiting left draft e =>
    simp only [step, hp]
    cases left with
    | nil => exact ⟨_, rfl, onward_of_stage hp rfl (by simp [goto]), Or.inr ⟨rfl, rfl⟩⟩
    | cons visit rest =>
      exact ⟨_, rfl, onward_of_steps hp rfl rfl (s.ledger.steps_follow_lt visit rest), Or.inr ⟨rfl, rfl⟩⟩
  | writing left count e =>
    simp only [step, hp]
    cases left with
    | nil =>
      refine ⟨_, rfl, ?_, Or.inl ?_⟩
      · cases e with
        | last => exact onward_of_stage hp rfl (by simp [afterRound, goto])
        | more => exact Or.inl rfl
        | failed fault => exact onward_of_stage hp rfl (by simp [afterRound, goto])
      · cases e <;> rfl
    | cons message rest =>
      exact ⟨_, rfl, onward_of_steps hp rfl rfl (by simp [gotoWith]), Or.inr ⟨rfl, rfl⟩⟩
  | _ =>
    rw [hp] at hjob
    cases hjob

/-- Whether a task in a phase goes on by itself. Else it waits for an answer of the connector, for its
partitions or for the lock, or is over. -/
def Phase.goesOn : Phase → Bool
  | .making _ => false
  | .acquiring _ => false
  | .creating => false
  | .reading _ => false
  | .locking _ => false
  | .done _ => false
  | .crashed _ => false
  | _ => true

theorem exists_go (factories : Nat) (hgoes : t.phase.goesOn = true) :
    ∃ next, t.step v s .go = some next ∧ Onward factories t next := by
  cases hp : t.phase with
  | asleep =>
    simp only [step, hp]
    refine ⟨_, rfl, onward_of_stage hp rfl ?_⟩
    rcases s.ledger.scope? t.feed with _ | _ <;> simp [gotoWith]
  | starting left =>
    simp only [step, hp]
    cases left with
    | nil => exact ⟨_, rfl, onward_of_stage hp rfl (by simp [goto])⟩
    | cons id rest => exact ⟨_, rfl, onward_of_steps hp rfl rfl (by simp [gotoWith])⟩
  | notifying r =>
    simp only [step, hp]
    rcases r with e | readers
    · exact ⟨_, rfl, onward_of_stage hp rfl (by simp [goto])⟩
    · exact ⟨_, rfl, onward_of_stage hp rfl (by simp [goto])⟩
  | created readers =>
    simp only [step, hp]
    refine ⟨_, rfl, onward_of_stage hp rfl ?_⟩
    rcases readers.isEmpty with _ | _ <;> simp [gotoWith]
  | visiting | writing =>
    obtain ⟨next, hs, honward, -⟩ := exists_hand factories (by rw [hp]; rfl)
    exact ⟨next, hs, honward⟩
  | completing left =>
    simp only [step, hp]
    cases left with
    | nil => exact ⟨_, rfl, onward_of_stage hp rfl (by simp [goto])⟩
    | cons id rest => exact ⟨_, rfl, onward_of_steps hp rfl rfl (by simp [gotoWith])⟩
  | failing e =>
    simp only [step, hp, stepFailing]
    split
    · exact ⟨_, rfl, onward_of_stage hp rfl (by simp [goto])⟩
    · exact ⟨_, rfl, onward_of_stage hp rfl (by simp [goto])⟩
  | stopping n e left =>
    simp only [step, hp]
    cases left with
    | nil => exact ⟨_, rfl, onward_of_stage hp rfl (by simp [gotoWith])⟩
    | cons id rest => exact ⟨_, rfl, onward_of_steps hp rfl rfl (by simp [gotoWith])⟩
  | opening | releasing | completed =>
    simp only [step, hp]
    exact ⟨_, rfl, onward_of_stage hp rfl (by simp [gotoWith])⟩
  | making | acquiring | creating | reading | locking | done | crashed =>
    rw [hp] at hgoes
    cases hgoes

/-- A factory can answer by the conduct. -/
theorem exists_made (conduct : Conduct) (plan : Option Creation) {k : Nat} (hp : t.phase = .making k)
    (hfactories : v.factories = factories) :
    ∃ a next, t.step v s a = some next ∧ t.Hears conduct plan s.ledger a ∧
      Onward factories t next := by
  simp only [step, hp]
  by_cases hk : k < v.factories
  · have hears : t.Hears conduct plan s.ledger
        (.made (conduct k (s.ledger.current t.feed)).made) := by
      intro k' hk'
      rw [hp] at hk'; cases hk'
      rfl
    generalize (conduct k (s.ledger.current t.feed)).made = m at hears
    cases m with
    | none =>
      refine ⟨.made .none, t.goto s (.making (k + 1)), ?_, hears, onward_of_steps hp rfl rfl ?_⟩
      · simp only [stepMaking, hk, if_true]
      · simp only [goto, Phase.ahead]
        omega
    | creator =>
      refine ⟨.made .creator, t.goto s (.acquiring .fresh), ?_, hears,
        onward_of_stage hp rfl (by simp [goto])⟩
      simp only [stepMaking, hk, if_true]
    | crashed message =>
      refine ⟨.made (.crashed message), t.goto s (.crashed message), ?_, hears,
        onward_of_stage hp rfl (by simp [goto])⟩
      simp only [stepMaking, hk, if_true]
  · refine ⟨.go, t.goto s (.failing (.noFactory t.label)), ?_, fun _ _ => trivial,
      onward_of_stage hp rfl (by simp [goto])⟩
    simp only [stepMaking, hk, if_false]

/-- The creator in force can go on with its acquisition. -/
theorem exists_acquisition (conduct : Conduct) {c : Creation} (hplan : plan = some c)
    {q : Acquisition.Phase} (hp : t.phase = .acquiring q) (hv : t.cancelledIn v = false) :
    ∃ a next, t.step v s a = some next ∧ t.Hears conduct plan s.ledger a ∧
      Onward factories t next := by
  simp only [step, hp, stepAcquiring]
  cases q with
  | fresh =>
    refine ⟨.go, t.goto s (.acquiring (.armed t.releases)), ?_, fun _ _ => trivial,
      onward_of_steps hp rfl rfl (by simp [goto])⟩
    simp [Act.acquisition?, Acquisition.step, hv]
  | refused seen =>
    exact ⟨.go, _, rfl, fun _ _ => trivial, onward_of_steps hp rfl rfl (by simp [gotoWith])⟩
  | waiting seen =>
    exact ⟨.elapse, _, rfl, fun _ _ => trivial, onward_of_steps hp rfl rfl (by simp [goto])⟩
  | armed seen =>
    have hears : ∀ a, c.Allows (.probe a) → t.Hears conduct plan s.ledger (.probe a) := by
      intro a ha c' hc'
      rw [hplan] at hc'; cases hc'
      exact ha
    cases c with
    | denied e =>
      exact ⟨.probe (.failed e), _, rfl, hears _ rfl, onward_of_stage hp rfl (by simp [goto])⟩
    | lost message =>
      exact ⟨.probe (.crashed message), _, rfl, hears _ rfl, onward_of_stage hp rfl (by simp [goto])⟩
    | _ => exact ⟨.probe .ready, _, rfl, hears _ rfl, onward_of_stage hp rfl (by simp [goto])⟩

/-- The creator in force can answer, once it has its resources. -/
theorem exists_created (conduct : Conduct) {c : Creation} (hplan : plan = some c)
    (hgranted : c.granted = true) (hp : t.phase = .creating) :
    ∃ a next, t.step v s a = some next ∧ t.Hears conduct plan s.ledger a ∧
      Onward factories t next := by
  simp only [step, hp]
  have hears : ∀ a, c.Allows (.created a) → t.Hears conduct plan s.ledger (.created a) := by
    intro a ha c' hc'
    rw [hplan] at hc'; cases hc'
    exact ha
  cases c with
  | denied | lost => cases hgranted
  | fails e =>
    exact ⟨.created (.failed e), _, rfl, hears _ rfl, onward_of_stage hp rfl (by simp [goto])⟩
  | crashes message =>
    exact ⟨.created (.crashed message), _, rfl, hears _ rfl, onward_of_stage hp rfl (by simp [goto])⟩
  | makes readers =>
    exact ⟨.created (.readers (readers.map Prod.fst)), _, rfl, hears _ ⟨readers, rfl, rfl⟩,
      onward_of_stage hp rfl (by simp [goto])⟩

/-- A task that stands in the serial reading can make a step, unless it waits for its partitions or for
the lock. -/
theorem Stands.onward (h : t.Stands conduct factories key state plan part slot t.phase)
    (hv : t.cancelledIn v = false) (hfactories : v.factories = factories)
    (hfinished : t.finished = false) (hreading : ∀ r, t.phase ≠ .reading r)
    (hlocking : ∀ e, t.phase = .locking e → s.locked = false) :
    ∃ a next, t.step v s a = some next ∧ t.Hears conduct plan s.ledger a ∧
      Onward factories t next := by
  cases hp : t.phase with
  | making k => exact exists_made conduct plan hp hfactories
  | acquiring q =>
    rw [hp] at h
    obtain ⟨-, c, hf⟩ := h
    exact exists_acquisition conduct hf.plan_eq hp hv
  | creating =>
    rw [hp] at h
    obtain ⟨-, c, hf, hgranted⟩ := h
    exact exists_created conduct hf.plan_eq hgranted hp
  | reading r => exact absurd hp (hreading r)
  | locking e =>
    refine ⟨.go, t.goto { s with locked := true } (.visiting s.ledger.plan {} e), ?_,
      fun _ _ => trivial, onward_of_stage hp rfl (by simp [goto])⟩
    simp only [FeedTask.step, hp, stepLocking, hlocking e hp, Bool.false_eq_true, if_false]
  | done | crashed =>
    simp only [finished, hp] at hfinished
    cases hfinished
  | _ =>
    obtain ⟨next, hs, honward⟩ := exists_go factories (by rw [hp]; rfl)
    exact ⟨.go, next, hs, fun _ _ => trivial, honward⟩

/-- The first partition without a result need not wait for the one before it. -/
theorem Reads.turn_eq {fates : List Fate} {r : Round} (h : Reads fates t r) {j : Nat} {p : Partition}
    (hp : t.parts[j]? = some p) (hrec : r.isRecorded j = false)
    (hbefore : ∀ k < j, r.isRecorded k = true) : (t.partView v j p).turn = true := by
  cases j with
  | zero => rfl
  | succ k =>
    have hlt := (List.getElem?_eq_some_iff.mp hp).1
    have hq := List.getElem?_eq_getElem (Nat.lt_of_succ_lt hlt)
    have hsize : k + 1 < r.size := by
      rwa [h.faithful.size_eq, List.length_map, ← h.length_eq]
    have hended := h.inTurn k _ hq (hbefore k (Nat.lt_succ_self k)) hsize hrec
    have hpassed := h.passed k _ hq (Partition.hasAcquired_of_ended hended)
    simp only [partView, hq, Option.any_some, hpassed]

end

end FeedTask

/-- In a conduct only readers whose run is limited are cut off. -/
def Conduct.Timed (conduct : Conduct) (settings : Settings) : Prop :=
  ∀ k state readers, conduct k state = some (.ok (.makes readers)) → ∀ unlimited a,
    (unlimited, Fate.answers .timedOut a) ∈ readers →
    unlimited = false ∧ settings.partitionTimeout.isSome = true

/-- What is found by asking factories is what one of them offers. -/
theorem exists_of_serialAsk {conduct : Conduct} {number left k : Nat} {state : Option Value}
    {answer : Except String Creation} (h : (serialAsk conduct number state left k).2 = some answer) :
    ∃ k, conduct k state = some answer := by
  induction left generalizing k with
  | zero => cases h
  | succ left ih =>
    unfold serialAsk at h
    split at h
    · exact ih h
    · rename_i answer' hk
      cases h
      exact ⟨k, hk⟩

/-- A reader that is cut off has a limit. -/
theorem Conduct.Timed.limit_isSome {conduct : Conduct} {factories number j : Nat}
    {state : Option Value} {plan : Option Creation} {asked : List Note}
    {readers : List (Bool × Fate)} {t : FeedTask} {v : FeedTask.View} {p : Partition}
    {unlimited : Bool} {a : Saved} (h : conduct.Timed v.settings)
    (hfound : FeedTask.Found conduct factories number state plan asked (.makes readers))
    (hlimits : t.parts.map (·.unlimited) = readers.map Prod.fst) (hp : t.parts[j]? = some p)
    (hreader : readers[j]? = some (unlimited, .answers .timedOut a)) :
    (p.limit (t.partView v j p)).isSome = true := by
  obtain ⟨k, hk⟩ := exists_of_serialAsk (by rw [hfound.asked])
  obtain ⟨rfl, htimeout⟩ := h k state readers hk unlimited a (List.mem_of_getElem? hreader)
  have hu : p.unlimited = false := by
    have hj := congrArg (·[j]?) hlimits
    simp only [List.getElem?_map, hp, hreader, Option.map_some, Option.some.injEq] at hj
    exact hj
  simp only [Partition.limit, hu]
  exact htimeout

namespace System

/-! ### Continuing a read -/

/-- A read can be continued to a state with a property: without cancelling it, without resetting a slot, and
with the connector honouring its conduct towards the feed of an index. -/
inductive CanReach (conduct : Conduct) (i : Nat) (key : SlotKey)
    (goal : Option Creation → System → Prop) : Option Creation → System → Prop
  | here {plan : Option Creation} {s : System} : goal plan s → CanReach conduct i key goal plan s
  | step {plan : Option Creation} {s s' : System} {move : Move} {effects : List Effect} :
      s.step move = some (s', effects) → move ≠ .cancel → move ≠ .reset key →
      Step.Honours conduct i plan ⟨s, move, effects, s'⟩ →
      CanReach conduct i key goal (Step.planAfter conduct i plan ⟨s, move, effects, s'⟩) s' →
      CanReach conduct i key goal plan s

section
variable {conduct : Conduct} {i : Nat} {key : SlotKey} {goal goal' : Option Creation → System → Prop}
  {plan : Option Creation} {s : System}

theorem CanReach.bind (h : CanReach conduct i key goal plan s)
    (hgoal : ∀ plan' s', goal plan' s' → CanReach conduct i key goal' plan' s') :
    CanReach conduct i key goal' plan s := by
  induction h with
  | here hs => exact hgoal _ _ hs
  | step hs hcancel hreset hhonours _ ih => exact .step hs hcancel hreset hhonours ih

theorem CanReach.exists_run (h : CanReach conduct i key goal plan s) :
    ∃ moves s' effects, s.run moves = some (s', effects) ∧ Move.cancel ∉ moves ∧
      Move.reset key ∉ moves ∧ Honours conduct i plan (s.trace moves) ∧
      goal (planAlong conduct i plan (s.trace moves)) s' := by
  induction h with
  | here hs => exact ⟨[], _, [], rfl, List.not_mem_nil, List.not_mem_nil, trivial, hs⟩
  | step hs hcancel hreset hhonours _ ih =>
    obtain ⟨moves, s', effects, hrun, hcancel', hreset', hhonours', hgoal⟩ := ih
    refine ⟨_ :: moves, s', _, run_cons_of hs hrun, ?_, ?_, ?_, ?_⟩
    · exact List.not_mem_cons_of_ne_of_not_mem hcancel.symm hcancel'
    · exact List.not_mem_cons_of_ne_of_not_mem hreset.symm hreset'
    · rw [trace_cons hs]
      exact ⟨hhonours, hhonours'⟩
    · rw [trace_cons hs]
      exact hgoal

end

/-- A read is under way in which a stream feed follows its serial reading. -/
structure Underway (conduct : Conduct) (factories : Nat) (feeds : List Feed) (i : Nat)
    (stream : Stream) (initial : Option Value) (plan : Option Creation) (s : System) : Prop where
  nodup : (feeds.map Feed.key).Nodup
  feed_eq : feeds[i]? = some (.stream stream)
  begun : s.begun = true
  timed : conduct.Timed s.settings
  follows : ∃ notes, Follows conduct factories feeds i stream initial plan notes s
  mirrors : ∃ d holder, Mirrors s d holder

section
variable {conduct : Conduct} {factories : Nat} {feeds : List Feed} {i : Nat} {stream : Stream}
  {initial : Option Value} {plan : Option Creation} {s s' : System}
  {goal : Option Creation → System → Prop}

theorem Underway.step (h : Underway conduct factories feeds i stream initial plan s)
    {move : Move} {effects : List Effect} (hs : s.step move = some (s', effects))
    (hcancel : move ≠ .cancel) (hreset : move ≠ .reset (.stream stream.id))
    (hconduct : Step.Honours conduct i plan ⟨s, move, effects, s'⟩) :
    Underway conduct factories feeds i stream initial
      (Step.planAfter conduct i plan ⟨s, move, effects, s'⟩) s' := by
  obtain ⟨notes, hfollows⟩ := h.follows
  obtain ⟨d, holder, hmirrors⟩ := h.mirrors
  obtain ⟨-, d', holder', -, -, hmirrors', -, -⟩ := hmirrors.step hs
  exact {
    nodup := h.nodup
    feed_eq := h.feed_eq
    begun := begun_step hs h.begun
    timed := (frame_step hs).1 ▸ h.timed
    follows := ⟨_, hfollows.step h.nodup h.feed_eq hs hcancel hreset hconduct⟩
    mirrors := ⟨d', holder', hmirrors'⟩ }

theorem Underway.move (h : Underway conduct factories feeds i stream initial plan s)
    {move : Move} {effects : List Effect} (hs : s.step move = some (s', effects))
    (hcancel : move ≠ .cancel) (hreset : move ≠ .reset (.stream stream.id))
    (hconduct : Step.Honours conduct i plan ⟨s, move, effects, s'⟩)
    (hgo : ∀ plan', plan' = Step.planAfter conduct i plan ⟨s, move, effects, s'⟩ →
      Underway conduct factories feeds i stream initial plan' s' →
      CanReach conduct i (.stream stream.id) goal plan' s') :
    CanReach conduct i (.stream stream.id) goal plan s :=
  .step hs hcancel hreset hconduct (hgo _ rfl (h.step hs hcancel hreset hconduct))

theorem Underway.stands (h : Underway conduct factories feeds i stream initial plan s)
    {t : FeedTask} (ht : s.feeds[i]? = some t) :
    t.cancelledIn (s.feedView i) = false ∧ s.factories = factories ∧ ∃ state part slot,
      t.Stands conduct factories (.stream stream.id) state plan part slot t.phase := by
  obtain ⟨notes, hfollows⟩ := h.follows
  obtain ⟨u, slot, n, state, past, part, hu, -, -, -, -, hstands⟩ := hfollows.task
  rw [hu] at ht; cases ht
  exact ⟨(hfollows.free h.feed_eq hu).1, hfollows.factories_eq, state, part, slot, hstands⟩

/-- What holds of a feed that reads the partitions of a round. -/
theorem Underway.reads (h : Underway conduct factories feeds i stream initial plan s)
    {t : FeedTask} {r : Round} (ht : s.feeds[i]? = some t) (hphase : t.phase = .reading r) :
    t.cancelledIn (s.feedView i) = false ∧ ∃ state asked readers,
      FeedTask.Found conduct factories t.round state plan asked (.makes readers) ∧
      t.parts.map (·.unlimited) = readers.map Prod.fst ∧
      FeedTask.Reads (readers.map Prod.snd) t r := by
  obtain ⟨hv, -, state, part, slot, hstands⟩ := h.stands ht
  rw [hphase] at hstands
  obtain ⟨-, asked, readers, hfound, -, -, hlimits, hreads⟩ := hstands
  exact ⟨hv, state, asked, readers, hfound, hlimits, hreads⟩

theorem Underway.exists_task (h : Underway conduct factories feeds i stream initial plan s) :
    ∃ t, s.feeds[i]? = some t := by
  obtain ⟨notes, hfollows⟩ := h.follows
  obtain ⟨t, -, -, -, -, -, ht, -⟩ := hfollows.task
  exact ⟨t, ht⟩

/-- The feed makes a step itself. -/
theorem Underway.own (h : Underway conduct factories feeds i stream initial plan s)
    {t : FeedTask} (ht : s.feeds[i]? = some t) {a : Act} {next : FeedTask.Next}
    (hstep : t.step (s.feedView i) s.shared a = some next)
    (hears : t.Hears conduct plan s.shared.ledger a)
    (hgo : ∀ plan' s', Underway conduct factories feeds i stream initial plan' s' →
      s'.feeds[i]? = some next.task → CanReach conduct i (.stream stream.id) goal plan' s') :
    CanReach conduct i (.stream stream.id) goal plan s := by
  refine h.move (step_feed_of h.begun ht hstep) (by rintro ⟨⟩) (by rintro ⟨⟩)
    (Step.honours_of_own ht hears) fun plan' _ h' => hgo plan' _ h' ?_
  exact List.getElem?_set_self (List.getElem?_eq_some_iff.mp ht).1

/-- Another feed makes a step by itself. -/
theorem Underway.other (h : Underway conduct factories feeds i stream initial plan s)
    {k : Nat} (hk : k ≠ i) {u : FeedTask} (hu : s.feeds[k]? = some u) {next : FeedTask.Next}
    (hstep : u.step (s.feedView k) s.shared .go = some next)
    (hgo : ∀ s', Underway conduct factories feeds i stream initial plan s' →
      s'.feeds[i]? = s.feeds[i]? → s'.feeds[k]? = some next.task → s'.shared = next.shared →
      CanReach conduct i (.stream stream.id) goal plan s') :
    CanReach conduct i (.stream stream.id) goal plan s := by
  have hfeed : ∀ a, Move.feed k .go ≠ .feed i a := by
    rintro a ⟨⟩
    exact hk rfl
  refine h.move (step_feed_of h.begun hu hstep) (by rintro ⟨⟩) (by rintro ⟨⟩)
    (Step.honours_of_ne hfeed (by rintro j a ⟨⟩)) fun plan' hplan h' => ?_
  rw [planAfter_of_ne hfeed] at hplan
  subst hplan
  refine hgo _ h' ?_ ?_ rfl
  · exact List.getElem?_set_ne hk
  · exact List.getElem?_set_self (List.getElem?_eq_some_iff.mp hu).1

/-- A partition of the feed makes a step. -/
theorem Underway.part (h : Underway conduct factories feeds i stream initial plan s)
    {t : FeedTask} (ht : s.feeds[i]? = some t) {j : Nat} {p : Partition} (hp : t.parts[j]? = some p)
    {a : Act} {next : Partition.Next}
    (hstep : p.step (t.partView (s.feedView i) j p) a = some next)
    (hallows : ∀ c f, plan = some c → c.fates[j]? = some f → f.Allows p.phase a)
    (hgo : ∀ s' releases, Underway conduct factories feeds i stream initial plan s' →
      s'.feeds[i]? = some { t with parts := t.parts.set j next.task, releases } →
      CanReach conduct i (.stream stream.id) goal plan s') :
    CanReach conduct i (.stream stream.id) goal plan s := by
  obtain ⟨releases, hs⟩ := step_partition_of ht hp hstep
  refine h.move hs (by rintro ⟨⟩) (by rintro ⟨⟩)
    (Step.honours_of_partition ht hp hallows) fun plan' hplan h' => ?_
  rw [planAfter_of_ne (by rintro b ⟨⟩)] at hplan
  subst hplan
  exact hgo _ releases h' (List.getElem?_set_self (List.getElem?_eq_some_iff.mp ht).1)

/-! ### The lock -/

/-- Who has the lock can be brought to give it back. -/
theorem Underway.canUnlock_of_holder {t u : FeedTask} {k : Nat} (hk : k ≠ i)
    (h : Underway conduct factories feeds i stream initial plan s)
    (ht : s.feeds[i]? = some t) (hu : s.feeds[k]? = some u) (hjob : u.phase.job?.isSome = true) :
    CanReach conduct i (.stream stream.id)
      (fun plan' s' => Underway conduct factories feeds i stream initial plan' s' ∧
        s'.feeds[i]? = some t ∧ s'.shared.locked = false) plan s := by
  generalize hq : u.phase = q
  induction q using (FeedTask.Phase.wellFounded_nearer factories).induction generalizing s u with
  | _ q ih =>
    obtain ⟨next, hstep, honward, hnext⟩ :=
      FeedTask.exists_hand factories (v := s.feedView k) (s := s.shared) hjob
    refine h.other hk hu hstep fun s' h' hi hk' hshared => ?_
    rw [ht] at hi
    rcases hnext with hfree | ⟨hjob', hround⟩
    · exact .here ⟨h', hi, by rw [hshared]; exact hfree⟩
    · refine ih next.task.phase ?_ h' hi hk' hjob' rfl
      rcases honward with hmore | ⟨-, hnearer⟩
      · omega
      · exact hq ▸ hnearer

/-- The feed need not wait for the lock. -/
theorem Underway.canUnlock (h : Underway conduct factories feeds i stream initial plan s)
    {t : FeedTask} (ht : s.feeds[i]? = some t) :
    CanReach conduct i (.stream stream.id)
      (fun plan' s' => Underway conduct factories feeds i stream initial plan' s' ∧
        s'.feeds[i]? = some t ∧ ∀ e, t.phase = .locking e → s'.shared.locked = false) plan s := by
  by_cases hwaits : s.shared.locked = true ∧ ∃ e, t.phase = .locking e
  · obtain ⟨hlocked, e, hphase⟩ := hwaits
    obtain ⟨d, holder, hmirrors⟩ := h.mirrors
    obtain ⟨k, u, hu, hjob⟩ := hmirrors.exists_holder hlocked
    have hk : k ≠ i := by
      rintro rfl
      rw [ht] at hu; cases hu
      rw [hphase] at hjob
      cases hjob
    refine (Underway.canUnlock_of_holder hk h ht hu hjob).bind ?_
    rintro plan' s' ⟨h', ht', hfree⟩
    exact .here ⟨h', ht', fun _ _ => hfree⟩
  · exact .here ⟨h, ht, fun e he => Bool.eq_false_iff.mpr fun hlocked => hwaits ⟨hlocked, e, he⟩⟩

/-! ### The partitions of a round -/

/-- The first partition without a result can be brought to its end. -/
theorem Underway.canEnd {t : FeedTask} {r : Round} {j number : Nat} {p : Partition}
    (hrec : r.isRecorded j = false) (hbefore : ∀ k < j, r.isRecorded k = true)
    (h : Underway conduct factories feeds i stream initial plan s)
    (ht : s.feeds[i]? = some t) (hphase : t.phase = .reading r) (hround : t.round = number)
    (hp : t.parts[j]? = some p) :
    CanReach conduct i (.stream stream.id)
      (fun plan' s' => Underway conduct factories feeds i stream initial plan' s' ∧
        ∃ t' p', s'.feeds[i]? = some t' ∧ t'.phase = .reading r ∧ t'.round = number ∧
          t'.parts[j]? = some p' ∧ p'.ended?.isSome = true) plan s := by
  generalize hn : p.phase.ahead = n
  induction n using Nat.strongRecOn generalizing s t p with
  | _ n ih =>
    obtain ⟨hv, state, asked, readers, hfound, hlimits, hreads⟩ := h.reads ht hphase
    rcases hend : p.ended? with _ | e
    · have hlt := (List.getElem?_eq_some_iff.mp hp).1
      obtain ⟨⟨unlimited, f⟩, hreader⟩ : ∃ reader, readers[j]? = some reader := by
        refine ⟨_, List.getElem?_eq_getElem ?_⟩
        rwa [← List.length_map Prod.snd, ← hreads.length_eq]
      have hf : (readers.map Prod.snd)[j]? = some f := by rw [List.getElem?_map, hreader]; rfl
      have hhalted := hreads.not_halted hp hrec
      have hlimit : ∀ a, f = .answers .timedOut a →
          (p.limit (t.partView (s.feedView i) j p)).isSome = true := by
        rintro a rfl
        exact Conduct.Timed.limit_isSome (v := s.feedView i) h.timed hfound hlimits hp hreader
      obtain ⟨a, next, hstep, hallows, hless⟩ := (hreads.leads j p f hp hf hhalted).onward
        (by simp [FeedTask.partView, hv, hhalted]) (fun _ => hreads.turn_eq hp hrec hbefore) hlimit hend
      refine h.part ht hp hstep ?_ fun s' releases h' ht' => ?_
      · intro c f' hc hf'
        rw [hfound.plan_eq] at hc; cases hc
        rw [show (Creation.makes readers).fates[j]? = some f from hf] at hf'; cases hf'
        exact hallows
      · exact ih _ (hn ▸ hless) h' ht' hphase hround (List.getElem?_set_self hlt) rfl
    · exact .here ⟨h, t, p, ht, hphase, hround, hp, Option.isSome_of_eq_some hend⟩

/-- A round can be brought to its end. -/
theorem Underway.canClose {t : FeedTask} {r : Round} {number : Nat}
    (h : Underway conduct factories feeds i stream initial plan s)
    (ht : s.feeds[i]? = some t) (hphase : t.phase = .reading r) (hround : t.round = number) :
    CanReach conduct i (.stream stream.id)
      (fun plan' s' => Underway conduct factories feeds i stream initial plan' s' ∧
        ∃ t' e, s'.feeds[i]? = some t' ∧ t'.round = number ∧ t'.phase = .locking e) plan s := by
  generalize hn : r.left = n
  induction n using Nat.strongRecOn generalizing s t r plan with
  | _ n ih =>
    obtain ⟨-, -, -, readers, -, -, hreads⟩ := h.reads ht hphase
    rcases hnext : r.next? with _ | c
    · by_cases hfull : r.full = true
      · refine h.own ht (FeedTask.step_closes hphase hnext hfull s.shared) (fun _ _ => trivial)
          fun plan' s' h' ht' => ?_
        exact .here ⟨h', _, _, ht', hround, rfl⟩
      · -- an end has to be taken, and before that to be there
        have hfull' := Bool.eq_false_iff.mpr hfull
        obtain ⟨j, hj, hrec, hbefore⟩ := hreads.faithful.exists_first_open hfull'
        have hp : t.parts[j]? = some _ := List.getElem?_eq_getElem (by
          rwa [hreads.length_eq, ← List.length_map (Fate.result t.label), ← hreads.faithful.size_eq])
        refine (Underway.canEnd hrec hbefore h ht hphase hround hp).bind ?_
        rintro plan₁ s₁ ⟨h₁, t₁, p₁, ht₁, hphase₁, hround₁, hp₁, hended⟩
        obtain ⟨hv₁, -, -, readers₁, -, -, hreads₁⟩ := h₁.reads ht₁ hphase₁
        obtain ⟨e, -, hstep⟩ :=
          hreads₁.step_joins hv₁ hphase₁ hnext hfull' hp₁ hrec hended s₁.shared
        refine h₁.own ht₁ hstep (fun _ _ => trivial) fun plan' s' h' ht' => ?_
        exact ih _ (hn ▸ Round.left_observe_lt hfull' hrec false e) h' ht' rfl hround₁ rfl
    · refine h.own ht (FeedTask.step_applies hphase hnext s.shared) (fun _ _ => trivial)
        fun plan' s' h' ht' => ?_
      exact ih _ (hn ▸ Round.left_applyNext_lt hnext) h' ht' rfl hround rfl

/-! ### The end of the feed -/

/-- The feed can be brought to its end, or into its next round. -/
theorem Underway.canAdvance {t : FeedTask} {number : Nat}
    (h : Underway conduct factories feeds i stream initial plan s)
    (ht : s.feeds[i]? = some t) (hround : t.round = number) :
    CanReach conduct i (.stream stream.id)
      (fun plan' s' => Underway conduct factories feeds i stream initial plan' s' ∧
        ∃ t', s'.feeds[i]? = some t' ∧ (t'.finished = true ∨ t'.round = number + 1)) plan s := by
  generalize hq : t.phase = q
  induction q using (FeedTask.Phase.wellFounded_nearer factories).induction generalizing s t plan with
  | _ q ih =>
    by_cases hfinished : t.finished = true
    · exact .here ⟨h, t, ht, Or.inl hfinished⟩
    by_cases hreading : ∃ r, t.phase = .reading r
    · -- the partitions are read first
      obtain ⟨r, hphase⟩ := hreading
      refine (Underway.canClose h ht hphase hround).bind ?_
      rintro plan₁ s₁ ⟨h₁, t₁, e, ht₁, hround₁, hphase₁⟩
      refine ih t₁.phase ?_ h₁ ht₁ hround₁ rfl
      rw [← hq, hphase, hphase₁]
      exact Prod.Lex.left _ _ (by decide)
    · -- else there is a step to make, as soon as the lock is free
      refine (h.canUnlock ht).bind ?_
      rintro plan₁ s₁ ⟨h₁, ht₁, hfree⟩
      obtain ⟨hv, hfactories, state, part, slot, hstands⟩ := h₁.stands ht₁
      obtain ⟨a, next, hstep, hears, honward⟩ := hstands.onward hv hfactories
        (Bool.eq_false_iff.mpr hfinished) (fun r hr => hreading ⟨r, hr⟩) hfree
      refine h₁.own ht₁ hstep hears fun plan' s' h' ht' => ?_
      rcases honward with hmore | ⟨hsame, hnearer⟩
      · exact .here ⟨h', next.task, ht', Or.inr (by rw [hmore, hround])⟩
      · exact ih _ (hq ▸ hnearer) h' ht' (hsame.trans hround) rfl

/-- The feed is in a round that the serial reading has. -/
theorem Underway.round_le (h : Underway conduct factories feeds i stream initial plan s)
    {t : FeedTask} (ht : s.feeds[i]? = some t) {n : Nat} {phase : FeedTask.Phase}
    (hn : (serial conduct factories stream.id.label initial n).2.phase? = some phase) :
    t.round ≤ n := by
  obtain ⟨notes, hfollows⟩ := h.follows
  obtain ⟨u, slot, m, state, past, part, hu, -, hround, hserial, -⟩ := hfollows.task
  rw [hu] at ht; cases ht
  by_contra hlt
  have hstop := serial_of_stopped hn (m := m) (by omega)
  rw [hserial] at hstop
  rw [← hstop] at hn
  cases hn

/-- If the serial reading of the feed comes to its end, so can the feed. -/
theorem Underway.canFinish {n : Nat} {phase : FeedTask.Phase}
    (hn : (serial conduct factories stream.id.label initial n).2.phase? = some phase)
    (h : Underway conduct factories feeds i stream initial plan s) :
    CanReach conduct i (.stream stream.id)
      (fun _ s' => ∃ t', s'.feeds[i]? = some t' ∧ t'.finished = true) plan s := by
  obtain ⟨t, ht⟩ := h.exists_task
  generalize hleft : n - t.round = left
  induction left using Nat.strongRecOn generalizing s t plan with
  | _ left ih =>
    refine (Underway.canAdvance h ht rfl).bind ?_
    rintro plan' s' ⟨h', t', ht', hfinished | hround⟩
    · exact .here ⟨t', ht', hfinished⟩
    · have hle := h'.round_le ht' hn
      exact ih (n - t'.round) (by omega) h' t' ht' rfl

theorem exists_begin (h : s.begun = false) :
    ∃ s' effects, s.step .supervise = some (s', effects) ∧ s'.begun = true := by
  unfold begun at h
  split at h
  · rename_i hwatch
    simp only [System.step, supervise, hwatch]
    exact ⟨_, _, rfl, rfl⟩
  · cases h

/-- The same for a read that has perhaps not begun. -/
theorem Follows.canFinish {notes : List Note} {d : Desk} {holder : Option Nat}
    (h : Follows conduct factories feeds i stream initial plan notes s)
    (hnodup : (feeds.map Feed.key).Nodup) (hi : feeds[i]? = some (.stream stream))
    (hm : Mirrors s d holder) (htimed : conduct.Timed s.settings) {n : Nat} {phase : FeedTask.Phase}
    (hn : (serial conduct factories stream.id.label initial n).2.phase? = some phase) :
    CanReach conduct i (.stream stream.id)
      (fun _ s' => ∃ t', s'.feeds[i]? = some t' ∧ t'.finished = true) plan s := by
  by_cases hbegun : s.begun = true
  · have hunder : Underway conduct factories feeds i stream initial plan s :=
      ⟨hnodup, hi, hbegun, htimed, ⟨notes, h⟩, d, holder, hm⟩
    exact hunder.canFinish hn
  · -- the supervisor makes the first step
    obtain ⟨s', effects, hs, hbegun'⟩ := exists_begin (Bool.eq_false_iff.mpr hbegun)
    have hhonours : Step.Honours conduct i plan ⟨s, .supervise, effects, s'⟩ :=
      Step.honours_of_ne (by rintro a ⟨⟩) (by rintro j a ⟨⟩)
    obtain ⟨-, d', holder', -, -, hm', -, -⟩ := hm.step hs
    have hfollows := h.step hnodup hi hs (by rintro ⟨⟩) (by rintro ⟨⟩) hhonours
    have hunder : Underway conduct factories feeds i stream initial _ s' :=
      ⟨hnodup, hi, hbegun', (frame_step hs).1 ▸ htimed, ⟨_, hfollows⟩, d', holder', hm'⟩
    exact .step hs (by rintro ⟨⟩) (by rintro ⟨⟩) hhonours (hunder.canFinish hn)

end

end System

end Read

end Intake
