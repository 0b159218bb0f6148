import Intake.Proofs.Gate
import Intake.Script.Contention
/-!
# A contention is one schedule of its gate

The tasks of a contention share one gate and a clock. Here it is seen that those of them that acquire make no other
moves than the calls of a `Gate`: `Mirrors s g` says that a gate shows a contention, `Mirrors.advance` that a step of a
task is a move of the gate or none, and `leads_run` that all of a contention is one run of its gate. So what holds of
the calls after every run of a gate holds of the tasks of every contention. The main statement is
`success_never_discarded`.
-/

namespace Intake.Script

open Acquisition (Place Outcome)

/-- How a task that acquires says that its call has ended. -/
inductive JobResult.Tells (retries : Nat) : JobResult → Outcome → Prop
  | acquired {time : Nat} : Tells retries (.acquired time retries (.ok ())) .acquired
  | failed {time : Nat} {e : Fault} : Tells retries (.acquired time retries (.error e)) (.failed e)
  | crashed {message : String} : Tells retries .crashed (.crashed message)

namespace Contender

/-- The task acquires. -/
def Acquires (task : Contender) : Prop :=
  ∃ probe heartbeat hold cancelAt, task.job = .acquire probe heartbeat hold cancelAt

/-- The stage of a task that acquires shows where its call stands. -/
inductive Shows (retries : Nat) : Stage → Place → Prop
  | sleeping {deadline : Nat} : Shows retries (.sleeping deadline) (.underway .fresh)
  | acquiring {phase : Acquisition.Phase} {deadline : Nat} :
      Shows retries (.acquiring phase deadline) (.underway phase)
  | holding {deadline : Nat} {result : JobResult} : result.Tells retries .acquired →
      Shows retries (.holding deadline result) (.over .acquired)
  | finished {time : Nat} {result : JobResult} {o : Outcome} : result.Tells retries o →
      Shows retries (.finished time result) (.over o)

/-- A call is that of a task. -/
structure Makes (task : Contender) (c : Call) : Prop where
  answers : c.answers = (task.calls.map Prod.snd).reverse
  reported : c.reported = task.retries
  place : Shows task.retries task.stage c.place

theorem Makes.place_of_acquiring {task : Contender} {c : Call} {phase : Acquisition.Phase} {deadline : Nat}
    (h : task.Makes c) (hstage : task.stage = .acquiring phase deadline) : c.place = .underway phase := by
  have hshows := h.place
  rw [hstage] at hshows
  generalize c.place = place at hshows ⊢
  cases hshows
  rfl

end Contender

namespace Contention

/-- A gate shows a contention. -/
structure Mirrors (s : Contention) (g : Gate) : Prop where
  releases : g.releases = s.releases
  length : g.calls.length = s.tasks.length
  token : ∀ (i : Nat) (task : Contender) (c : Call), s.tasks[i]? = some task → g.calls[i]? = some c →
    c.cancelled = task.cancelled s.now
  makes : ∀ (i : Nat) (task : Contender) (c : Call), s.tasks[i]? = some task → g.calls[i]? = some c →
    task.Acquires → task.Makes c

/-- The answer that a move brings. -/
def answered : Acquisition.Move → List ProbeAnswer
  | .probe a => [a]
  | _ => []

/-- What a step of a task is for the gate. -/
inductive Rule (s : Contention) (c : Contender) : Contender → Contention → Prop
  /-- Nothing of a call changes. -/
  | silent {c' : Contender} {s' : Contention} : s'.releases = s.releases →
      (∀ k, c.Acquires → c.Makes k → c'.Makes k) → Rule s c c' s'
  /-- The gate is told of a release. -/
  | notifies {c' : Contender} {s' : Contention} : s'.releases = s.releases + 1 →
      (∀ k, c.Acquires → c.Makes k → c'.Makes k) → Rule s c c' s'
  /-- The task makes a step of its acquisition. -/
  | acquires {c' : Contender} {s' : Contention} {phase : Acquisition.Phase} {deadline : Nat}
      {move : Acquisition.Move} {next : Acquisition.Next} : s'.releases = s.releases → c.Acquires →
      c.stage = .acquiring phase deadline →
      Acquisition.step (c.cancelled s.now) s.releases phase move = some next →
      c'.calls.map Prod.snd = answered move ++ c.calls.map Prod.snd →
      c'.retries = c.retries + (next.entries move).countP Acquisition.Entry.isReport →
      Contender.Shows c'.retries c'.stage next.place → Rule s c c' s'

section
variable {s s' : Contention} {c c' : Contender}

/-- To ask a probe notes the answer; the job and the count of retries stay, and so do the time, the releases and
the others. -/
theorem ask_frame (s : Contention) (c : Contender) :
    (s.ask c).2.1.job = c.job ∧ (s.ask c).2.1.retries = c.retries ∧
      (s.ask c).2.1.calls.map Prod.snd = (s.ask c).1 :: c.calls.map Prod.snd ∧
      (s.ask c).2.2.now = s.now ∧ (s.ask c).2.2.releases = s.releases ∧ (s.ask c).2.2.tasks = s.tasks :=
  ⟨rfl, rfl, rfl, rfl, rfl, rfl⟩

/-- The move of an acquisition is the answer of its probe, which is noted, or nothing is noted. -/
theorem acquisitionMove_frame (s : Contention) (c : Contender) (phase : Acquisition.Phase) (deadline : Nat) :
    (s.acquisitionMove c phase deadline).2.1.job = c.job ∧
      (s.acquisitionMove c phase deadline).2.1.retries = c.retries ∧
      (s.acquisitionMove c phase deadline).2.1.calls.map Prod.snd =
        answered (s.acquisitionMove c phase deadline).1 ++ c.calls.map Prod.snd ∧
      (s.acquisitionMove c phase deadline).2.2.now = s.now ∧
      (s.acquisitionMove c phase deadline).2.2.releases = s.releases ∧
      (s.acquisitionMove c phase deadline).2.2.tasks = s.tasks := by
  unfold acquisitionMove
  split
  · exact ask_frame s c
  · split
    · exact ⟨rfl, rfl, rfl, rfl, rfl, rfl⟩
    · split
      · exact ⟨rfl, rfl, rfl, rfl, rfl, rfl⟩
      · split <;> exact ⟨rfl, rfl, rfl, rfl, rfl, rfl⟩
  · exact ⟨rfl, rfl, rfl, rfl, rfl, rfl⟩

/-- Whether a task is cancelled depends on its job and the time only. -/
theorem cancelled_congr {now now' : Nat} (hjob : c'.job = c.job) (hnow : now' = now) :
    c'.cancelled now' = c.cancelled now := by
  rw [Contender.cancelled, Contender.cancelled, hjob, hnow]

/-- A task with a job of another kind acquires nothing. -/
theorem not_acquires {job : Job} (hjob : c.job = job)
    (hne : ∀ probe heartbeat hold cancelAt, job ≠ .acquire probe heartbeat hold cancelAt) : ¬ c.Acquires := by
  rintro ⟨probe, heartbeat, hold, cancelAt, hacquire⟩
  exact hne probe heartbeat hold cancelAt (hjob.symm.trans hacquire)

/-- A task that has what it asked for keeps its job, its calls and its count, and shows that the call is
over. -/
theorem acquired_frame (s : Contention) (c : Contender) (hold : Nat) (o : Outcome) :
    (s.acquired c hold o).job = c.job ∧ (s.acquired c hold o).calls = c.calls ∧
      (s.acquired c hold o).retries = c.retries ∧
      Contender.Shows c.retries (s.acquired c hold o).stage (.over o) := by
  cases o with
  | acquired => exact ⟨rfl, rfl, rfl, .holding .acquired⟩
  | failed e => exact ⟨rfl, rfl, rfl, .finished .failed⟩
  | crashed message => exact ⟨rfl, rfl, rfl, .finished .crashed⟩

/-- To move on reports nothing. -/
theorem countP_entries_moved (move : Acquisition.Move) (p : Acquisition.Phase) :
    ((Acquisition.Next.moved p).entries move).countP Acquisition.Entry.isReport = 0 := by
  cases move <;> cases p <;> rfl

/-- To come to an end reports nothing. -/
theorem countP_entries_done (move : Acquisition.Move) (o : Outcome) :
    ((Acquisition.Next.done o).entries move).countP Acquisition.Entry.isReport = 0 := by
  cases move <;> rfl

/-- To try again is reported once. -/
theorem countP_entries_retried {cancelled : Bool} {releases : Nat} {phase p : Acquisition.Phase}
    {move : Acquisition.Move} (h : Acquisition.step cancelled releases phase move = some (.retried p)) :
    ((Acquisition.Next.retried p).entries move).countP Acquisition.Entry.isReport = 1 := by
  have hgo : move = .go := by
    rcases phase with _ | seen | seen | seen <;> rcases move with _ | (_ | _ | f | m) | _ | _ <;>
      simp_all [Acquisition.step]
  rw [hgo]
  rfl

/-- A step changes neither what a task is to do, nor the time, nor the other tasks; and it is by one of the rules. -/
theorem rule_of_advance (h : s.advance c = some (c', s')) :
    c'.job = c.job ∧ s'.now = s.now ∧ s'.tasks = s.tasks ∧ Rule s c c' s' := by
  unfold advance at h
  split at h
  · cases h
  · rename_i start hstage
    split at h
    · cases h
    · split at h
      · rename_i hjob
        cases h
        refine ⟨rfl, rfl, rfl, .notifies rfl fun k hk _ => ?_⟩
        exact absurd hk (not_acquires hjob nofun)
      · rename_i hjob
        cases h
        refine ⟨rfl, rfl, rfl, .silent rfl fun k hk _ => ?_⟩
        exact absurd hk (not_acquires hjob nofun)
      · rename_i hjob
        cases h
        refine ⟨rfl, rfl, rfl, .silent rfl fun k hk _ => ?_⟩
        exact absurd hk (not_acquires hjob nofun)
      · cases h
        refine ⟨rfl, rfl, rfl, .silent rfl fun k _ hmakes => ⟨hmakes.answers, hmakes.reported, ?_⟩⟩
        have hplace := hmakes.place
        rw [hstage] at hplace
        generalize k.place = place at hplace ⊢
        cases hplace
        exact .acquiring
  · rename_i seen limit hstage
    split at h
    · cases h
      refine ⟨rfl, rfl, rfl, .silent rfl fun k _ hmakes => ?_⟩
      have hplace := hmakes.place
      rw [hstage] at hplace
      cases hplace
    · cases h
  · rename_i phase limit hstage
    split at h
    · rename_i probe heartbeat hold cancelAt hjob
      obtain ⟨hjob', hretries, hcalls, hnow, hreleases, htasks⟩ := acquisitionMove_frame s c phase limit
      revert h hjob' hretries hcalls hnow hreleases htasks
      generalize s.acquisitionMove c phase limit = found
      obtain ⟨move, c1, s1⟩ := found
      intro h hjob' hretries hcalls hnow hreleases htasks
      simp only at h hjob' hretries hcalls hnow hreleases htasks
      rw [cancelled_congr hjob' hnow, hreleases] at h
      split at h
      · cases h
      · rename_i hstep
        cases h
        refine ⟨hjob', hnow, htasks, .acquires hreleases ⟨_, _, _, _, hjob⟩ hstage hstep hcalls ?_ .acquiring⟩
        rw [hretries, countP_entries_moved, Nat.add_zero]
      · rename_i hstep
        cases h
        refine ⟨hjob', hnow, htasks, .acquires hreleases ⟨_, _, _, _, hjob⟩ hstage hstep hcalls ?_ .acquiring⟩
        rw [hretries, countP_entries_retried hstep]
      · rename_i o hstep
        cases h
        obtain ⟨hjob1, hcalls1, hretries1, hshows⟩ := acquired_frame s' c1 hold o
        refine ⟨hjob1.trans hjob', hnow, htasks, .acquires hreleases ⟨_, _, _, _, hjob⟩ hstage hstep ?_ ?_ ?_⟩
        · rw [hcalls1, hcalls]
        · rw [hretries1, hretries, countP_entries_done, Nat.add_zero]
        · rw [hretries1]
          exact hshows
    · cases h
  · rename_i limit result hstage
    split at h
    · cases h
    · cases h
      refine ⟨rfl, rfl, rfl, .notifies rfl fun k _ hmakes => ⟨hmakes.answers, hmakes.reported, ?_⟩⟩
      have hplace := hmakes.place
      rw [hstage] at hplace
      generalize k.place = place at hplace ⊢
      cases hplace with
      | holding hresult => exact .finished hresult

/-! ### Steps of a task -/

/-- The entries of a step have the answers that its move brings. -/
theorem filterMap_entries (move : Acquisition.Move) (next : Acquisition.Next) :
    (next.entries move).filterMap Acquisition.Entry.answer? = answered move := by
  rcases next with p | p | o
  · cases move <;> cases p <;> rfl
  · cases move <;> rfl
  · cases move <;> rfl

/-- A move brings one answer at most. -/
theorem reverse_answered (move : Acquisition.Move) : (answered move).reverse = answered move := by
  cases move <;> rfl

/-- A gate goes on showing a contention when one task and its call have changed together. -/
theorem Mirrors.set {g g' : Gate} {i : Nat} {k k' : Call} (h : Mirrors s g) (hi : s.tasks[i]? = some c)
    (hk : g.calls[i]? = some k) (hjob : c'.job = c.job) (hnow : s'.now = s.now) (htasks : s'.tasks = s.tasks)
    (hreleases : g'.releases = s'.releases) (hcalls : g'.calls = g.calls.set i k')
    (htoken : k'.cancelled = k.cancelled) (hmakes : c.Acquires → c'.Makes k') :
    Mirrors { s' with tasks := s'.tasks.set i c' } g' := by
  have hit := (List.getElem?_eq_some_iff.mp hi).1
  have hik := (List.getElem?_eq_some_iff.mp hk).1
  constructor
  case releases => exact hreleases
  case length => simp only [hcalls, htasks, List.length_set, h.length]
  case token =>
    intro j task d hj hd
    simp only [htasks] at hj
    rw [hcalls] at hd
    by_cases hij : i = j
    · subst hij
      rw [List.getElem?_set_self hit] at hj
      rw [List.getElem?_set_self hik] at hd
      cases hj
      cases hd
      rw [htoken, h.token i c k hi hk]
      exact (cancelled_congr hjob hnow).symm
    · rw [List.getElem?_set_ne hij] at hj hd
      rw [h.token j task d hj hd]
      exact (cancelled_congr rfl hnow).symm
  case makes =>
    intro j task d hj hd hacquires
    simp only [htasks] at hj
    rw [hcalls] at hd
    by_cases hij : i = j
    · subst hij
      rw [List.getElem?_set_self hit] at hj
      rw [List.getElem?_set_self hik] at hd
      cases hj
      cases hd
      apply hmakes
      rwa [Contender.Acquires, hjob] at hacquires
    · rw [List.getElem?_set_ne hij] at hj hd
      exact h.makes j task d hj hd hacquires

/-- A step of a task is a move of the gate, or none. -/
theorem Mirrors.advance {g : Gate} {i : Nat} (h : Mirrors s g) (hi : s.tasks[i]? = some c)
    (hstep : s.advance c = some (c', s')) :
    ∃ moves g', g.run moves = some g' ∧ Mirrors { s' with tasks := s'.tasks.set i c' } g' := by
  obtain ⟨hjob, hnow, htasks, hrule⟩ := rule_of_advance hstep
  have hik : i < g.calls.length := h.length ▸ (List.getElem?_eq_some_iff.mp hi).1
  obtain ⟨k, hk⟩ : ∃ k, g.calls[i]? = some k := ⟨_, List.getElem?_eq_getElem hik⟩
  have hsame : g.calls = g.calls.set i k := by
    apply List.ext_getElem?
    intro j
    rw [List.getElem?_set]
    split
    · rename_i hij
      rw [← hij, hk]
    · rfl
  cases hrule with
  | silent hreleases hmakes =>
    refine ⟨[], g, rfl, h.set hi hk hjob hnow htasks ?_ hsame rfl fun ha => ?_⟩
    · rw [h.releases, hreleases]
    · exact hmakes k ha (h.makes i c k hi hk ha)
  | notifies hreleases hmakes =>
    refine ⟨[.notify], { g with releases := g.releases + 1 }, rfl,
      h.set hi hk hjob hnow htasks ?_ hsame rfl fun ha => ?_⟩
    · rw [hreleases, ← h.releases]
    · exact hmakes k ha (h.makes i c k hi hk ha)
  | @acquires phase deadline move next hreleases ha hstage hmove hcalls hretries hshows =>
    have hmakes := h.makes i c k hi hk ha
    have hplace : k.place = .underway phase := hmakes.place_of_acquiring hstage
    let k' : Call := { k with place := next.place, log := k.log ++ next.entries move }
    have hcall : k.step g.releases move = some k' := by
      rw [← h.token i c k hi hk, ← h.releases] at hmove
      simp only [Call.step, hplace, hmove, Option.map_some, k']
    refine ⟨[.call i move], { g with calls := g.calls.set i k' }, ?_,
      h.set hi hk hjob hnow htasks ?_ rfl rfl fun _ => ⟨?_, ?_, hshows⟩⟩
    · simp only [Gate.run, List.foldlM_cons, List.foldlM_nil, Gate.step, hk, hcall, Option.bind_eq_bind,
        Option.bind_some, Option.pure_def]
    · rw [h.releases, hreleases]
    · rw [Call.answers, List.filterMap_append, filterMap_entries, hcalls, List.reverse_append, reverse_answered,
        ← hmakes.answers]
      rfl
    · rw [Call.reported, List.countP_append, hretries, ← hmakes.reported]
      rfl

end

/-! ### Runs -/

/-- Whatever gate shows a contention can come to show another. -/
def Leads (s s' : Contention) : Prop :=
  ∀ g, Mirrors s g → ∃ moves g', g.run moves = some g' ∧ Mirrors s' g'

section
variable {s s' s'' : Contention}

/-- From where one is one is led by no moves. -/
theorem Leads.refl (s : Contention) : Leads s s := fun g h => ⟨[], g, rfl, h⟩

/-- One is led on from where one has been led. -/
theorem Leads.trans (h : Leads s s') (h' : Leads s' s'') : Leads s s'' := by
  intro g hg
  obtain ⟨moves, mid, hrun, hmid⟩ := h g hg
  obtain ⟨moves', last, hrun', hlast⟩ := h' mid hmid
  refine ⟨moves ++ moves', last, ?_, hlast⟩
  rw [Gate.run_append, hrun]
  exact hrun'

/-- The turn of a task is a run of the gate. -/
theorem leads_turn (i fuel : Nat) (s : Contention) : Leads s (turn i fuel s).1 := by
  induction fuel generalizing s with
  | zero => exact .refl s
  | succ fuel ih =>
    unfold turn
    split
    · exact .refl s
    · rename_i c hc
      split
      · exact .refl s
      · rename_i c' s' hstep
        exact Leads.trans (fun g hg => hg.advance hc hstep) (ih _)

/-- One turn of every task is a run of the gate. -/
theorem leads_sweep (fuel : Nat) (s : Contention) : Leads s (sweep fuel s).1 := by
  unfold sweep
  generalize List.range s.tasks.length = indexes
  generalize false = moved
  induction indexes generalizing s moved with
  | nil => exact .refl s
  | cons i rest ih => exact (leads_turn i fuel s).trans (ih _ _)

/-- Once a task is cancelled it stays so. -/
theorem cancelled_mono {task : Contender} {now time : Nat} (h : now ≤ time) (hnow : task.cancelled now = true) :
    task.cancelled time = true := by
  unfold Contender.cancelled at hnow ⊢
  split at hnow
  · exact decide_eq_true (Nat.le_trans (of_decide_eq_true hnow) h)
  · cases hnow

/-- When time passes, the tokens of those tasks are cancelled whose time has come. -/
theorem leads_later {time : Nat} (h : s.now ≤ time) : Leads s { s with now := time } := by
  intro g hg
  let who := (List.range s.tasks.length).filter fun i => s.tasks[i]?.any (·.cancelled time)
  have hback : ∀ {i : Nat} {task : Contender} {d : Call}, s.tasks[i]? = some task →
      (g.calls.mapIdx fun i c => ({ c with cancelled := c.cancelled || decide (i ∈ who) } : Call))[i]? = some d →
      ∃ c, g.calls[i]? = some c ∧ d = { c with cancelled := task.cancelled time } := by
    intro i task d hi hd
    rw [List.getElem?_mapIdx] at hd
    obtain ⟨c, hc, rfl⟩ := Option.map_eq_some_iff.mp hd
    refine ⟨c, hc, ?_⟩
    have hmem : i ∈ who ↔ task.cancelled time = true := by
      simp only [who, List.mem_filter, List.mem_range, hi, Option.any_some, and_iff_right_iff_imp]
      intro _
      exact (List.getElem?_eq_some_iff.mp hi).1
    rw [hg.token i task c hi hc]
    cases hlater : task.cancelled time with
    | true => simp [hmem, hlater]
    | false =>
      have hnow : task.cancelled s.now = false :=
        Bool.eq_false_iff.mpr fun hnow => by rw [cancelled_mono h hnow] at hlater; cases hlater
      simp [hmem, hlater, hnow]
  refine ⟨[.cancel who], _, rfl, hg.releases, ?_, ?_, ?_⟩
  · exact List.length_mapIdx.trans hg.length
  · intro i task d hi hd
    obtain ⟨c, -, rfl⟩ := hback hi hd
    rfl
  · intro i task d hi hd ha
    obtain ⟨c, hc, rfl⟩ := hback hi hd
    have hmakes := hg.makes i task c hi hc ha
    exact ⟨hmakes.answers, hmakes.reported, hmakes.place⟩

/-- Time goes forward. -/
theorem lt_of_nextTime? {time : Nat} (h : s.nextTime? = some time) : s.now < time := by
  have hmem := List.min?_mem h
  simpa using (List.mem_filter.mp hmem).2

/-- All that a contention does is one run of its gate. -/
theorem leads_run (fuel : Nat) (s : Contention) : Leads s (run fuel s) := by
  induction fuel generalizing s with
  | zero => exact .refl s
  | succ fuel ih =>
    have hsweep := leads_sweep (fuel + 1) s
    unfold run
    split
    · rename_i s' heq
      rw [heq] at hsweep
      exact hsweep.trans (ih s')
    · rename_i s' heq
      rw [heq] at hsweep
      split
      · exact hsweep
      · rename_i time htime
        exact hsweep.trans ((leads_later (Nat.le_of_lt (lt_of_nextTime? htime))).trans (ih _))

end

/-- The tasks of a contention before it begins. -/
def starting (pools : Pools) (jobs : List (Nat × Job)) : Contention :=
  { pools, tasks := jobs.map fun job => Contender.make job.1 job.2 }

/-- The gate of a contention before it begins. -/
def gate (jobs : List (Nat × Job)) : Gate :=
  .opened 0 (jobs.map fun job => (Contender.make job.1 job.2).cancelled 0)

/-- When all tasks are to start, the gate has their calls before it. -/
theorem mirrors_starting (pools : Pools) (jobs : List (Nat × Job)) : Mirrors (starting pools jobs) (gate jobs) := by
  have hback : ∀ {i : Nat} {task : Contender} {c : Call}, (starting pools jobs).tasks[i]? = some task →
      (gate jobs).calls[i]? = some c →
      ∃ start job, task = Contender.make start job ∧ c = { cancelled := task.cancelled 0 } := by
    intro i task c hi hc
    simp only [starting, gate, Gate.opened, List.map_map, List.getElem?_map] at hi hc
    obtain ⟨⟨start, job⟩, hjob, rfl⟩ := Option.map_eq_some_iff.mp hi
    rw [hjob] at hc
    cases hc
    exact ⟨start, job, rfl, rfl⟩
  refine ⟨rfl, by simp [starting, gate, Gate.opened], ?_, ?_⟩
  · intro i task c hi hc
    obtain ⟨start, job, rfl, rfl⟩ := hback hi hc
    rfl
  · intro i task c hi hc _
    obtain ⟨start, job, rfl, rfl⟩ := hback hi hc
    exact ⟨rfl, rfl, .sleeping⟩

end Contention

/-- An acquisition never discards a probe that was ready. Any number of calls go on at a gate in any interleaving with
each other, with notifications and with cancellations; probes answer anything, and heartbeats elapse at any time. Every
call does by the answers of its probes (`Call.Accountable`), also when its token is cancelled just then, and a call
that finds its token cancelled when it begins makes no probe. A task of a contention that acquires makes such a call,
whatever the clock, the pools and the other tasks do. -/
theorem success_never_discarded :
    (∀ (releases : Nat) (tokens : List Bool) (moves : List Gate.Move) (g : Gate),
      (Gate.opened releases tokens).run moves = some g → ∀ (i : Nat) (c : Call), g.calls[i]? = some c →
      c.Accountable ∧
      ∀ before after mid, moves = before ++ after → (Gate.opened releases tokens).run before = some mid →
        mid.calls[i]? = some { cancelled := true } → c.answers = []) ∧
    (∀ (pools : Pools) (jobs : List (Nat × Job)) (fuel i : Nat) (task : Contender),
      ((Contention.starting pools jobs).run fuel).tasks[i]? = some task → task.Acquires →
      ∃ moves g c, (Contention.gate jobs).run moves = some g ∧ g.calls[i]? = some c ∧ task.Makes c ∧
        c.Accountable) := by
  constructor
  · intro releases tokens moves g hrun i c hc
    refine ⟨(Gate.tidy_run hrun hc).accountable, ?_⟩
    rintro before after mid rfl hmid hcall
    rw [Gate.run_append, hmid] at hrun
    obtain ⟨d, hd, hturns⟩ := Gate.turns_of_run hrun hcall
    cases hc.symm.trans hd
    rw [Call.answers, hturns.idle rfl rfl (.inl rfl)]
    rfl
  · intro pools jobs fuel i task hi ha
    obtain ⟨moves, g, hrun, hmirrors⟩ := Contention.leads_run fuel _ _ (Contention.mirrors_starting pools jobs)
    have hlength : i < g.calls.length := hmirrors.length ▸ (List.getElem?_eq_some_iff.mp hi).1
    have hc := List.getElem?_eq_getElem hlength
    exact ⟨moves, g, _, hrun, hc, hmirrors.makes i task _ hi hc ha, (Gate.tidy_run hrun hc).accountable⟩

/-- The first call is refused and woken by a notification; its token is cancelled before its second probe is ready, and
it ends well. The token of the second one was cancelled before. -/
theorem success_never_discarded_cancelled_late :
    let moves : List Gate.Move :=
      [.call 0 .go, .call 0 (.probe .retry), .notify, .call 0 .go, .call 0 .go, .call 0 .go, .call 1 .go,
       .cancel [0], .call 0 (.probe .ready)]
    ∃ g c d, (Gate.opened 0 [false, true]).run moves = some g ∧ g.calls[0]? = some c ∧ g.calls[1]? = some d ∧
      c.answers = [.retry, .ready] ∧ c.cancelled = true ∧ c.place = .over .acquired ∧ d.answers = [] := by
  intro moves
  refine ⟨_, _, _, rfl, rfl, rfl, rfl, rfl, ?_, ?_⟩
  · exact (success_never_discarded.1 0 [false, true] moves _ rfl 0 _ rfl).1.succeeds.mpr rfl
  · exact (success_never_discarded.1 0 [false, true] moves _ rfl 1 _ rfl).2 [] moves _ rfl rfl rfl

end Intake.Script
