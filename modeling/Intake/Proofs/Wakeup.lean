import Intake.Proofs.Contest
import Intake.Proofs.Progress
/-!
# No wakeup is lost

A call registers before it probes: it notes how many releases the gate has been told of, and a wait is over as soon as
there are more. What this comes to is said on the moves alone. `Notified` says that the gate was told of a release at a
time when the call had registered in a given round, whether it had probed by then, had been refused, or waited.
`lt_iff_notified` is the invariant that links the two, over every interleaving.

A wait that is not over by a notification is `Blocked`: it goes on until the heartbeat. A call that was notified is not
blocked, and it stays so until its next probe: `Turns.onward` says that what others do does not keep it from going on,
and that each step of its own brings it nearer to the probe. The main statement is `no_lost_wakeup`.
-/

namespace Intake

open Acquisition (Phase)

/-- A refusal or a wait in this phase does not keep the acquisition waiting: something was released. -/
def Acquisition.Phase.Awake (releases : Nat) : Phase → Prop
  | .refused seen => seen < releases
  | .waiting seen => seen < releases
  | _ => True

/-- Who is awake is so after further releases. -/
theorem Acquisition.Phase.Awake.mono {releases releases' : Nat} {p : Phase} (h : p.Awake releases)
    (hle : releases ≤ releases') : p.Awake releases' := by
  cases p with
  | fresh | armed => trivial
  | refused | waiting => exact Nat.lt_of_lt_of_le h hle

namespace Call

/-- The call has registered in its round, with the count of releases that it noted. -/
def Noted (c : Call) (seen : Nat) : Prop :=
  c.place = .underway (.armed seen) ∨ c.place = .underway (.refused seen) ∨ c.place = .underway (.waiting seen)

/-- The call has registered in its round: it is about to probe, was refused, or waits. -/
def Registered (c : Call) : Prop := ∃ seen, c.Noted seen

/-- The call waits and cannot go on by itself: only the heartbeat or a cancellation can end its wait now. -/
def Blocked (releases : Nat) (c : Call) : Prop :=
  (∃ seen, c.place = .underway (.waiting seen)) ∧ c.step releases .go = none

/-- The call can go on by itself, or hear the answer of its probe, without the heartbeat. -/
def Goes (releases : Nat) (c : Call) : Prop :=
  (c.step releases .go).isSome ∨ ∀ a, (c.step releases (.probe a)).isSome

section
variable {releases seen : Nat} {c c' : Call} {m : Acquisition.Move}

/-- A call that waits cannot go on by itself until something was released. -/
theorem step_go_of_waiting (h : c.place = .underway (.waiting seen)) :
    c.step releases .go = none ↔ ¬ seen < releases := by
  by_cases hlt : seen < releases
  · simp [step, h, Acquisition.step, hlt]
  · simp [step, h, Acquisition.step, hlt]

/-- The round of a call goes up with the registrations that it has logged. -/
theorem round_append {place : Acquisition.Place} (entries : List Acquisition.Entry) :
    ({ c with place, log := c.log ++ entries } : Call).round =
      c.round + entries.countP Acquisition.Entry.isRegistration :=
  List.countP_append

/-- What a call has noted after a step it notes now, in a new round, or it has noted before, in the same one. -/
theorem Rule.noted (h : Rule releases c m c') (hnoted : c'.Noted seen) :
    seen = releases ∧ c'.round = c.round + 1 ∨ c.Noted seen ∧ c'.round = c.round := by
  cases h with
  | registers =>
    rcases hnoted with heq | heq | heq
    · cases heq
      exact .inl ⟨rfl, round_append _⟩
    · cases heq
    · cases heq
  | refused hp =>
    rcases hnoted with heq | heq | heq
    · cases heq
    · cases heq
      exact .inr ⟨.inl hp, round_append _⟩
    · cases heq
  | reports hp =>
    rcases hnoted with heq | heq | heq
    · cases heq
    · cases heq
    · cases heq
      exact .inr ⟨.inr (.inl hp), round_append _⟩
  | answered | wakes | elapses | quits =>
    rcases hnoted with heq | heq | heq
    · cases heq
    · cases heq
    · cases heq

/-- The answers of a call go up with those that it has logged. -/
theorem answers_append {place : Acquisition.Place} (entries : List Acquisition.Entry) :
    ({ c with place, log := c.log ++ entries } : Call).answers =
      c.answers ++ entries.filterMap Acquisition.Entry.answer? :=
  List.filterMap_append

/-- A step that brings no answer brings a call nearer to its next probe, and does not put it to sleep. -/
theorem Rule.onward {p : Phase} (h : Rule releases c m c') (hp : c.place = .underway p) (hawake : p.Awake releases)
    (htoken : c.cancelled = false) (hanswers : c'.answers = c.answers) :
    ∃ p', c'.place = .underway p' ∧ p'.Awake releases ∧ p'.ahead + 1 = p.ahead := by
  cases h with
  | registers hplace =>
    cases hp.symm.trans hplace
    exact ⟨_, rfl, trivial, rfl⟩
  | answered =>
    rw [answers_append] at hanswers
    simp [Acquisition.Entry.answer?] at hanswers
  | refused =>
    rw [answers_append] at hanswers
    simp [Acquisition.Entry.answer?] at hanswers
  | reports hplace =>
    cases hp.symm.trans hplace
    exact ⟨_, rfl, hawake, rfl⟩
  | wakes hplace | elapses hplace =>
    cases hp.symm.trans hplace
    exact ⟨_, rfl, trivial, rfl⟩
  | quits _ _ hcancelled => cases htoken.symm.trans hcancelled

/-- A step of a call does not change whether it is cancelled. -/
theorem Rule.cancelled_eq (h : Rule releases c m c') : c'.cancelled = c.cancelled := by
  cases h <;> rfl

/-- A call that is not asleep can go on without the heartbeat. -/
theorem goes_of_awake {p : Phase} (hp : c.place = .underway p) (hawake : p.Awake releases)
    (htoken : c.cancelled = false) : c.Goes releases := by
  cases p with
  | fresh => exact .inl (by simp [step, hp, Acquisition.step, htoken])
  | armed seen =>
    refine .inr fun a => ?_
    cases a <;> simp [step, hp, Acquisition.step]
  | refused seen => exact .inl (by simp [step, hp, Acquisition.step])
  | waiting seen =>
    have hlt : seen < releases := hawake
    exact .inl (by simp [step, hp, Acquisition.step, hlt])

/-- A log only grows. -/
theorem Rule.log_prefix (h : Rule releases c m c') : c.log <+: c'.log := by
  cases h with
  | registers | answered | refused | reports => exact List.prefix_append _ _
  | wakes | elapses | quits => exact List.prefix_rfl

end

end Call

namespace Gate

/-- The move is one of the call of an index. -/
def Move.isOf (i : Nat) : Move → Bool
  | .call j _ => j == i
  | _ => false

/-- The gate was told of a release at a time when the call of an index had registered in a round. -/
def Notified (g : Gate) (moves : List Move) (i round : Nat) : Prop :=
  ∃ before after mid c, moves = before ++ .notify :: after ∧ g.run before = some mid ∧
    mid.calls[i]? = some c ∧ c.Registered ∧ c.round = round

section
variable {i releases releases' seen : Nat} {c c' : Call} {move : Move} {moves : List Move} {g g' : Gate}

/-- What a call has noted after a turn it notes now, in a new round, or it has noted before, in the same one. -/
theorem Turn.noted (h : Turn i releases c move releases' c') (hnoted : c'.Noted seen) :
    seen = releases ∧ releases' = releases ∧ c'.round = c.round + 1 ∧ move ≠ .notify ∨
      c.Noted seen ∧ c'.round = c.round := by
  cases h with
  | own hrule =>
    rcases hrule.noted hnoted with ⟨hseen, hround⟩ | hbefore
    · exact .inl ⟨hseen, rfl, hround, nofun⟩
    · exact .inr hbefore
  | other | notify | cancel => exact .inr ⟨hnoted, rfl⟩

/-- Only a notice is a release. -/
theorem Turn.releases_eq (h : Turn i releases c move releases' c') :
    move = .notify ∧ releases' = releases + 1 ∨ move ≠ .notify ∧ releases' = releases := by
  cases h with
  | notify => exact .inl ⟨rfl, rfl⟩
  | own | other | cancel => exact .inr ⟨nofun, rfl⟩

/-- A turn only adds to the log of a call. -/
theorem Turn.log_prefix (h : Turn i releases c move releases' c') : c.log <+: c'.log := by
  cases h with
  | own hrule => exact hrule.log_prefix
  | other | notify | cancel => exact List.prefix_rfl

/-- Turns only add to the log of a call. -/
theorem Turns.log_prefix (h : Turns i releases c moves releases' c') : c.log <+: c'.log := by
  induction h with
  | nil => exact List.prefix_rfl
  | cons hturn _ ih => exact hturn.log_prefix.trans ih

/-- A call is notified in a round by a notice that finds it registered in this round. -/
theorem notified_snoc_iff {round : Nat} (hrun : g.run moves = some g') :
    Notified g (moves ++ [move]) i round ↔
      Notified g moves i round ∨
      move = .notify ∧ ∃ c, g'.calls[i]? = some c ∧ c.Registered ∧ c.round = round := by
  constructor
  · rintro ⟨before, after, mid, c, heq, hmid, hc, hregistered, hround⟩
    rcases List.eq_nil_or_concat after with rfl | ⟨after, last, rfl⟩
    · obtain ⟨rfl, hmove⟩ := List.append_inj' heq rfl
      cases hmove
      cases hrun.symm.trans hmid
      exact .inr ⟨rfl, c, hc, hregistered, hround⟩
    · rw [List.concat_eq_append, ← List.cons_append, ← List.append_assoc] at heq
      obtain ⟨rfl, -⟩ := List.append_inj' heq rfl
      exact .inl ⟨before, after, mid, c, rfl, hmid, hc, hregistered, hround⟩
  · rintro (⟨before, after, mid, c, rfl, hrest⟩ | ⟨rfl, c, hc, hregistered, hround⟩)
    · exact ⟨before, after ++ [move], mid, c, by simp, hrest⟩
    · exact ⟨moves, [], g', c, rfl, hrun, hc, hregistered, hround⟩

/-- No call was notified in a round that it has not come to. -/
theorem Notified.round_le {round : Nat} (h : Notified g moves i round) (hrun : g.run moves = some g')
    (hc' : g'.calls[i]? = some c') : round ≤ c'.round := by
  obtain ⟨before, after, mid, c, rfl, hmid, hc, -, rfl⟩ := h
  rw [run_append, hmid] at hrun
  obtain ⟨d, hd, hturns⟩ := turns_of_run hrun hc
  cases hc'.symm.trans hd
  exact hturns.log_prefix.sublist.countP_le

/-- The count that a call has noted is exceeded if and only if the gate was told of a release since the call registered
in its round. -/
theorem lt_iff_notified {tokens : List Bool} (hrun : (opened releases tokens).run moves = some g)
    (hc : g.calls[i]? = some c) (hnoted : c.Noted seen) :
    seen ≤ g.releases ∧ (seen < g.releases ↔ Notified (opened releases tokens) moves i c.round) := by
  induction moves using List.reverseRecOn generalizing g c with
  | nil =>
    cases hrun
    obtain ⟨b, -, rfl⟩ := exists_opened hc
    rcases hnoted with heq | heq | heq
    · cases heq
    · cases heq
    · cases heq
  | append_singleton moves move ih =>
    rw [run_append] at hrun
    obtain ⟨mid, hmid, hlast⟩ := Option.bind_eq_some_iff.mp hrun
    obtain ⟨d, hd, hturns⟩ := exists_turns_of_run hlast hc
    have hturn : Turn i mid.releases d move g.releases c := by
      cases hturns with
      | cons hturn hnil =>
        cases hnil
        exact hturn
    rw [notified_snoc_iff hmid]
    rcases hturn.noted hnoted with ⟨rfl, hreleases, hround, hmove⟩ | ⟨hbefore, hround⟩
    · -- the call registers now, in a round in which nothing has been heard of yet
      have hnew : ¬ Notified (opened releases tokens) moves i c.round := by
        intro hnotified
        have hle := hnotified.round_le hmid hd
        omega
      refine ⟨hreleases.ge, ?_⟩
      simp only [hreleases, Nat.lt_irrefl, hnew, hmove, false_and, or_false]
    · obtain ⟨hle, hiff⟩ := ih hmid hd hbefore
      rcases hturn.releases_eq with ⟨hmove, hreleases⟩ | ⟨hmove, hreleases⟩
      · have hheard : ∃ x, mid.calls[i]? = some x ∧ x.Registered ∧ x.round = c.round :=
          ⟨d, hd, ⟨seen, hbefore⟩, hround.symm⟩
        refine ⟨by omega, ?_⟩
        simp only [hmove, hheard, and_self, or_true, iff_true]
        omega
      · refine ⟨by omega, ?_⟩
        simp only [hreleases, hiff, hround, hmove, false_and, or_false]

/-- A call that is not cancelled was not so before a turn. -/
theorem Turn.cancelled_of_after (h : Turn i releases c move releases' c') (htoken : c'.cancelled = false) :
    c.cancelled = false := by
  cases h with
  | own hrule => exact hrule.cancelled_eq.symm.trans htoken
  | other | notify => exact htoken
  | cancel => exact (Bool.or_eq_false_iff.mp htoken).1

/-- A call that is not cancelled was not so before some turns. -/
theorem Turns.cancelled_of_after (h : Turns i releases c moves releases' c') (htoken : c'.cancelled = false) :
    c.cancelled = false := by
  induction h with
  | nil => exact htoken
  | cons hturn _ ih => exact hturn.cancelled_of_after (ih htoken)

/-- A call that is awake and is given no answer goes on in its own turns, and is as far as before in those of
others. -/
theorem Turn.onward {p : Phase} (h : Turn i releases c move releases' c') (hp : c.place = .underway p)
    (hawake : p.Awake releases) (htoken : c.cancelled = false) (hanswers : c'.answers = c.answers) :
    ∃ p', c'.place = .underway p' ∧ p'.Awake releases' ∧
      (if move.isOf i then 1 else 0) + p'.ahead = p.ahead := by
  cases h with
  | own hrule =>
    obtain ⟨p', hp', hawake', hahead⟩ := hrule.onward hp hawake htoken hanswers
    refine ⟨p', hp', hawake', ?_⟩
    simp only [Move.isOf, beq_self_eq_true, if_true]
    omega
  | other hne => exact ⟨p, hp, hawake, by simp [Move.isOf, hne]⟩
  | notify => exact ⟨p, hp, hawake.mono (Nat.le_succ _), by simp [Move.isOf]⟩
  | cancel => exact ⟨p, hp, hawake, by simp [Move.isOf]⟩

/-- What others do does not put a call to sleep again, and until its next probe is answered each move of its own brings
it nearer to that. -/
theorem Turns.onward {p : Phase} (h : Turns i releases c moves releases' c') (hp : c.place = .underway p)
    (hawake : p.Awake releases) (htoken : c'.cancelled = false) (hanswers : c'.answers = c.answers) :
    ∃ p', c'.place = .underway p' ∧ p'.Awake releases' ∧ moves.countP (Move.isOf i) + p'.ahead = p.ahead := by
  induction h generalizing p with
  | nil => exact ⟨p, hp, hawake, by simp⟩
  | @cons _ _ _ c d c' _ _ hturn hturns ih =>
    have hfirst : c.answers <+: d.answers := hturn.log_prefix.filterMap _
    have hlater : d.answers <+: c'.answers := hturns.log_prefix.filterMap _
    have hsame : d.answers = c.answers := by
      rw [hanswers] at hlater
      exact hlater.eq_of_length_le hfirst.length_le
    obtain ⟨p1, hp1, hawake1, hahead1⟩ :=
      hturn.onward hp hawake (hturn.cancelled_of_after (hturns.cancelled_of_after htoken)) hsame
    obtain ⟨p', hp', hawake', hahead⟩ := ih hp1 hawake1 htoken (hanswers.trans hsame.symm)
    refine ⟨p', hp', hawake', ?_⟩
    rw [List.countP_cons]
    omega

end

end Gate

namespace Script.Contention

/-- A run comes to a state in which no task has made a step, and the clock moves on or the run is over. -/
inductive Pauses : Nat → Contention → Contention → Prop
  | here {fuel : Nat} {s s' : Contention} : sweep (fuel + 1) s = (s', false) → Pauses (fuel + 1) s s'
  | swept {fuel : Nat} {s s' t : Contention} : sweep (fuel + 1) s = (s', true) → Pauses fuel s' t →
      Pauses (fuel + 1) s t
  | later {fuel time : Nat} {s s' t : Contention} : sweep (fuel + 1) s = (s', false) → s'.nextTime? = some time →
      Pauses fuel { s' with now := time } t → Pauses (fuel + 1) s t

section
variable {fuel : Nat} {s s' t : Contention}

/-- A turn in which nothing was done changes nothing, and its task cannot go on. -/
theorem advance_eq_none_of_turn {i : Nat} (h : (turn i (fuel + 1) s).2 = false) :
    (turn i (fuel + 1) s).1 = s ∧ ∀ task, s.tasks[i]? = some task → s.advance task = none := by
  unfold turn at h ⊢
  split at h
  · rename_i hnone
    exact ⟨rfl, fun task htask => nomatch hnone.symm.trans htask⟩
  · rename_i c hc
    split at h
    · rename_i hstuck
      refine ⟨rfl, fun task htask => ?_⟩
      cases hc.symm.trans htask
      exact hstuck
    · cases h

/-- Turns after which it is said that no step was made have changed nothing, and none of their tasks can go on. -/
theorem advance_eq_none_of_turns (indexes : List Nat) (p : Contention × Bool)
    (h : (indexes.foldl (fun p i => ((turn i (fuel + 1) p.1).1, p.2 || (turn i (fuel + 1) p.1).2)) p).2 = false) :
    p.2 = false ∧
      (indexes.foldl (fun p i => ((turn i (fuel + 1) p.1).1, p.2 || (turn i (fuel + 1) p.1).2)) p).1 = p.1 ∧
      ∀ i ∈ indexes, ∀ task, p.1.tasks[i]? = some task → p.1.advance task = none := by
  induction indexes generalizing p with
  | nil => exact ⟨h, rfl, nofun⟩
  | cons i rest ih =>
    rw [List.foldl_cons] at h ⊢
    obtain ⟨hmoved, hlast, hrest⟩ := ih _ h
    obtain ⟨hbefore, hturn⟩ := Bool.or_eq_false_iff.mp hmoved
    obtain ⟨hsame, hstuck⟩ := advance_eq_none_of_turn hturn
    simp only [hsame] at hrest
    exact ⟨hbefore, hlast.trans hsame, List.forall_mem_cons.mpr ⟨hstuck, hrest⟩⟩

/-- If no task has made a step in a sweep, none of them can. -/
theorem advance_eq_none_of_sweep (h : sweep (fuel + 1) s = (s', false)) (i : Nat) (task : Contender)
    (hi : s'.tasks[i]? = some task) : s'.advance task = none := by
  have hfold := advance_eq_none_of_turns (List.range s.tasks.length) (s, false) (congrArg Prod.snd h)
  obtain ⟨-, hsame, hstuck⟩ := hfold
  have hs' : s' = s := (congrArg Prod.fst h).symm.trans hsame
  subst hs'
  exact hstuck i (List.mem_range.mpr (List.getElem?_eq_some_iff.mp hi).1) task hi

/-- In a pause no task can go on. -/
theorem Pauses.advance_eq_none (h : Pauses fuel s t) (i : Nat) (task : Contender) (hi : t.tasks[i]? = some task) :
    t.advance task = none := by
  induction h with
  | here hsweep => exact advance_eq_none_of_sweep hsweep i task hi
  | swept _ _ ih | later _ _ _ ih => exact ih hi

/-- What comes before a pause is a run of the gate. -/
theorem Pauses.leads (h : Pauses fuel s t) : Leads s t := by
  induction h with
  | @here fuel s s' hsweep =>
    have hleads := leads_sweep (fuel + 1) s
    rwa [hsweep] at hleads
  | @swept fuel s s' t hsweep _ ih =>
    have hleads := leads_sweep (fuel + 1) s
    rw [hsweep] at hleads
    exact hleads.trans ih
  | @later fuel time s s' t hsweep htime _ ih =>
    have hleads := leads_sweep (fuel + 1) s
    rw [hsweep] at hleads
    exact hleads.trans ((leads_later (Nat.le_of_lt (lt_of_nextTime? htime))).trans ih)

/-- A task that waits can go on once something was released. -/
theorem releases_le_of_advance {task : Contender} {seen deadline : Nat} (ha : task.Acquires)
    (hstage : task.stage = .acquiring (.waiting seen) deadline) (hstuck : s.advance task = none) :
    s.releases ≤ seen := by
  obtain ⟨probe, heartbeat, hold, cancelAt, hjob⟩ := ha
  by_contra hlt
  have hawake : seen < s.releases := Nat.lt_of_not_le hlt
  cases hcancelled : task.cancelled s.now with
  | true => simp [advance, hstage, hjob, acquisitionMove, hcancelled, Acquisition.step] at hstuck
  | false => simp [advance, hstage, hjob, acquisitionMove, hcancelled, Acquisition.step, hawake] at hstuck

/-- A task that cannot go on, and whose call waits, has heard of no release. -/
theorem Mirrors.blocked {g : Gate} {i : Nat} {task : Contender} {c : Call} (h : Mirrors s g)
    (hi : s.tasks[i]? = some task) (hc : g.calls[i]? = some c) (ha : task.Acquires)
    (hstuck : s.advance task = none) (hwaits : ∃ seen, c.place = .underway (.waiting seen)) :
    c.Blocked g.releases := by
  refine ⟨hwaits, ?_⟩
  obtain ⟨seen, hplace⟩ := hwaits
  have hshows := (h.makes i task c hi hc ha).place
  rw [hplace] at hshows
  obtain ⟨deadline, hstage⟩ : ∃ deadline, task.stage = .acquiring (.waiting seen) deadline := by
    generalize task.stage = stage at hshows
    cases hshows
    exact ⟨_, rfl⟩
  rw [Call.step_go_of_waiting hplace, h.releases]
  exact Nat.not_lt_of_le (releases_le_of_advance ha hstage hstuck)

end

end Script.Contention

namespace Gate

/-- A wait is blocked if and only if the gate was told of no release since the call registered in its round. -/
theorem blocked_iff {releases i : Nat} {tokens : List Bool} {moves : List Move} {g : Gate} {c : Call}
    (hrun : (opened releases tokens).run moves = some g) (hc : g.calls[i]? = some c) :
    c.Blocked g.releases ↔
      (∃ seen, c.place = .underway (.waiting seen)) ∧ ¬ Notified (opened releases tokens) moves i c.round := by
  refine and_congr_right fun ⟨seen, hplace⟩ => ?_
  rw [Call.step_go_of_waiting hplace, (lt_iff_notified hrun hc (.inr (.inr hplace))).2]

/-- No wakeup is lost. Any number of calls go on at a gate in any interleaving with each other, with notifications and
with cancellations; probes answer anything, and heartbeats elapse at any time.

A wait is blocked if and only if the gate was told of no release since the call registered in that round, so a
notification counts also when it comes before the probe is answered or before the wait begins. A call that was notified
in its round can go on without the heartbeat at every later time until its next probe is answered, unless its token is
cancelled, and it has at most three moves to make before that answer. In a contention the clock moves only when no call
that waits was notified in its round. -/
theorem no_lost_wakeup :
    (∀ (releases : Nat) (tokens : List Bool) (moves : List Move) (g : Gate),
      (opened releases tokens).run moves = some g → ∀ (i : Nat) (c : Call), g.calls[i]? = some c →
      (c.Blocked g.releases ↔
        (∃ seen, c.place = .underway (.waiting seen)) ∧ ¬ Notified (opened releases tokens) moves i c.round) ∧
      (c.Registered → Notified (opened releases tokens) moves i c.round →
        ∀ more g' c', g.run more = some g' → g'.calls[i]? = some c' → c'.cancelled = false →
          c'.answers = c.answers → c'.Goes g'.releases ∧ more.countP (Move.isOf i) ≤ 3)) ∧
    (∀ (pools : Script.Pools) (jobs : List (Nat × Script.Job)) (fuel : Nat) (t : Script.Contention),
      Script.Contention.Pauses fuel (.starting pools jobs) t →
      ∃ moves g, (Script.Contention.gate jobs).run moves = some g ∧ t.Mirrors g ∧
        ∀ (i : Nat) (task : Script.Contender) (c : Call), t.tasks[i]? = some task → task.Acquires →
          g.calls[i]? = some c → (∃ seen, c.place = .underway (.waiting seen)) →
          ¬ Notified (Script.Contention.gate jobs) moves i c.round) := by
  constructor
  · intro releases tokens moves g hrun i c hc
    refine ⟨blocked_iff hrun hc, ?_⟩
    rintro ⟨seen, hnoted⟩ hnotified more g' c' hmore hc' htoken hanswers
    have hlt : seen < g.releases := (lt_iff_notified hrun hc hnoted).2.mpr hnotified
    obtain ⟨d, hd, hturns⟩ := turns_of_run hmore hc
    cases hc'.symm.trans hd
    obtain ⟨p, hp, hawake, hahead⟩ : ∃ p, c.place = .underway p ∧ p.Awake g.releases ∧ p.ahead ≤ 3 := by
      rcases hnoted with hp | hp | hp
      · exact ⟨_, hp, trivial, by simp⟩
      · exact ⟨_, hp, hlt, by simp⟩
      · exact ⟨_, hp, hlt, by simp⟩
    obtain ⟨p', hp', hawake', hcount⟩ := hturns.onward hp hawake htoken hanswers
    exact ⟨Call.goes_of_awake hp' hawake' htoken, by omega⟩
  · intro pools jobs fuel t hpauses
    obtain ⟨moves, g, hrun, hmirrors⟩ := hpauses.leads _ (Script.Contention.mirrors_starting pools jobs)
    refine ⟨moves, g, hrun, hmirrors, ?_⟩
    intro i task c hi ha hc hwaits
    have hblocked := hmirrors.blocked hi hc ha (hpauses.advance_eq_none i task hi) hwaits
    exact ((blocked_iff hrun hc).mp hblocked).2

/-- The gate is told of a release after the first call has registered and before its probe is refused: its wait is not
blocked. The second call registers after that, and its wait is. A contention comes to a pause with a task that waits. -/
theorem no_lost_wakeup_before_probe :
    let moves : List Move :=
      [.call 0 .go, .notify, .call 1 .go, .call 0 (.probe .retry), .call 1 (.probe .retry), .call 0 .go, .call 1 .go]
    let jobs : List (Nat × Script.Job) := [(0, .acquire { replies := [.retry] } 5 0 none)]
    (∃ g c d, (opened 0 [false, false]).run moves = some g ∧ g.calls[0]? = some c ∧ g.calls[1]? = some d ∧
      c.place = .underway (.waiting 0) ∧ ¬ c.Blocked g.releases ∧ c.Goes g.releases ∧ d.Blocked g.releases) ∧
    ∃ moves g c, (Script.Contention.gate jobs).run moves = some g ∧ g.calls[0]? = some c ∧
      c.place = .underway (.waiting 0) ∧ ¬ Notified (Script.Contention.gate jobs) moves 0 c.round := by
  intro moves jobs
  have hnotified : Notified (opened 0 [false, false]) moves 0 1 :=
    ⟨[.call 0 .go], _, _, _, rfl, rfl, rfl, ⟨0, .inl rfl⟩, rfl⟩
  constructor
  · refine ⟨_, _, _, rfl, rfl, rfl, rfl, ?_, ?_, ⟨1, rfl⟩, rfl⟩
    · intro hblocked
      exact ((no_lost_wakeup.1 0 [false, false] moves _ rfl 0 _ rfl).1.mp hblocked).2 hnotified
    · exact ((no_lost_wakeup.1 0 [false, false] moves _ rfl 0 _ rfl).2 ⟨0, .inr (.inr rfl)⟩ hnotified
        [] _ _ rfl rfl rfl rfl).1
  · obtain ⟨t, hpauses, task, hi, ha, hstage⟩ : ∃ t, Script.Contention.Pauses 9 (.starting [] jobs) t ∧
        ∃ task, t.tasks[0]? = some task ∧ task.Acquires ∧ task.stage = .acquiring (.waiting 0) 5 :=
      ⟨_, .swept rfl (.here rfl), _, rfl, ⟨_, _, _, _, rfl⟩, rfl⟩
    obtain ⟨moves, g, hrun, hmirrors, hwaiting⟩ := no_lost_wakeup.2 [] jobs 9 t hpauses
    have hlength : 0 < g.calls.length := hmirrors.length ▸ (List.getElem?_eq_some_iff.mp hi).1
    obtain ⟨c, hc⟩ : ∃ c, g.calls[0]? = some c := ⟨_, List.getElem?_eq_getElem hlength⟩
    have hplace := (hmirrors.makes 0 task c hi hc ha).place_of_acquiring hstage
    exact ⟨moves, g, c, hrun, hc, hplace, hwaiting 0 task c hi ha hc ⟨0, hplace⟩⟩

end Gate

end Intake
