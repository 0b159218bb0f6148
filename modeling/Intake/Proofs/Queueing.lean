import Intake.Proofs.Bookkeeping
import Intake.Proofs.Dealings
/-!
# Readers acquire in their order

The partitions of a round run at the same time, but they acquire one after the other: each waits until the one
before it lets it go on. A partition that is cancelled while it waits lets the next one go on without having
waited for its own turn. All the same no reader is probed for too early, because the next one is cancelled as
well: when a partition is stopped, so are all later ones that have not ended (`Lined.cascade`), and a
cancelled partition that gets its turn does not probe.

`Lined` is what is true of the partitions of a feed at any time, `Lined.part` and `Lined.join` say that a step
of a partition and taking its end keep it, and `Probed` carries it along a run with the probes so far. The main
statement is `probes_in_order`.
-/

namespace Intake.Read

/-! ### Rounds -/

namespace Round

variable {r : Round} {i j : Nat} {cancelled : Bool} {e : Ended}

/-- Taking an end stops every later partition without a result, or none. -/
theorem mem_observe (hj : j ∈ (r.observe cancelled i e).2) {k : Nat} (hk : j < k) (hsize : k < r.size)
    (hopen : r.isRecorded k = false) : k ∈ (r.observe cancelled i e).2 := by
  unfold observe at hj ⊢
  split at hj
  · cases hj
  · rename_i hi
    rw [if_neg hi]
    split at hj
    · cases hj
    · have hij : i < j := by
        simp only [openAfter, List.mem_filter, Bool.and_eq_true, decide_eq_true_eq] at hj
        exact hj.2.1
      simp only [openAfter, List.mem_filter, List.mem_range, hopen, Bool.not_false, Bool.and_true,
        decide_eq_true_eq]
      exact ⟨hsize, by omega⟩

/-- A partition gets a result by its own end or by being stopped. -/
theorem isRecorded_observe_cases (hi : i < r.size)
    (hj : (r.observe cancelled i e).1.isRecorded j = true) :
    r.isRecorded j = true ∨ j = i ∨ j ∈ (r.observe cancelled i e).2 := by
  unfold observe at hj ⊢
  split at hj
  · exact Or.inl hj
  · rename_i hn
    rw [if_neg hn]
    split at hj
    · rcases (isRecorded_record hi _ j).mp hj with hji | hold
      · exact Or.inr (Or.inl hji)
      · exact Or.inl hold
    · rename_i failure _
      have hi' : i < (r.haltAfter i failure).size := by rwa [size_haltAfter]
      rcases (isRecorded_record hi' _ j).mp hj with hji | hold
      · exact Or.inr (Or.inl hji)
      · by_cases hrec : r.isRecorded j = true
        · exact Or.inl hrec
        · have hlater := ((isRecorded_haltAfter r i failure j).mp hold).resolve_left hrec
          right
          right
          simp only [openAfter, List.mem_filter, List.mem_range, Bool.and_eq_true, decide_eq_true_eq]
          exact ⟨hlater.2, hlater.1, by simpa using hrec⟩

end Round

/-! ### Partitions -/

namespace Partition

/-- Whether the acquisition of a task in a phase has still to begin or to end. -/
def Phase.isAcquiring : Phase → Bool
  | .queued => true
  | .acquiring _ => true
  | _ => false

section
variable {v : View} {t : Partition} {a : Act} {next : Next}

/-- A task lets the next partition go on just when it has done with acquiring. -/
theorem Rule.passed_eq (h : Rule v t a next) (ht : t.passed = t.phase.hasAcquired) :
    next.task.passed = next.task.phase.hasAcquired := by
  cases h with
  | signals | signalsFailure | acquireCrashes | runCrashes | saveCrashes => rfl
  | _ hp =>
    rw [hp] at ht
    exact ht

theorem Rule.hasAcquired (h : Rule v t a next) (ht : t.phase.hasAcquired = true) :
    next.task.phase.hasAcquired = true := by
  cases h with
  | enters hp | leavesQueue hp | acquireMoves hp | acquireRetries hp | acquires hp | acquireFails hp =>
    rw [hp] at ht
    cases ht
  | _ => rfl

/-- A task leaves the queue when it is its turn or when it is cancelled. -/
theorem Rule.of_queued (h : Rule v t a next) (hp : t.phase = .queued) :
    v.turn = true ∨ v.cancelled = true := by
  cases h with
  | enters _ hturn => exact Or.inl hturn
  | leavesQueue _ hcancelled => exact Or.inr hcancelled
  | _ hq =>
    rw [hp] at hq
    cases hq

/-- A task begins to probe when it is not cancelled. -/
theorem Rule.of_probing (h : Rule v t a next) {x : Acquisition.Phase}
    (hx : next.task.phase = .acquiring x) (hne : x ≠ .fresh) :
    ∃ y, t.phase = .acquiring y ∧ (y = .fresh → v.cancelled = false) := by
  cases h with
  | enters hp =>
    cases hx
    exact absurd rfl hne
  | @acquireMoves y y' a move hp hm hs =>
    refine ⟨y, hp, ?_⟩
    rintro rfl
    cases move with
    | go =>
      simp only [Acquisition.step] at hs
      split at hs
      · cases hs
      · rename_i hfree
        simpa using hfree
    | _ => cases hs
  | @acquireRetries y y' a move hp hm hs =>
    refine ⟨y, hp, ?_⟩
    rintro rfl
    cases move with
    | go =>
      simp only [Acquisition.step] at hs
      split at hs <;> cases hs
    | _ => cases hs
  | _ => cases hx

/-- Only a task that is about to probe is answered. -/
theorem Rule.of_probe (h : Rule v t a next) {answer : ProbeAnswer} (ha : a = .probe answer) :
    ∃ seen, t.phase = .acquiring (.armed seen) := by
  have armed : ∀ {p : Acquisition.Phase} {move : Acquisition.Move} {next : Acquisition.Next},
      t.phase = .acquiring p → a.acquisition? = some move →
      Acquisition.step v.cancelled v.releases p move = some next →
      ∃ seen, t.phase = .acquiring (.armed seen) := by
    intro p move next hp hm hs
    subst ha
    cases hm
    cases p with
    | armed seen => exact ⟨seen, hp⟩
    | _ => cases hs
  cases h with
  | acquireMoves hp hm hs | acquireRetries hp hm hs | acquires hp hm hs | acquireFails hp hm hs
  | acquireCrashes hp hm hs => exact armed hp hm hs
  | _ => cases ha

end

end Partition

/-! ### The partitions of a feed -/

namespace FeedTask

/-- Every partition before an index has done with acquiring. -/
def Clear (parts : List Partition) (j : Nat) : Prop :=
  ∀ k < j, ∀ p, parts[k]? = some p → p.phase.hasAcquired = true

/-- The partitions of a round at any time, when the feed is cancelled or not: who has done with acquiring lets
the next one go on; when one is stopped, so are all later ones that have not ended; whoever is out of the queue
had its turn, or is cancelled; and whoever probes had its turn. -/
structure Lined (cancelled : Bool) (parts : List Partition) : Prop where
  passed : ∀ (j : Nat) (p : Partition), parts[j]? = some p → p.passed = p.phase.hasAcquired
  cascade : ∀ (j k : Nat) (p q : Partition), j < k → parts[j]? = some p → parts[k]? = some q →
    p.halted = true → q.halted = true ∨ q.ended?.isSome = true
  turn : ∀ (j : Nat) (p : Partition), parts[j]? = some p → p.phase ≠ .queued →
    Clear parts j ∨ (cancelled || p.halted) = true
  probing : ∀ (j : Nat) (p : Partition) (x : Acquisition.Phase), parts[j]? = some p →
    p.phase = .acquiring x → x ≠ .fresh → Clear parts j

theorem lined_start (cancelled : Bool) (readers : List Bool) :
    Lined cancelled (partitions readers) := by
  constructor
  case passed =>
    intro j p hp
    obtain ⟨u, rfl⟩ := eq_start_of_partitions hp
    simp only [Partition.start]
    split <;> rfl
  case cascade =>
    intro j k p q _ hp _ hhalted
    obtain ⟨u, rfl⟩ := eq_start_of_partitions hp
    cases hhalted
  case turn =>
    intro j p hp hne
    obtain ⟨u, rfl⟩ := eq_start_of_partitions hp
    -- only the first one has nobody to wait for
    simp only [Partition.start] at hne
    split at hne
    · rename_i hzero
      refine Or.inl fun k hk => ?_
      omega
    · exact absurd rfl hne
  case probing =>
    intro j p x hp hx hne
    obtain ⟨u, rfl⟩ := eq_start_of_partitions hp
    simp only [Partition.start] at hx
    split at hx
    · cases hx
      exact absurd rfl hne
    · cases hx

section
variable {cancelled : Bool} {parts parts' : List Partition} {j : Nat} {p : Partition}

/-- Cancelling the feed cannot hurt. -/
theorem Lined.mono (h : Lined cancelled parts) {cancelled' : Bool}
    (hmono : cancelled = true → cancelled' = true) : Lined cancelled' parts where
  passed := h.passed
  cascade := h.cascade
  turn := by
    intro j p hp hne
    rcases h.turn j p hp hne with hclear | hgone
    · exact Or.inl hclear
    · right
      rcases Bool.or_eq_true_iff.mp hgone with hfeed | hhalted
      · rw [hmono hfeed, Bool.true_or]
      · rw [hhalted, Bool.or_true]
  probing := h.probing

/-- A partition in the queue that can go on had its turn, or is cancelled. -/
theorem Lined.clear_or_cancelled (h : Lined cancelled parts) {q : Partition} (hp : parts[j]? = some p)
    (hq : parts[j + 1]? = some q) (hpassed : p.passed = true) (hopen : q.ended? = none) :
    Clear parts (j + 1) ∨ (cancelled || q.halted) = true := by
  rw [h.passed j p hp] at hpassed
  have hne : p.phase ≠ .queued := by
    intro hqueued
    rw [hqueued] at hpassed
    cases hpassed
  rcases h.turn j p hp hne with hclear | hgone
  · refine Or.inl fun k hk u hu => ?_
    rcases Nat.lt_succ_iff_lt_or_eq.mp hk with hlt | rfl
    · exact hclear k hlt u hu
    · rw [hp] at hu; cases hu
      exact hpassed
  · right
    rcases Bool.or_eq_true_iff.mp hgone with hfeed | hhalted
    · rw [hfeed, Bool.true_or]
    · rcases h.cascade j (j + 1) p q (Nat.lt_succ_self j) hp hq hhalted with hnext | hended
      · rw [hnext, Bool.or_true]
      · rw [hopen] at hended
        cases hended

end

section
variable {v : View} {t : FeedTask} {j : Nat} {p : Partition} {a : Act} {next : Partition.Next}

theorem Clear.part {v : Partition.View} {parts : List Partition} (hp : parts[j]? = some p)
    (hr : Partition.Rule v p a next) {k : Nat} (h : Clear parts k) :
    Clear (parts.set j next.task) k := by
  intro i hi q hq
  by_cases hij : j = i
  · subst hij
    rw [List.getElem?_set_self (List.getElem?_eq_some_iff.mp hp).1] at hq
    cases hq
    exact hr.hasAcquired (h j hi p hp)
  · rw [List.getElem?_set_ne hij] at hq
    exact h i hi q hq

/-- A partition that makes a step had its turn, or is cancelled, unless it is still in the queue. -/
theorem Lined.turn_of_view (h : Lined (t.cancelledIn v) t.parts) (hp : t.parts[j]? = some p)
    (hopen : p.ended? = none) (hturn : (t.partView v j p).turn = true) :
    Clear t.parts j ∨ (t.cancelledIn v || p.halted) = true := by
  cases j with
  | zero => exact Or.inl fun k hk => absurd hk (Nat.not_lt_zero k)
  | succ j =>
    obtain ⟨q, hq, hpassed⟩ := (Option.any_eq_true _ _).mp hturn
    exact h.clear_or_cancelled hq hp hpassed hopen

/-- A step of a partition keeps the others in line. -/
theorem Lined.part (h : Lined (t.cancelledIn v) t.parts) (hp : t.parts[j]? = some p)
    (hr : Partition.Rule (t.partView v j p) p a next) :
    Lined (t.cancelledIn v) (t.parts.set j next.task) := by
  have hlt := (List.getElem?_eq_some_iff.mp hp).1
  obtain ⟨hhalted, -, -⟩ := hr.frame
  -- what held of the partition that was there holds of the one that has moved
  have hback : ∀ {k : Nat} {q : Partition}, (t.parts.set j next.task)[k]? = some q →
      (k = j ∧ q = next.task) ∨ (k ≠ j ∧ t.parts[k]? = some q) := by
    intro k q hq
    by_cases hkj : j = k
    · subst hkj
      rw [List.getElem?_set_self hlt] at hq
      cases hq
      exact Or.inl ⟨rfl, rfl⟩
    · rw [List.getElem?_set_ne hkj] at hq
      exact Or.inr ⟨Ne.symm hkj, hq⟩
  constructor
  case passed =>
    intro k q hq
    rcases hback hq with ⟨rfl, rfl⟩ | ⟨-, hold⟩
    · exact hr.passed_eq (h.passed k p hp)
    · exact h.passed k q hold
  case cascade =>
    intro k m q u hkm hq hu hq'
    have hfirst : ∃ q₀, t.parts[k]? = some q₀ ∧ q₀.halted = true := by
      rcases hback hq with ⟨rfl, rfl⟩ | ⟨-, hold⟩
      · exact ⟨p, hp, hhalted ▸ hq'⟩
      · exact ⟨q, hold, hq'⟩
    obtain ⟨q₀, hq₀, hq₀'⟩ := hfirst
    rcases hback hu with ⟨rfl, rfl⟩ | ⟨-, hold⟩
    · rcases h.cascade k m q₀ p hkm hq₀ hp hq₀' with hstop | hended
      · exact Or.inl (hhalted.trans hstop)
      · rw [hr.ended?_eq_none] at hended
        cases hended
    · exact h.cascade k m q₀ u hkm hq₀ hold hq₀'
  case turn =>
    intro k q hq hne
    rcases hback hq with ⟨rfl, rfl⟩ | ⟨-, hold⟩
    · rw [hhalted]
      have hturn : Clear t.parts k ∨ (t.cancelledIn v || p.halted) = true := by
        by_cases hqueued : p.phase = .queued
        · rcases hr.of_queued hqueued with hview | hgone
          · exact h.turn_of_view hp hr.ended?_eq_none hview
          · exact Or.inr hgone
        · exact h.turn k p hp hqueued
      exact hturn.imp_left (Clear.part hp hr)
    · exact (h.turn k q hold hne).imp_left (Clear.part hp hr)
  case probing =>
    intro k q x hq hx hne
    rcases hback hq with ⟨rfl, rfl⟩ | ⟨-, hold⟩
    · obtain ⟨y, hy, hfree⟩ := hr.of_probing hx hne
      apply Clear.part hp hr
      by_cases hfresh : y = .fresh
      · -- a cancelled partition would not begin to probe
        have hrun : (t.cancelledIn v || p.halted) = false := hfree hfresh
        have hout : p.phase ≠ .queued := by
          rw [hy]
          nofun
        exact (h.turn k p hp hout).resolve_right (by rw [hrun]; nofun)
      · exact h.probing k p y hp hy hfresh
    · exact Clear.part hp hr (h.probing k q x hold hx hne)

end

/-! ### Taking ends -/

/-- A partition that has a result was stopped or has ended. -/
def Settled (parts : List Partition) (r : Round) : Prop :=
  ∀ (k : Nat) (q : Partition), parts[k]? = some q → r.isRecorded k = true →
    q.halted = true ∨ q.ended?.isSome = true

section
variable {cancelled : Bool} {v : View} {t t' : FeedTask} {r r' : Round} {j : Nat}

theorem Settled.part {v : Partition.View} {parts : List Partition} {p : Partition} {a : Act}
    {next : Partition.Next} (h : Settled parts r) (hp : parts[j]? = some p)
    (hr : Partition.Rule v p a next) : Settled (parts.set j next.task) r := by
  intro k q hq hrec
  by_cases hjk : j = k
  · subst hjk
    rw [List.getElem?_set_self (List.getElem?_eq_some_iff.mp hp).1] at hq
    cases hq
    rcases h j p hp hrec with hhalted | hended
    · exact Or.inl (hr.frame.1.trans hhalted)
    · rw [hr.ended?_eq_none] at hended
      cases hended
  · rw [List.getElem?_set_ne hjk] at hq
    exact h k q hq hrec

theorem Settled.join (h : Settled t.parts r) (hsize : r.size = t.parts.length)
    (hj : t.join v r j = some (t', r')) : Settled t'.parts r' := by
  obtain ⟨p, e, hp, he, rfl, rfl⟩ := eq_taken_of_join hj
  have hlt : j < r.size := by
    rw [hsize]
    exact (List.getElem?_eq_some_iff.mp hp).1
  intro k q hq hrec
  obtain ⟨q₀, hq₀, rfl⟩ := getElem?_joined hp hq
  rcases Round.isRecorded_observe_cases hlt hrec with hold | rfl | hstopped
  · rcases h k q₀ hq₀ hold with hhalted | hended
    · exact Or.inl (Bool.or_eq_true_iff.mpr (Or.inl hhalted))
    · exact Or.inr hended
  · rw [hp] at hq₀; cases hq₀
    exact Or.inr (Option.isSome_of_eq_some he)
  · exact Or.inl (Bool.or_eq_true_iff.mpr (Or.inr (decide_eq_true hstopped)))

/-- Taking the end of a partition, and stopping later ones, keeps them in line. -/
theorem Lined.join (h : Lined cancelled t.parts) (hsettled : Settled t.parts r)
    (hsize : r.size = t.parts.length) (hj : t.join v r j = some (t', r')) :
    Lined cancelled t'.parts := by
  obtain ⟨p, e, hp, he, rfl, rfl⟩ := eq_taken_of_join hj
  have hclear : ∀ {k : Nat}, Clear t.parts k →
      Clear (t.taken j p (r.observe (t.cancelledIn v) j e).2).parts k := by
    intro k hk m hm q hq
    obtain ⟨q₀, hq₀, rfl⟩ := getElem?_joined hp hq
    exact hk m hm q₀ hq₀
  constructor
  case passed =>
    intro k q hq
    obtain ⟨q₀, hq₀, rfl⟩ := getElem?_joined hp hq
    exact h.passed k q₀ hq₀
  case cascade =>
    intro k m q u hkm hq hu hstop
    obtain ⟨q₀, hq₀, rfl⟩ := getElem?_joined hp hq
    obtain ⟨u₀, hu₀, rfl⟩ := getElem?_joined hp hu
    have hkept : u₀.halted = true ∨ u₀.ended?.isSome = true →
        (u₀.halted || decide (m ∈ (r.observe (t.cancelledIn v) j e).2)) = true ∨
          u₀.ended?.isSome = true :=
      Or.imp_left fun hhalted => Bool.or_eq_true_iff.mpr (Or.inl hhalted)
    rcases Bool.or_eq_true_iff.mp hstop with hold | hnew
    · exact hkept (h.cascade k m q₀ u₀ hkm hq₀ hu₀ hold)
    · -- the later one is stopped together with it, or it had its result before
      by_cases hrec : r.isRecorded m = true
      · exact hkept (hsettled m u₀ hu₀ hrec)
      · have hm : m < r.size := by
          rw [hsize]
          exact (List.getElem?_eq_some_iff.mp hu₀).1
        have hmem := Round.mem_observe (of_decide_eq_true hnew) hkm hm (by simpa using hrec)
        exact Or.inl (Bool.or_eq_true_iff.mpr (Or.inr (decide_eq_true hmem)))
  case turn =>
    intro k q hq hne
    obtain ⟨q₀, hq₀, rfl⟩ := getElem?_joined hp hq
    rcases h.turn k q₀ hq₀ hne with hturn | hgone
    · exact Or.inl (hclear hturn)
    · right
      rcases Bool.or_eq_true_iff.mp hgone with hfeed | hhalted
      · rw [hfeed, Bool.true_or]
      · simp only [hhalted, Bool.true_or, Bool.or_true]
  case probing =>
    intro k q x hq hx hne
    obtain ⟨q₀, hq₀, rfl⟩ := getElem?_joined hp hq
    exact hclear (h.probing k q₀ x hq₀ hx hne)

end

/-- The partitions of a feed are in line, and no partition is at work between rounds. -/
structure InLine (v : View) (t : FeedTask) : Prop where
  lined : Lined (t.cancelledIn v) t.parts
  settled : ∀ r, t.phase = .reading r → Settled t.parts r
  rests : t.Rests

section
variable {v : View} {t : FeedTask} {s : Shared} {a : Act} {next : Next}

/-- A step of the feed itself. -/
theorem Rule.inLine (h : Rule v t s a next) (hl : InLine v t) : InLine v next.task := by
  have hrests := h.rests hl.rests
  cases h with
  | findsNothing hp => exact ⟨lined_start _ [], nofun, hrests⟩
  | @starts readers hp hne =>
    refine ⟨lined_start _ readers, ?_, hrests⟩
    rintro r ⟨rfl⟩ k q _ hrec
    rw [Round.isRecorded_start] at hrec
    cases hrec
  | @applies r c hp hn =>
    refine ⟨hl.lined, ?_, hrests⟩
    rintro r' ⟨rfl⟩
    exact hl.settled r hp
  | @joins r r' j t' hp hn hf hj =>
    have hsize := (hl.rests.reading r hp).size_eq
    have hsettled := hl.settled r hp
    have hlined := hl.lined.join hsettled hsize hj
    have hnext := hsettled.join hsize hj
    obtain ⟨parts, rfl⟩ := join_frame hj
    refine ⟨hlined, ?_, hrests⟩
    rintro r'' ⟨rfl⟩
    exact hnext
  | @unlocks count next hp =>
    cases next with
    | last | more | failed => exact ⟨hl.lined, nofun, hrests⟩
  | _ => exact ⟨hl.lined, nofun, hrests⟩

/-- Once the readers of a round are there, who has done with acquiring stays so for the rest of the round. -/
theorem Rule.clear (h : Rule v t s a next) (hstage : t.phase.stage = 3) {j : Nat}
    (hclear : Clear t.parts j) :
    t.round < next.task.round ∨
      (next.task.round = t.round ∧ next.task.phase.stage = 3 ∧ Clear next.task.parts j) := by
  cases h with
  | joins hp hn hf hj =>
    obtain ⟨p, e, hpart, -, rfl, -⟩ := eq_taken_of_join hj
    refine Or.inr ⟨rfl, rfl, fun m hm q hq => ?_⟩
    obtain ⟨q₀, hq₀, rfl⟩ := getElem?_joined hpart hq
    exact hclear m hm q₀ hq₀
  | @unlocks count next hp =>
    cases next with
    | more => exact Or.inl (Nat.lt_succ_self _)
    | last | failed => exact Or.inr ⟨rfl, rfl, hclear⟩
  | applies | closes | locks | visits | hasVisited | writes | saysComplete | hasCompleted | finishes
  | stopsForCause | stops | saysStopped | hasStopped => exact Or.inr ⟨rfl, rfl, hclear⟩
  | _ hp =>
    rw [hp] at hstage
    cases hstage

theorem Phase.isIdle_of_stage {p : Phase} (h : p.stage ≠ 3) : p.isIdle = true := by
  cases p with
  | asleep | making | acquiring | starting | opening | creating | releasing | notifying | created => rfl
  | _ => exact absurd rfl h

end

end FeedTask

/-! ### Probes in a run -/

namespace System

/-- The round and the index of the reader of a feed that is probed for with a step. -/
def Step.probe? (i : Nat) (st : Step) : Option (Nat × Nat) :=
  match st.move with
  | .partition k j (.probe _) => if k = i then (st.before.feeds[i]?).map fun t => (t.round, j) else none
  | _ => none

/-- The probes for the readers of a feed in some steps, in order. -/
def probes (i : Nat) (steps : List Step) : List (Nat × Nat) := steps.filterMap (Step.probe? i)

section
variable {s s' : System} {move : Move} {effects : List Effect} {i : Nat} {t t' : FeedTask}

/-- Every step keeps the partitions of every feed in line. -/
theorem inLine_step (h : s.step move = some (s', effects)) (ht : s.feeds[i]? = some t)
    (ht' : s'.feeds[i]? = some t') (hl : t.InLine (s.feedView i)) : t'.InLine (s'.feedView i) := by
  have hmono := cancelledIn_step h ht ht'
  have hrests := rests_step h ht ht' hl.rests
  rcases step_sides h ht ht' with ⟨a, next, -, hr, rfl, -⟩ | ⟨j, a, p, next, -, hp, hr, rfl, -⟩ |
    ⟨-, -, halted, cause, rfl⟩
  · have hnext := hr.inLine hl
    refine ⟨hnext.lined.mono fun hc => hmono ?_, hnext.settled, hnext.rests⟩
    rwa [hr.cancelledIn_eq] at hc
  · exact ⟨(hl.lined.part hp hr).mono hmono, fun r hreading => (hl.settled r hreading).part hp hr, hrests⟩
  · exact ⟨hl.lined.mono hmono, hl.settled, hrests⟩

theorem inLine_start (settings : Settings) (factories : Nat) (l : Ledger)
    (ht : (start settings factories l).feeds[i]? = some t) :
    t.InLine ((start settings factories l).feedView i) := by
  obtain ⟨feed, -, rfl⟩ := List.mem_map.mp (List.mem_of_getElem? ht)
  refine ⟨FeedTask.lined_start _ [], nofun, ⟨fun _ j p hp => ?_, nofun⟩⟩
  simp at hp

/-- A probe is for a partition that had its turn and has not done with acquiring. -/
theorem clear_of_probe {st : Step} {n j : Nat} (h : st.before.step st.move = some (st.after, st.effects))
    (hl : ∀ t, st.before.feeds[i]? = some t → t.InLine (st.before.feedView i))
    (hprobe : st.probe? i = some (n, j)) :
    ∃ t p, st.before.feeds[i]? = some t ∧ t.round = n ∧ t.parts[j]? = some p ∧
      p.phase.hasAcquired = false ∧ FeedTask.Clear t.parts j := by
  obtain ⟨before, move, effects, after⟩ := st
  unfold Step.probe? at hprobe
  split at hprobe
  · rename_i k m answer hmove
    obtain rfl : move = .partition k m (.probe answer) := hmove
    split at hprobe
    · rename_i hk
      subst hk
      obtain ⟨t, ht, heq⟩ := Option.map_eq_some_iff.mp hprobe
      cases heq
      obtain ⟨u, p, next, releases, hu, hp, hr, -⟩ := step_partition h
      have hut : u = t := Option.some.inj (hu.symm.trans ht)
      subst hut
      obtain ⟨seen, hphase⟩ := hr.of_probe rfl
      refine ⟨u, p, ht, rfl, hp, ?_, (hl u ht).lined.probing _ p _ hp hphase nofun⟩
      rw [hphase]
      rfl
    · cases hprobe
  · cases hprobe

/-- What is known of a probe that was made: it is of a round before, or all partitions before its own have done
with acquiring. -/
def Served (t : FeedTask) (probe : Nat × Nat) : Prop :=
  probe.1 < t.round ∨ (probe.1 = t.round ∧ t.phase.stage = 3 ∧ FeedTask.Clear t.parts probe.2)

theorem Served.step {probe : Nat × Nat} (h : s.step move = some (s', effects))
    (ht : s.feeds[i]? = some t) (ht' : s'.feeds[i]? = some t') (hprobe : Served t probe) :
    Served t' probe := by
  rcases step_sides h ht ht' with ⟨a, next, -, hr, rfl, -⟩ | ⟨j, a, p, next, -, hp, hr, rfl, -⟩ |
    ⟨-, -, halted, cause, rfl⟩
  · rcases hprobe with hearlier | ⟨hround, hstage, hclear⟩
    · rcases hr.round with ⟨hsame, -⟩ | ⟨hnext, -⟩
      · exact Or.inl (by omega)
      · exact Or.inl (by omega)
    · rcases hr.clear hstage hclear with hlater | ⟨hsame, hstage', hclear'⟩
      · exact Or.inl (by omega)
      · exact Or.inr ⟨by omega, hstage', hclear'⟩
  · rcases hprobe with hearlier | ⟨hround, hstage, hclear⟩
    · exact Or.inl hearlier
    · exact Or.inr ⟨hround, hstage, hclear.part hp hr⟩
  · exact hprobe

end

/-- What is true after some steps of a read of the partitions of a feed and of the probes so far. -/
structure Probed (i : Nat) (past : List Step) (s : System) : Prop where
  inLine : ∀ t, s.feeds[i]? = some t → t.InLine (s.feedView i)
  served : ∀ t, s.feeds[i]? = some t → ∀ probe ∈ probes i past, Served t probe
  waited : ∀ st ∈ past, ∀ n j, st.probe? i = some (n, j) → ∃ t, st.before.feeds[i]? = some t ∧
    t.round = n ∧ ∀ k < j, ∃ p, t.parts[k]? = some p ∧ p.phase.hasAcquired = true
  sorted : (probes i past).Pairwise fun a b => a.1 < b.1 ∨ (a.1 = b.1 ∧ a.2 ≤ b.2)

/-- A probe that is made now has all partitions before its own served. -/
theorem Probed.served_now {i : Nat} {past : List Step} {st : Step} (hp : Probed i past st.before)
    (h : st.before.step st.move = some (st.after, st.effects)) {probe : Nat × Nat}
    (hprobe : st.probe? i = some probe) {t : FeedTask} (ht : st.before.feeds[i]? = some t) :
    Served t probe := by
  obtain ⟨u, p, hu, hround, hpart, hacquiring, hclear⟩ := clear_of_probe h hp.inLine hprobe
  have hut : u = t := Option.some.inj (hu.symm.trans ht)
  subst hut
  refine Or.inr ⟨hround.symm, ?_, hclear⟩
  -- between rounds all partitions have ended
  by_contra hstage
  have hended := (hp.inLine u ht).rests.idle (FeedTask.Phase.isIdle_of_stage hstage) _ p hpart
  rw [Partition.hasAcquired_of_ended hended] at hacquiring
  cases hacquiring

theorem Probed.step {i : Nat} {past : List Step} {st : Step} (hp : Probed i past st.before)
    (h : st.before.step st.move = some (st.after, st.effects)) : Probed i (past ++ [st]) st.after := by
  have hsnoc : probes i (past ++ [st]) = probes i past ++ (st.probe? i).toList := by
    rw [probes, List.filterMap_append]
    rcases hprobe : st.probe? i with _ | probe
    · simp [probes, hprobe]
    · simp [probes, hprobe]
  constructor
  case inLine =>
    intro t' ht'
    obtain ⟨t, ht⟩ := exists_before h ht'
    exact inLine_step h ht ht' (hp.inLine t ht)
  case served =>
    intro t' ht' probe hmem
    obtain ⟨t, ht⟩ := exists_before h ht'
    rw [hsnoc] at hmem
    refine Served.step h ht ht' ?_
    rcases List.mem_append.mp hmem with hold | hnew
    · exact hp.served t ht probe hold
    · exact hp.served_now h (Option.mem_toList.mp hnew) ht
  case waited =>
    intro x hx n j hprobe
    rcases List.mem_append.mp hx with hold | hnew
    · exact hp.waited x hold n j hprobe
    · obtain rfl := List.mem_singleton.mp hnew
      obtain ⟨t, p, ht, hround, hpart, -, hclear⟩ := clear_of_probe h hp.inLine hprobe
      refine ⟨t, ht, hround, fun k hk => ?_⟩
      have hlt := Nat.lt_trans hk (List.getElem?_eq_some_iff.mp hpart).1
      exact ⟨_, List.getElem?_eq_getElem hlt, hclear k hk _ (List.getElem?_eq_getElem hlt)⟩
  case sorted =>
    rw [hsnoc, List.pairwise_append]
    refine ⟨hp.sorted, ?_, ?_⟩
    · rcases st.probe? i with _ | probe
      · exact List.Pairwise.nil
      · exact List.pairwise_singleton _ _
    · intro a ha b hb
      obtain ⟨t, p, ht, hround, hpart, hacquiring, -⟩ :=
        clear_of_probe h hp.inLine (Option.mem_toList.mp hb)
      rcases hp.served t ht a ha with hearlier | ⟨hsame, -, hclear⟩
      · exact Or.inl (by omega)
      · refine Or.inr ⟨by omega, ?_⟩
        -- the partition that is probed for now has not done with acquiring
        by_contra hlt
        rw [hclear b.2 (by omega) p hpart] at hacquiring
        cases hacquiring

theorem Probed.run {i : Nat} {s s' : System} {moves : List Move} {effects : List Effect}
    (hs : Probed i [] s) (h : s.run moves = some (s', effects)) : Probed i (s.trace moves) s' :=
  run_induction (P := Probed i) h hs fun _ _ _ hst hpast => hpast.step hst

theorem probed_start (settings : Settings) (factories : Nat) (l : Ledger) (i : Nat) :
    Probed i [] (start settings factories l) where
  inLine := fun _ ht => inLine_start settings factories l ht
  served := fun _ _ _ hmem => absurd hmem List.not_mem_nil
  waited := fun _ hmem => absurd hmem List.not_mem_nil
  sorted := List.Pairwise.nil

section
variable {s : System} {i j : Nat} {t : FeedTask} {p q : Partition}

/-- A partition in the queue goes on when the one before it has let it. -/
theorem step_of_passed (ht : s.feeds[i]? = some t) (hp : t.parts[j]? = some p)
    (hq : t.parts[j + 1]? = some q) (hpassed : p.passed = true) (hqueued : q.phase = .queued) :
    ∃ s' t', s.step (.partition i (j + 1) .go) = some (s', []) ∧ s'.feeds[i]? = some t' ∧
      t'.phaseOf (j + 1) = some (.acquiring .fresh) := by
  have hturn : (t.partView (s.feedView i) (j + 1) q).turn = true := by
    simp only [FeedTask.partView, hp, Option.any_some, hpassed]
  have hstep : q.step (t.partView (s.feedView i) (j + 1) q) .go = some (q.goto (.acquiring .fresh)) := by
    simp only [Partition.step, hqueued, Partition.stepQueued, hturn, if_true]
  obtain ⟨releases, hmove⟩ := step_partition_of ht hq hstep
  refine ⟨_, _, hmove, List.getElem?_set_self (List.getElem?_eq_some_iff.mp ht).1, ?_⟩
  have hlt := (List.getElem?_eq_some_iff.mp hq).1
  simp only [FeedTask.phaseOf, List.getElem?_set_self hlt]
  rfl

/-- A partition that is about to let the next one go on can do so at once. -/
theorem step_of_signalling {r : Except Fault Unit} (ht : s.feeds[i]? = some t)
    (hp : t.parts[j]? = some p) (hphase : p.phase = .signalling r) :
    ∃ s' t' p', s.step (.partition i j .go) = some (s', []) ∧ s'.feeds[i]? = some t' ∧
      t'.parts = t.parts.set j p' ∧ p'.passed = true := by
  have hstep : ∃ next, p.step (t.partView (s.feedView i) j p) .go = some next ∧ next.effects = [] ∧
      next.task.passed = true := by
    simp only [Partition.step, hphase]
    cases r with
    | ok => exact ⟨_, rfl, rfl, rfl⟩
    | error e => exact ⟨_, rfl, rfl, rfl⟩
  obtain ⟨next, hnext, heffects, hpassed⟩ := hstep
  obtain ⟨releases, hmove⟩ := step_partition_of ht hp hnext
  rw [heffects] at hmove
  exact ⟨_, _, next.task, hmove, List.getElem?_set_self (List.getElem?_eq_some_iff.mp ht).1, rfl, hpassed⟩

/-- What a partition has to do for the next one to go on, when its own acquisition has ended: nothing, or to
give the signal. -/
def signal (i j : Nat) (p : Partition) : List Move :=
  if p.phase.hasAcquired then [] else [.partition i j .go]

/-- A partition in the queue goes on when the acquisition of the one before it has ended. -/
theorem run_of_not_isAcquiring (hl : t.InLine (s.feedView i)) (ht : s.feeds[i]? = some t)
    (hp : t.parts[j]? = some p) (hq : t.parts[j + 1]? = some q) (hended : p.phase.isAcquiring = false)
    (hqueued : q.phase = .queued) :
    ∃ s' t', s.run (signal i j p ++ [.partition i (j + 1) .go]) = some (s', []) ∧
      s'.feeds[i]? = some t' ∧ t'.phaseOf (j + 1) = some (.acquiring .fresh) := by
  by_cases hacquired : p.phase.hasAcquired = true
  · have hpassed : p.passed = true := (hl.lined.passed j p hp).trans hacquired
    obtain ⟨s', t', hstep, ht', hphase⟩ := step_of_passed ht hp hq hpassed hqueued
    refine ⟨s', t', ?_, ht', hphase⟩
    rw [signal, if_pos hacquired]
    exact run_cons_of hstep rfl
  · -- the only phase in between is that of giving the signal
    have hsignalling : ∃ r, p.phase = .signalling r := by
      revert hended hacquired
      cases p.phase with
      | signalling r => exact fun _ _ => ⟨r, rfl⟩
      | queued | acquiring => nofun
      | _ => exact fun _ hno => absurd rfl hno
    obtain ⟨r, hr⟩ := hsignalling
    obtain ⟨mid, u, p', hsignal, hu, hparts, hpassed⟩ := step_of_signalling ht hp hr
    have hp' : u.parts[j]? = some p' := by
      rw [hparts, List.getElem?_set_self (List.getElem?_eq_some_iff.mp hp).1]
    have hq' : u.parts[j + 1]? = some q := by
      rw [hparts, List.getElem?_set_ne (Nat.ne_of_lt (Nat.lt_succ_self j))]
      exact hq
    obtain ⟨s', t', hstep, ht', hphase⟩ := step_of_passed hu hp' hq' hpassed hqueued
    refine ⟨s', t', ?_, ht', hphase⟩
    rw [signal, if_neg hacquired]
    exact run_cons_of hsignal (run_cons_of hstep rfl)

end

/-! ### The statement -/

/-- The readers of a feed are probed for in the order of the rounds and, in a round, in the order of the
readers, each of them any number of times: when a reader is probed for, all readers before it have done with
acquiring. And nobody waits in vain: when the acquisition of a reader has ended in whatever way, the next
reader goes on if it was waiting for it, after the signal at most. -/
theorem probes_in_order (settings : Settings) (factories : Nat) (l : Ledger) {moves : List Move}
    {s' : System} {effects : List Effect}
    (hrun : (start settings factories l).run moves = some (s', effects)) (i : Nat) :
    (probes i ((start settings factories l).trace moves)).Pairwise
      (fun a b => a.1 < b.1 ∨ (a.1 = b.1 ∧ a.2 ≤ b.2)) ∧
    (∀ st ∈ (start settings factories l).trace moves, ∀ n j, st.probe? i = some (n, j) →
      ∃ t, st.before.feeds[i]? = some t ∧ t.round = n ∧
        ∀ k < j, ∃ p, t.parts[k]? = some p ∧ p.phase.hasAcquired = true) ∧
    (∀ t j p q, s'.feeds[i]? = some t → t.parts[j]? = some p → t.parts[j + 1]? = some q →
      p.phase.isAcquiring = false → q.phase = .queued →
      ∃ s'' t'', s'.run (signal i j p ++ [.partition i (j + 1) .go]) = some (s'', []) ∧
        s''.feeds[i]? = some t'' ∧ t''.phaseOf (j + 1) = some (.acquiring .fresh)) := by
  have hprobed := (probed_start settings factories l i).run hrun
  refine ⟨hprobed.sorted, hprobed.waited, ?_⟩
  intro t j p q ht hp hq hended hqueued
  exact run_of_not_isAcquiring (hprobed.inLine t ht) ht hp hq hended hqueued

/-- The first of three readers is refused once, and the second one has its resources and is about to give the
signal. -/
def secondIsReady : List Move :=
  .supervise :: comesToRead 0 [false, false, false] ++
  [ .partition 0 0 .go, .partition 0 0 (.probe .retry), .partition 0 0 .go, .partition 0 0 .elapse
  , .partition 0 0 .go, .partition 0 0 (.probe .ready), .partition 0 0 .go
  , .partition 0 1 .go, .partition 0 1 .go, .partition 0 1 (.probe .ready) ]

/-- After two probes for the first reader and one for the second, the third reader waits for the signal only. -/
theorem probes_in_order_three_readers :
    ∃ s' effects, (start {} 1 (.make none twoStreams)).run secondIsReady = some (s', effects) ∧
      probes 0 ((start {} 1 (.make none twoStreams)).trace secondIsReady) = [(1, 0), (1, 0), (1, 1)] ∧
      (probes 0 ((start {} 1 (.make none twoStreams)).trace secondIsReady)).Pairwise
        (fun a b => a.1 < b.1 ∨ (a.1 = b.1 ∧ a.2 ≤ b.2)) ∧
      ∃ s'' t, s'.run [.partition 0 1 .go, .partition 0 2 .go] = some (s'', []) ∧
        s''.feeds[0]? = some t ∧ t.phaseOf 2 = some (.acquiring .fresh) := by
  have hrun : (start {} 1 (.make none twoStreams)).run secondIsReady = some (_, _) := rfl
  obtain ⟨hsorted, -, hturn⟩ := probes_in_order {} 1 (.make none twoStreams) hrun 0
  exact ⟨_, _, hrun, rfl, hsorted, hturn _ 1 _ _ rfl rfl rfl rfl rfl⟩

end System

end Intake.Read
