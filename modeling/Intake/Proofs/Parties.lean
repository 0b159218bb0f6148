import Intake.Proofs.Blame
import Intake.Proofs.Protocol
import Intake.Proofs.Reading
/-!
# The creators and readers of a feed

In every round of a feed the code of one creator is called and that of the readers it makes (`Party`). The
feed deals with the creator, and the partitions with their readers, each for one stage of the round. The rules
of the tasks say what a step is for such a dealing:

* `Rests`: no partition is at work when a feed goes from one round to the next, so every reader is dealt with
  to its end in its own round.
* `Rule.fitsWith`, `Rule.goesOn` and `part_goesOn`: a step of a task goes on with the party it deals with, by
  the protocol, and leaves all others alone.
-/

namespace Intake.Read

/-! ### No partition is left behind -/

/-- A partition gets a checkpoint as its result only from its own end. -/
theorem Round.results_of_observe {r : Round} {cancelled : Bool} {i j : Nat} {e : Ended} {c : Checkpoint}
    (h : (r.observe cancelled i e).1.results[j]? = some (some (.ok c))) :
    r.results[j]? = some (some (.ok c)) ∨ j = i := by
  unfold observe at h
  split at h
  · exact Or.inl h
  · by_cases hij : i = j
    · exact Or.inr hij.symm
    · refine Or.inl ?_
      split at h
      · rwa [getElem?_record, if_neg hij] at h
      · rw [getElem?_record, if_neg hij, getElem?_haltAfter] at h
        obtain ⟨entry, hentry, hx⟩ := Option.map_eq_some_iff.mp h
        rcases entry with _ | x
        · simp only at hx
          split at hx <;> cases hx
        · cases hx
          exact hentry

namespace FeedTask

/-- What holds between the partitions of a feed and the round that takes their ends. -/
structure Accounts (parts : List Partition) (r : Round) : Prop where
  size_eq : r.size = parts.length
  tallied : r.Tallied
  joined : ∀ (j : Nat) (p : Partition), parts[j]? = some p → p.joined = true → r.isRecorded j = true
  /-- A partition with a checkpoint has ended. -/
  ended : ∀ (j : Nat) (p : Partition) (c : Checkpoint), parts[j]? = some p →
    r.results[j]? = some (some (.ok c)) → p.ended?.isSome = true

theorem accounts_start (feed : String) (number : Nat) (readers : List Bool) :
    Accounts (partitions readers) (.start feed number readers.length) where
  size_eq := by simp [Round.size, Round.start, partitions]
  tallied := Round.tallied_start feed number readers.length
  joined := by
    intro j p hp hj
    obtain ⟨u, rfl⟩ := eq_start_of_partitions hp
    cases hj
  ended := by
    intro j p c _ hc
    simp [Round.start, List.getElem?_replicate] at hc

namespace Accounts

variable {parts : List Partition} {r : Round}

/-- A step of a partition. One that has ended makes none. -/
theorem part (h : Accounts parts r) {v : Partition.View} {j : Nat} {p : Partition} {a : Act}
    {next : Partition.Next} (hp : parts[j]? = some p) (hr : Partition.Rule v p a next) :
    Accounts (parts.set j next.task) r := by
  have hj : j < parts.length := (List.getElem?_eq_some_iff.mp hp).1
  exact {
    size_eq := by rw [List.length_set]; exact h.size_eq
    tallied := h.tallied
    joined := by
      intro k q hq hjoined
      by_cases hjk : j = k
      · subst hjk
        rw [List.getElem?_set_self hj] at hq; cases hq
        exact h.joined j p hp (hr.frame.2.1 ▸ hjoined)
      · rw [List.getElem?_set_ne hjk] at hq
        exact h.joined k q hq hjoined
    ended := by
      intro k q c hq hc
      by_cases hjk : j = k
      · subst hjk
        have hended := h.ended j p c hp hc
        rw [hr.ended?_eq_none] at hended
        cases hended
      · rw [List.getElem?_set_ne hjk] at hq
        exact h.ended k q c hq hc }

/-- The end of a partition is taken. -/
theorem join {v : View} {t t' : FeedTask} {r' : Round} {j : Nat} (h : Accounts t.parts r)
    (hj : t.join v r j = some (t', r')) : Accounts t'.parts r' := by
  obtain ⟨p, e, hp, he, rfl, rfl⟩ := eq_taken_of_join hj
  have hsize : j < r.size := by
    rw [h.size_eq]
    exact (List.getElem?_eq_some_iff.mp hp).1
  exact {
    size_eq := by
      rw [(r.observe_frame _ j e).2.2.2, taken, length_haltParts, List.length_set]
      exact h.size_eq
    tallied := h.tallied.observe hsize _ e
    joined := by
      intro k q hq hjoined
      obtain ⟨q₀, hq₀, rfl⟩ := getElem?_joined hp hq
      rcases Bool.or_eq_true_iff.mp hjoined with h₀ | hkj
      · exact Round.isRecorded_observe_mono hsize _ e (h.joined k q₀ hq₀ h₀)
      · obtain rfl := of_decide_eq_true hkj
        exact Round.isRecorded_observe_self hsize _ e
    ended := by
      intro k q c hq hc
      obtain ⟨q₀, hq₀, rfl⟩ := getElem?_joined hp hq
      rcases Round.results_of_observe hc with hc₀ | rfl
      · exact h.ended k q₀ c hq₀ hc₀
      · rw [hp] at hq₀; cases hq₀
        exact Option.isSome_of_eq_some he }

/-- When a round ends well, all its partitions have ended. -/
theorem all_ended {v : View} {t : FeedTask} (h : Accounts t.parts r)
    (hc : (r.full || t.parts.all (·.joined)) = true) (hmore : t.roundEnd v r = .more) {j : Nat}
    {p : Partition} (hp : t.parts[j]? = some p) : p.ended?.isSome = true := by
  have hlt := (List.getElem?_eq_some_iff.mp hp).1
  have hrec : r.isRecorded j = true := by
    rcases Bool.or_eq_true_iff.mp hc with hfull | hall
    · exact h.tallied.isRecorded_of_full hfull (h.size_eq ▸ hlt)
    · exact h.joined j p hp (List.all_eq_true.mp hall p (List.mem_of_getElem? hp))
  obtain ⟨x, hx⟩ := (r.isRecorded_iff j).mp hrec
  have hfailure : r.failure? = none := by
    unfold roundEnd Round.verdict at hmore
    rcases hf : r.failure? with _ | e
    · rfl
    · rw [hf] at hmore
      simp only at hmore
      split at hmore
      · rename_i hv
        split at hv <;> cases hv
      · cases hmore
  rcases x with e | c
  · have := List.findSome?_eq_none_iff.mp hfailure _ (List.mem_of_getElem? hx)
    cases this
  · exact h.ended j p c hp hx

end Accounts

/-- Whether a feed in a phase has no partition at work: before the readers of a round are there, and while
it hands out after a round that ended well. -/
def Phase.isIdle : Phase → Bool
  | .asleep => true
  | .making _ => true
  | .acquiring _ => true
  | .starting _ => true
  | .opening => true
  | .creating => true
  | .releasing _ => true
  | .notifying _ => true
  | .created _ => true
  | .locking .more => true
  | .visiting _ _ .more => true
  | .writing _ _ .more => true
  | _ => false

/-- No partition is at work when a feed goes from one round to the next. -/
structure Rests (t : FeedTask) : Prop where
  idle : t.phase.isIdle = true → ∀ (j : Nat) (p : Partition), t.parts[j]? = some p →
    p.ended?.isSome = true
  reading : ∀ r, t.phase = .reading r → Accounts t.parts r

theorem Rule.rests {v : View} {t : FeedTask} {s : Shared} {a : Act} {next : Next}
    (h : Rule v t s a next) (ht : t.Rests) : next.task.Rests := by
  cases h with
  | starts hp hne =>
    exact {
      idle := by rintro ⟨⟩
      reading := by
        rintro r ⟨rfl⟩
        exact accounts_start t.label t.round _ }
  | applies hp hn =>
    exact {
      idle := by rintro ⟨⟩
      reading := by
        rintro r ⟨rfl⟩
        have hacc := ht.reading _ hp
        exact ⟨hacc.size_eq, hacc.tallied, hacc.joined, hacc.ended⟩ }
  | joins hp hn hf hj =>
    exact {
      idle := by rintro ⟨⟩
      reading := by
        rintro r ⟨rfl⟩
        have hacc := Accounts.join (ht.reading _ hp) hj
        exact hacc }
  | @closes r hp hn hc =>
    refine ⟨fun hidle j p hpart => (ht.reading r hp).all_ended (v := v) hc ?_ hpart, by rintro r ⟨⟩⟩
    revert hidle
    simp only [goto]
    generalize t.roundEnd v r = e
    cases e with
    | more => exact fun _ => rfl
    | last | failed => rintro ⟨⟩
  | findsNothing hp => exact ⟨by rintro ⟨⟩, by rintro r ⟨⟩⟩
  | @locks next hp _ | @visits _ _ _ next hp | @hasVisited _ next hp | @writes _ _ _ next hp =>
    refine ⟨fun hidle => ht.idle ?_, by rintro r ⟨⟩⟩
    rw [hp]
    cases next
    · cases hidle
    · rfl
    · cases hidle
  | @unlocks count next hp =>
    cases next with
    | more => exact ⟨fun _ => ht.idle (by rw [hp]; rfl), by rintro r ⟨⟩⟩
    | last | failed => exact ⟨by rintro ⟨⟩, by rintro r ⟨⟩⟩
  | begins hp | isDeclined hp | makes hp | acquireMoves hp | acquireRetries hp | acquires hp
  | saysStarting hp | hasStarted hp | opens hp | creates hp | createFails hp | quits hp | releases hp
  | notifies hp =>
    exact ⟨fun _ => ht.idle (by rw [hp]; rfl), by rintro r ⟨⟩⟩
  | _ => exact ⟨by rintro ⟨⟩, by rintro r ⟨⟩⟩

/-- A step of a partition. -/
theorem Rests.part {t : FeedTask} (ht : t.Rests) {v : Partition.View} {j : Nat} {p : Partition} {a : Act}
    {next : Partition.Next} (hp : t.parts[j]? = some p) (hr : Partition.Rule v p a next) (releases : Nat) :
    Rests { t with parts := t.parts.set j next.task, releases } where
  idle := by
    intro hidle
    have hended := ht.idle hidle j p hp
    rw [hr.ended?_eq_none] at hended
    cases hended
  reading := fun r hreading => (ht.reading r hreading).part hp hr

end FeedTask

/-! ### Creators and readers -/

/-- Whose code is called in the rounds of a feed. -/
inductive Party
  /-- The creator of a round. -/
  | creator (round : Nat)
  /-- The reader of the partition of an index in a round. -/
  | reader (round index : Nat)

namespace Party

def round : Party → Nat
  | .creator n => n
  | .reader n _ => n

/-- The stage of the round at which a feed comes to deal with the party. -/
def stage : Party → Nat
  | .creator _ => 1
  | .reader _ _ => 3

def isReader : Party → Bool
  | .creator _ => false
  | .reader _ _ => true

/-- The party of another round in the same place. -/
def inRound (n : Nat) : Party → Party
  | .creator _ => .creator n
  | .reader _ j => .reader n j

theorem inRound_round (who : Party) : who.inRound who.round = who := by
  cases who <;> rfl

/-- The task that deals with the party, for the feed of an index. -/
def actor (i : Nat) : Party → Actor
  | .creator _ => .feed i
  | .reader _ j => .partition i j

/-- The move by which that task goes on by itself. -/
def go (i : Nat) : Party → System.Move
  | .creator _ => .feed i .go
  | .reader _ j => .partition i j .go

end Party

/-- Whether an effect tells a task to release its resources. -/
def Effect.isRelease (who : Actor) : Effect → Bool
  | .release a => a == who
  | _ => false

theorem Effect.any_isRelease {effects : List Effect} {who : Actor} :
    effects.any (·.isRelease who) = true ↔ Effect.release who ∈ effects := by
  rw [List.any_eq_true]
  constructor
  · rintro ⟨e, he, hrelease⟩
    cases e with
    | release a => rwa [← beq_iff_eq.mp hrelease]
    | _ => cases hrelease
  · intro he
    exact ⟨_, he, beq_self_eq_true who⟩

/-- Whether a task in a phase has ended. -/
def Partition.Phase.hasEnded : Partition.Phase → Bool
  | .ended _ => true
  | _ => false

theorem Partition.hasEnded_phase (p : Partition) : p.phase.hasEnded = p.ended?.isSome := by
  unfold ended?
  rcases p.phase <;> rfl

theorem Partition.hasEnded_of_exchange? {p : Partition.Phase} {cancelled : Bool} {a : Act} {x : Exchange}
    (h : p.exchange? cancelled a = some x) : p.hasEnded = false := by
  cases p with
  | ended e => cases h
  | _ => rfl

namespace FeedTask

/-- The phase of the partition of an index. -/
def phaseOf (t : FeedTask) (j : Nat) : Option Partition.Phase := (t.parts[j]?).map (·.phase)

/-- Whether the feed, or the partition of a reader, is dealing with a party. -/
def deals (t : FeedTask) : Party → Bool
  | .creator n => t.round == n && t.phase.stage == 1
  | .reader n j => t.round == n && (t.phaseOf j).any (!·.hasEnded)

/-- Whether the feed has still to come to a party. -/
def Ahead (t : FeedTask) (who : Party) : Prop :=
  t.round < who.round ∨ (t.round = who.round ∧ t.phase.stage < who.stage)

/-- Whether the task that deals with a party has made its dealing what it is. -/
def FitsWith (t : FeedTask) : Party → Dealing → Prop
  | .creator _, d => t.phase.Fits d
  | .reader _ j, d => ∀ p, t.phaseOf j = some p → p.Fits d

theorem deals_creator {t : FeedTask} {n : Nat} :
    t.deals (.creator n) = true ↔ t.round = n ∧ t.phase.stage = 1 := by
  simp [deals]

theorem deals_reader {t : FeedTask} {n j : Nat} :
    t.deals (.reader n j) = true ↔ t.round = n ∧ ∃ p, t.phaseOf j = some p ∧ p.hasEnded = false := by
  simp [deals, Option.any_eq_true]

theorem Rests.hasEnded {t : FeedTask} (ht : t.Rests) (hidle : t.phase.isIdle = true) {j : Nat}
    {p : Partition.Phase} (hp : t.phaseOf j = some p) : p.hasEnded = true := by
  obtain ⟨q, hq, rfl⟩ := Option.map_eq_some_iff.mp hp
  rw [q.hasEnded_phase]
  exact ht.idle hidle j q hq

/-- A feed goes on in its round, or to the next one when no partition is at work. -/
theorem Rule.round {v : View} {t : FeedTask} {s : Shared} {a : Act} {next : Next}
    (h : Rule v t s a next) :
    (next.task.round = t.round ∧ t.phase.stage ≤ next.task.phase.stage) ∨
      (next.task.round = t.round + 1 ∧ next.task.phase = .making 0 ∧ t.phase.isIdle = true) := by
  cases h with
  | @unlocks count next hp =>
    cases next with
    | more => exact Or.inr ⟨rfl, rfl, by rw [hp]; rfl⟩
    | last | failed => exact Or.inl ⟨rfl, by rw [hp]; exact Nat.le_refl 3⟩
  | joins hp hn hf hj =>
    obtain ⟨parts, rfl⟩ := join_frame hj
    exact Or.inl ⟨rfl, by rw [hp]; exact Nat.le_refl 3⟩
  | _ hp => exact Or.inl ⟨rfl, by rw [hp]; exact Nat.le_of_ble_eq_true rfl⟩

theorem phaseOf_taken {t : FeedTask} {j : Nat} {p : Partition} (hp : t.parts[j]? = some p)
    (indices : List Nat) (k : Nat) : (t.taken j p indices).phaseOf k = t.phaseOf k := by
  have hj := (List.getElem?_eq_some_iff.mp hp).1
  simp only [FeedTask.phaseOf, taken, getElem?_haltParts, Option.map_map]
  by_cases hjk : j = k
  · subst hjk
    rw [List.getElem?_set_self hj, hp]
    by_cases hmem : j ∈ indices <;> simp [hmem]
  · rw [List.getElem?_set_ne hjk]
    by_cases hmem : k ∈ indices <;> simp [hmem, Function.comp_def]

/-- A feed does not touch the tasks of its partitions, except that it begins those of a new round. -/
theorem Rule.phaseOf {v : View} {t : FeedTask} {s : Shared} {a : Act} {next : Next}
    (h : Rule v t s a next) :
    (∀ j, next.task.phaseOf j = t.phaseOf j) ∨
      ∃ readers, t.phase = .created readers ∧ next.task.parts = partitions readers ∧
        next.task.round = t.round ∧ next.task.phase.stage = 3 := by
  cases h with
  | joins hp hn hf hj =>
    obtain ⟨p, e, hpart, -, rfl, rfl⟩ := eq_taken_of_join hj
    exact Or.inl (phaseOf_taken hpart _)
  | findsNothing hp => exact Or.inr ⟨[], hp, rfl, rfl, rfl⟩
  | starts hp hne => exact Or.inr ⟨_, hp, rfl, rfl, rfl⟩
  | @unlocks count next hp => cases next <;> exact Or.inl fun _ => rfl
  | _ => exact Or.inl fun _ => rfl

theorem Rule.not_ahead {v : View} {t : FeedTask} {s : Shared} {a : Act} {next : Next} {who : Party}
    (h : Rule v t s a next) (ht : ¬ t.Ahead who) : ¬ next.task.Ahead who := by
  unfold Ahead at ht ⊢
  rcases h.round with ⟨hround, hstage⟩ | ⟨hround, hphase, -⟩
  · omega
  · omega

/-- A feed comes to deal with a creator when a factory has made one. -/
theorem Rule.makes_of_stage {v : View} {t : FeedTask} {s : Shared} {a : Act} {next : Next}
    (h : Rule v t s a next) (hs : t.phase.stage ≠ 1) (hs' : next.task.phase.stage = 1) :
    t.phase.stage = 0 ∧ next.task.phase = .acquiring .fresh ∧ next.task.round = t.round := by
  cases h with
  | makes hp => exact ⟨by rw [hp]; rfl, rfl, rfl⟩
  | @unlocks count next hp => cases next <;> cases hs'
  | acquireMoves hp | acquireRetries hp | acquires hp | saysStarting hp | hasStarted hp | opens hp
  | creates hp | createFails hp | quits hp | releases hp =>
    rw [hp] at hs
    exact absurd rfl hs
  | _ => cases hs'

/-- A feed begins to deal with a party from the first probe on, and with each party once. -/
theorem Rule.fitsWith {v : View} {t : FeedTask} {s : Shared} {a : Act} {next : Next} {who : Party}
    (h : Rule v t s a next) (ht : t.Rests) (hd : t.deals who = false)
    (hd' : next.task.deals who = true) : t.Ahead who ∧ ¬ next.task.Ahead who ∧
      next.task.FitsWith who .probing := by
  cases who with
  | creator n =>
    obtain ⟨hround', hstage'⟩ := deals_creator.mp hd'
    have hstage : t.phase.stage ≠ 1 := by
      intro hstage
      rcases h.round with ⟨hround, -⟩ | ⟨-, hphase, -⟩
      · rw [deals_creator.mpr ⟨hround.symm.trans hround', hstage⟩] at hd
        cases hd
      · rw [hphase] at hstage'
        cases hstage'
    obtain ⟨hzero, hphase, hround⟩ := h.makes_of_stage hstage hstage'
    refine ⟨Or.inr ⟨hround.symm.trans hround', ?_⟩, ?_, ?_⟩
    · rw [hzero]
      exact Nat.one_pos
    · simp only [Ahead, Party.round, Party.stage, hround', hstage']
      omega
    · simp only [FitsWith, hphase]
      rfl
  | reader n j =>
    obtain ⟨hround', p, hp, hended⟩ := deals_reader.mp hd'
    rcases h.phaseOf with hsame | ⟨readers, hphase, hparts, hround, hstage'⟩
    · -- the partition was there before, so it is in the round before
      rw [hsame] at hp
      rcases h.round with ⟨hround, -⟩ | ⟨-, -, hidle⟩
      · rw [deals_reader.mpr ⟨hround.symm.trans hround', p, hp, hended⟩] at hd
        cases hd
      · rw [ht.hasEnded hidle hp] at hended
        cases hended
    · refine ⟨Or.inr ⟨hround.symm.trans hround', by rw [hphase]; exact Nat.lt_succ_self 2⟩, ?_, ?_⟩
      · simp only [Ahead, Party.round, Party.stage, hround', hstage']
        omega
      · intro q hq
        rw [FeedTask.phaseOf, hparts, partitions, List.getElem?_mapIdx] at hq
        simp only [Option.map_map, Option.map_eq_some_iff] at hq
        obtain ⟨unlimited, -, rfl⟩ := hq
        exact Partition.fits_start j unlimited

/-- A feed that deals with a creator goes on with it by the protocol, and leaves the readers that are dealt
with alone. -/
theorem Rule.goesOn {v : View} {t : FeedTask} {s : Shared} {a : Act} {next : Next} {d : Dealing}
    (h : Rule v t s a next) (ht : t.Rests) :
    (∀ n, t.deals (.creator n) = true → t.FitsWith (.creator n) d →
      ∃ d', d.onward (t.phase.exchange? (t.cancelledIn v) a) = some d' ∧
        next.task.FitsWith (.creator n) d' ∧
        (next.task.deals (.creator n) = false → d'.isOver false = true)) ∧
    (∀ n j, t.deals (.reader n j) = true → t.FitsWith (.reader n j) d →
      next.task.deals (.reader n j) = true ∧ next.task.FitsWith (.reader n j) d) := by
  constructor
  · intro n hd hfits
    obtain ⟨hround, hstage⟩ := deals_creator.mp hd
    obtain ⟨d', hd', hfits', hround'⟩ := h.onward hstage hfits
    refine ⟨d', hd', hfits', fun hgone => isOver_of_stage hfits' fun hstage' => ?_⟩
    rw [deals_creator.mpr ⟨hround'.trans hround, hstage'⟩] at hgone
    cases hgone
  · intro n j hd hfits
    obtain ⟨hround, p, hp, hended⟩ := deals_reader.mp hd
    have hbusy : t.phase.isIdle ≠ true := by
      intro hidle
      rw [ht.hasEnded hidle hp] at hended
      cases hended
    rcases h.phaseOf with hsame | ⟨readers, hphase, -⟩
    · rcases h.round with ⟨hround', -⟩ | ⟨-, -, hidle⟩
      · refine ⟨deals_reader.mpr ⟨hround'.trans hround, p, by rw [hsame]; exact hp, hended⟩, ?_⟩
        intro q hq
        rw [hsame] at hq
        exact hfits q hq
      · exact absurd hidle hbusy
    · exact absurd (by rw [hphase]; rfl) hbusy

/-! #### Steps of partitions -/

section

variable {t : FeedTask} {v : Partition.View} {j : Nat} {p : Partition} {a : Act} {next : Partition.Next}
  {releases : Nat}

theorem phaseOf_set (hp : t.parts[j]? = some p) (k : Nat) :
    phaseOf { t with parts := t.parts.set j next.task, releases } k =
      if j = k then some next.task.phase else t.phaseOf k := by
  have hj := (List.getElem?_eq_some_iff.mp hp).1
  simp only [phaseOf]
  by_cases hjk : j = k
  · subst hjk
    simp [List.getElem?_set_self hj]
  · simp [List.getElem?_set_ne hjk, hjk]

/-- The reader of a partition that makes a step is dealt with. -/
theorem deals_of_part (hp : t.parts[j]? = some p) (hr : Partition.Rule v p a next) :
    t.deals (.reader t.round j) = true := by
  refine deals_reader.mpr ⟨rfl, p.phase, by rw [phaseOf, hp]; rfl, ?_⟩
  rw [p.hasEnded_phase, hr.ended?_eq_none]
  rfl

/-- A step of another partition, or of a partition of another round, is nothing to a party. -/
theorem deals_of_other_part (hp : t.parts[j]? = some p) {who : Party} (hwho : ∀ n, who ≠ .reader n j) :
    deals { t with parts := t.parts.set j next.task, releases } who = t.deals who ∧
      ∀ d, t.FitsWith who d → FitsWith { t with parts := t.parts.set j next.task, releases } who d := by
  cases who with
  | creator n => exact ⟨rfl, fun _ hd => hd⟩
  | reader n k =>
    have hjk : ¬ j = k := fun hjk => hwho n (hjk ▸ rfl)
    refine ⟨?_, fun d hd q hq => ?_⟩
    · simp only [deals, phaseOf_set hp, if_neg hjk]
    · rw [phaseOf_set hp, if_neg hjk] at hq
      exact hd q hq

/-- A partition that deals with its reader goes on with it by the protocol. -/
theorem part_goesOn (hp : t.parts[j]? = some p) (hr : Partition.Rule v p a next) {d : Dealing}
    (hfits : t.FitsWith (.reader t.round j) d) :
    ∃ d', d.onward (p.phase.exchange? v.cancelled a) = some d' ∧
      FitsWith { t with parts := t.parts.set j next.task, releases } (.reader t.round j) d' ∧
      (deals { t with parts := t.parts.set j next.task, releases } (.reader t.round j) = false →
        d'.isOver true = true) := by
  obtain ⟨d', hd', hfits'⟩ := hr.onward (hfits p.phase (by rw [phaseOf, hp]; rfl))
  refine ⟨d', hd', fun q hq => ?_, fun hgone => Partition.isOver_of_ended hfits' ?_⟩
  · rw [phaseOf_set hp, if_pos rfl] at hq
    cases hq
    exact hfits'
  · rw [← next.task.hasEnded_phase]
    by_contra hended
    rw [deals_reader.mpr ⟨rfl, next.task.phase, by rw [phaseOf_set hp, if_pos rfl],
      Bool.eq_false_iff.mpr hended⟩] at hgone
    cases hgone

end

end FeedTask

end Intake.Read
