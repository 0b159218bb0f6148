import Intake.Proofs.Parties
/-!
# Every creator and every reader is dealt with by the protocol

In a read the tasks of all feeds and partitions go on in any order, and anybody may be cancelled at any time.
`exchange?` says what passes between a task and the party it deals with in a move, and `dealings` what has
passed in some steps. A party is still to come, is being dealt with, or is done with (`Course`), and
`Course.step` says that every step of a read keeps this, whoever makes it.

The main statements are about every party of every feed, and about all runs:

* `calls_follow_protocol`: what passes with code that does not crash is a word of the grammar, or the
  beginning of one. No poll begins for a reader that is cancelled, and nothing more comes of such a reader
  unless it is in a poll already (`Forgone.run`).
* `released_unless_crashed`: code that got its resources is told once to release them, unless it crashes while
  it runs.
-/

namespace Intake.Read

namespace System

/-! ### One step of a read -/

/-- The exchange with a creator or a reader of the feed of an index that a move is, if it is one. -/
def exchange? (s : System) (i : Nat) : Party → Move → Option Exchange
  | .creator n, .feed k a =>
    if k = i then
      (s.feeds[i]?).bind fun t =>
        if t.round = n then t.phase.exchange? (t.cancelledIn (s.feedView i)) a else none
    else none
  | .reader n j, .partition k l a =>
    if k = i ∧ l = j then
      (s.feeds[i]?).bind fun t =>
        if t.round = n then
          (t.parts[j]?).bind fun p => p.phase.exchange? (t.partView (s.feedView i) j p).cancelled a
        else none
    else none
  | _, _ => none

section

variable {s s' : System} {move : Move} {effects : List Effect} {i : Nat} {t t' : FeedTask} {who : Party}

/-- What passes with a creator passes in a step of the feed, and what passes with a reader in one of its
partition. -/
theorem exchange?_cases {x : Exchange} (hx : s.exchange? i who move = some x) :
    (∃ a t, who = .creator t.round ∧ move = .feed i a ∧ s.feeds[i]? = some t ∧
      t.phase.exchange? (t.cancelledIn (s.feedView i)) a = some x) ∨
    (∃ j a t p, who = .reader t.round j ∧ move = .partition i j a ∧ s.feeds[i]? = some t ∧
      t.parts[j]? = some p ∧ p.phase.exchange? (t.partView (s.feedView i) j p).cancelled a = some x) := by
  unfold exchange? at hx
  split at hx
  · split at hx
    · rename_i hk
      subst hk
      obtain ⟨t, ht, hround⟩ := Option.bind_eq_some_iff.mp hx
      obtain ⟨rfl, hphase⟩ := Option.ite_none_right_eq_some.mp hround
      exact Or.inl ⟨_, t, rfl, rfl, ht, hphase⟩
    · cases hx
  · split at hx
    · rename_i hk
      obtain ⟨rfl, rfl⟩ := hk
      obtain ⟨t, ht, hround⟩ := Option.bind_eq_some_iff.mp hx
      obtain ⟨rfl, hpart⟩ := Option.ite_none_right_eq_some.mp hround
      obtain ⟨p, hp, hphase⟩ := Option.bind_eq_some_iff.mp hpart
      exact Or.inr ⟨_, _, t, p, rfl, rfl, ht, hp, hphase⟩
    · cases hx
  · cases hx

/-- What passes with the creator of the present round is read off the phase of the feed. -/
theorem exchange?_feed (ht : s.feeds[i]? = some t) (a : Act) :
    s.exchange? i (.creator t.round) (.feed i a) =
      t.phase.exchange? (t.cancelledIn (s.feedView i)) a := by
  simp only [exchange?, ht, Option.bind_some, if_true]

/-- What passes with a reader of the present round is read off the phase of its partition. -/
theorem exchange?_partition {j : Nat} {p : Partition} (ht : s.feeds[i]? = some t)
    (hp : t.parts[j]? = some p) (a : Act) :
    s.exchange? i (.reader t.round j) (.partition i j a) =
      p.phase.exchange? (t.partView (s.feedView i) j p).cancelled a := by
  simp only [exchange?, ht, hp, Option.bind_some, and_self, if_true]

/-- What passes, passes with a party that is dealt with. -/
theorem deals_of_exchange? {x : Exchange} (ht : s.feeds[i]? = some t)
    (hx : s.exchange? i who move = some x) : t.deals who = true := by
  rcases exchange?_cases hx with ⟨a, u, rfl, -, hu, hx⟩ | ⟨j, a, u, p, rfl, -, hu, hp, hx⟩
  · rw [ht] at hu; cases hu
    exact FeedTask.deals_creator.mpr ⟨rfl, FeedTask.stage_of_exchange? hx⟩
  · rw [ht] at hu; cases hu
    refine FeedTask.deals_reader.mpr ⟨rfl, p.phase, by rw [FeedTask.phaseOf, hp]; rfl, ?_⟩
    exact Partition.hasEnded_of_exchange? hx

/-- The sides of a step for the feed of an index: its own step, a step of one of its partitions, or neither. -/
theorem step_sides (h : s.step move = some (s', effects)) (ht : s.feeds[i]? = some t)
    (ht' : s'.feeds[i]? = some t') :
    (∃ a next, move = .feed i a ∧ FeedTask.Rule (s.feedView i) t s.shared a next ∧ t' = next.task ∧
      effects = next.effects) ∨
    (∃ j a p next, move = .partition i j a ∧ t.parts[j]? = some p ∧
      Partition.Rule (t.partView (s.feedView i) j p) p a next ∧
      t' = { t with
        parts := t.parts.set j next.task
        releases := if next.notified then t.releases + 1 else t.releases } ∧
      effects = next.effects) ∨
    ((∀ a, move ≠ .feed i a) ∧ (∀ j a, move ≠ .partition i j a) ∧
      ∃ halted cause, t' = { t with halted, cause }) := by
  have hlt := (List.getElem?_eq_some_iff.mp ht).1
  by_cases hm : ∃ j a, move = .partition i j a
  · obtain ⟨j, a, rfl⟩ := hm
    obtain ⟨u, p, next, hu, hp, hr, rfl, rfl⟩ := step_partition_gate h
    rw [ht] at hu; cases hu
    rw [List.getElem?_set_self hlt] at ht'; cases ht'
    exact Or.inr (Or.inl ⟨j, a, p, next, rfl, hp, hr, rfl, rfl⟩)
  · rcases step_at h ht with ⟨a, next, hmove, hr, rfl, he⟩ | ⟨j, a, p, next, releases, hmove, -⟩ |
      ⟨hne, halted, cause, hu, -⟩
    · rw [List.getElem?_set_self hlt] at ht'; cases ht'
      exact Or.inl ⟨a, next, hmove, hr, rfl, he⟩
    · exact absurd ⟨j, a, hmove⟩ hm
    · rw [ht'] at hu; cases hu
      exact Or.inr (Or.inr ⟨hne, fun j a hmove => hm ⟨j, a, hmove⟩, halted, cause, rfl⟩)

/-- Feeds rest between their rounds, whoever makes a step. -/
theorem rests_step (h : s.step move = some (s', effects)) (ht : s.feeds[i]? = some t)
    (ht' : s'.feeds[i]? = some t') (hrests : t.Rests) : t'.Rests := by
  rcases step_sides h ht ht' with ⟨a, next, -, hr, rfl, -⟩ | ⟨j, a, p, next, -, hp, hr, rfl, -⟩ |
    ⟨-, -, halted, cause, rfl⟩
  · exact hr.rests hrests
  · exact hrests.part hp hr _
  · exact ⟨hrests.idle, hrests.reading⟩

/-- A party that is not to come any more does not come back. -/
theorem not_ahead_step (h : s.step move = some (s', effects)) (ht : s.feeds[i]? = some t)
    (ht' : s'.feeds[i]? = some t') (hwho : ¬ t.Ahead who) : ¬ t'.Ahead who := by
  rcases step_sides h ht ht' with ⟨a, next, -, hr, rfl, -⟩ | ⟨j, a, p, next, -, hp, hr, rfl, -⟩ |
    ⟨-, -, halted, cause, rfl⟩
  · exact hr.not_ahead hwho
  · exact hwho
  · exact hwho

/-- A feed that is cancelled stays so. -/
theorem cancelledIn_step (h : s.step move = some (s', effects)) (ht : s.feeds[i]? = some t)
    (ht' : s'.feeds[i]? = some t') (hc : t.cancelledIn (s.feedView i) = true) :
    t'.cancelledIn (s'.feedView i) = true := by
  rcases Bool.or_eq_true_iff.mp hc with hread | hhalted
  · exact Bool.or_eq_true_iff.mpr (Or.inl (cancelled_step h hread))
  · refine Bool.or_eq_true_iff.mpr (Or.inr ?_)
    rcases step_task h ht ht' with ⟨a, next, -, hr, rfl⟩ | ⟨_, _, rfl⟩ | ⟨_, _, -, rfl⟩ | ⟨_, -, rfl⟩
    · exact hr.frame.2.1.trans hhalted
    · exact hhalted
    · exact hhalted
    · rfl

/-- A dealing begins from the first probe on, and with each party once. -/
theorem fitsWith_step (h : s.step move = some (s', effects)) (ht : s.feeds[i]? = some t)
    (ht' : s'.feeds[i]? = some t') (hrests : t.Rests) (hd : t.deals who = false)
    (hd' : t'.deals who = true) : t.Ahead who ∧ ¬ t'.Ahead who ∧ t'.FitsWith who .probing := by
  rcases step_sides h ht ht' with ⟨a, next, -, hr, rfl, -⟩ | ⟨j, a, p, next, -, hp, hr, rfl, -⟩ |
    ⟨-, -, halted, cause, rfl⟩
  · exact hr.fitsWith hrests hd hd'
  · by_cases hwho : ∃ n, who = .reader n j
    · obtain ⟨n, rfl⟩ := hwho
      obtain ⟨rfl, -⟩ := FeedTask.deals_reader.mp hd'
      have hdeals := FeedTask.deals_of_part hp hr
      exact absurd (hdeals.symm.trans hd) Bool.noConfusion
    · rw [(FeedTask.deals_of_other_part hp fun n hn => hwho ⟨n, hn⟩).1, hd] at hd'
      cases hd'
  · cases who <;> exact absurd (hd'.symm.trans hd) Bool.noConfusion

/-- A dealing goes on by the protocol, and ends when it is over. -/
theorem goesOn_step (h : s.step move = some (s', effects)) (ht : s.feeds[i]? = some t)
    (ht' : s'.feeds[i]? = some t') (hrests : t.Rests) {d : Dealing} (hd : t.deals who = true)
    (hfits : t.FitsWith who d) :
    ∃ d', d.onward (s.exchange? i who move) = some d' ∧ t'.FitsWith who d' ∧
      (t'.deals who = false → d'.isOver who.isReader = true) := by
  -- when nothing passes, the dealing stays as it is
  have quiet : s.exchange? i who move = none → t'.deals who = t.deals who → t'.FitsWith who d →
      ∃ d', d.onward (s.exchange? i who move) = some d' ∧ t'.FitsWith who d' ∧
        (t'.deals who = false → d'.isOver who.isReader = true) := by
    intro hx hdeals hfits'
    refine ⟨d, by rw [hx]; rfl, hfits', fun hgone => ?_⟩
    rw [hdeals, hd] at hgone
    cases hgone
  rcases step_sides h ht ht' with ⟨a, next, rfl, hr, rfl, -⟩ | ⟨j, a, p, next, rfl, hp, hr, rfl, -⟩ |
    ⟨hfeed, hpart, halted, cause, rfl⟩
  · cases who with
    | creator n =>
      obtain ⟨rfl, -⟩ := FeedTask.deals_creator.mp hd
      rw [exchange?_feed ht]
      exact (hr.goesOn hrests).1 t.round hd hfits
    | reader n j =>
      obtain ⟨hdeals, hfits'⟩ := (hr.goesOn hrests).2 n j hd hfits
      exact quiet rfl (hdeals.trans hd.symm) hfits'
  · by_cases hwho : ∃ n, who = .reader n j
    · obtain ⟨n, rfl⟩ := hwho
      obtain ⟨rfl, -⟩ := FeedTask.deals_reader.mp hd
      rw [exchange?_partition ht hp]
      exact FeedTask.part_goesOn hp hr hfits
    · obtain ⟨hdeals, hfits'⟩ := FeedTask.deals_of_other_part hp fun n hn => hwho ⟨n, hn⟩
      refine quiet ?_ hdeals (hfits' d hfits)
      cases who with
      | creator n => rfl
      | reader n k =>
        rw [exchange?, if_neg]
        rintro ⟨-, rfl⟩
        exact hwho ⟨n, rfl⟩
  · have hx : s.exchange? i who move = none := by
      unfold exchange?
      split
      · rw [if_neg]
        rintro rfl
        exact hfeed _ rfl
      · rw [if_neg]
        rintro ⟨rfl, -⟩
        exact hpart _ _ rfl
      · rfl
    cases who <;> exact quiet hx rfl hfits

end

/-! ### What stands behind an exchange -/

/-- Whether the task that deals with a party is cancelled. -/
def cancelledFor (s : System) (i : Nat) (who : Party) : Bool :=
  (s.feeds[i]?).any fun t =>
    match who with
    | .creator _ => t.cancelledIn (s.feedView i)
    | .reader _ j => t.cancelledIn (s.feedView i) || (t.parts[j]?).any (·.halted)

/-- Whether the run of a party has a limit. -/
def limits (s : System) (i : Nat) : Party → Bool
  | .creator _ => false
  | .reader _ j =>
    s.settings.partitionTimeout.isSome && (s.feeds[i]?).any fun t => (t.parts[j]?).any (!·.unlimited)

/-- The number of releases that the gate of a feed has been told of. -/
def gate (s : System) (i : Nat) : Nat := (s.feeds[i]?).elim 0 (·.releases)

theorem limits_of_limit {s : System} {i n j : Nat} {t : FeedTask} {p : Partition}
    (ht : s.feeds[i]? = some t) (hp : t.parts[j]? = some p)
    (h : (p.limit (t.partView (s.feedView i) j p)).isSome = true) : s.limits i (.reader n j) = true := by
  unfold Partition.limit at h
  split at h
  · cases h
  · rename_i hu
    have htimeout : s.settings.partitionTimeout.isSome = true := h
    simp [limits, ht, hp, hu, htimeout]

/-- What stands behind an exchange with a party. -/
theorem step_backed {s s' : System} {move : Move} {effects : List Effect} {i : Nat} {who : Party}
    {x : Exchange} (h : s.step move = some (s', effects)) (hx : s.exchange? i who move = some x) :
    x.Backed (s.cancelledFor i who = true) (s.limits i who = true)
      (Effect.release (who.actor i) ∈ effects) (s'.gate i = s.gate i + 1) := by
  rcases exchange?_cases hx with ⟨a, t, rfl, rfl, ht, hx⟩ | ⟨j, a, t, p, rfl, rfl, ht, hp, hx⟩
  · obtain ⟨u, next, hu, hr, rfl, rfl⟩ := step_feed h
    rw [ht] at hu; cases hu
    have hlt := (List.getElem?_eq_some_iff.mp ht).1
    refine (hr.backed hx).imp (fun hc => ?_) False.elim id (fun hn => ?_)
    · rw [cancelledFor, ht]
      exact hc
    · simp only [gate, ht, List.getElem?_set_self hlt]
      exact hn
  · obtain ⟨u, q, next, hu, hq, hr, rfl, rfl⟩ := step_partition_gate h
    rw [ht] at hu; cases hu
    rw [hp] at hq; cases hq
    have hlt := (List.getElem?_eq_some_iff.mp ht).1
    refine (hr.backed hx).imp (fun hc => ?_) (limits_of_limit ht hp) id (fun hn => ?_)
    · simp only [cancelledFor, ht, hp, Option.any_some]
      exact hc
    · simp only [gate, ht, List.getElem?_set_self hlt, hn, if_true, Option.elim_some]

/-- A party is told to release its resources by nothing but this exchange with it. -/
theorem exchange?_of_release {s s' : System} {move : Move} {effects : List Effect} {i : Nat} {who : Party}
    (h : s.step move = some (s', effects)) (he : Effect.release (who.actor i) ∈ effects) :
    ∃ t, s.feeds[i]? = some t ∧ s.exchange? i (who.inRound t.round) move = some .release := by
  cases move with
  | feed k a =>
    obtain ⟨t, next, ht, hr, -, rfl⟩ := step_feed h
    obtain ⟨hactor, hx⟩ := hr.exchange?_of_release he
    cases who with
    | creator n =>
      cases hactor
      exact ⟨t, ht, (exchange?_feed ht a).trans hx⟩
    | reader n j => cases hactor
  | partition k l a =>
    obtain ⟨t, p, next, ht, hp, hr, -, rfl⟩ := step_partition_gate h
    obtain ⟨hactor, hx⟩ := hr.exchange?_of_release he
    cases who with
    | creator n => cases hactor
    | reader n j =>
      cases hactor
      exact ⟨t, ht, (exchange?_partition ht hp a).trans hx⟩
  | supervise =>
    cases supervision_of_supervise h with
    | buries => simp [FeedTask.tell] at he
    | _ => simp at he
  | cancel | reset _ => cases h; cases he
  | record r => cases h; simp at he

/-- Whether a step tells a party to release its resources. -/
def Step.releases (i : Nat) (who : Party) (st : Step) : Bool :=
  (st.before.feeds[i]?).any (·.round == who.round) && st.effects.any (·.isRelease (who.actor i))

/-- A release is nothing but the exchange of that name. -/
theorem Step.releases_iff {i : Nat} {who : Party} {st : Step}
    (h : st.before.step st.move = some (st.after, st.effects)) :
    st.releases i who = true ↔ st.before.exchange? i who st.move = some .release := by
  simp only [releases, Bool.and_eq_true, Effect.any_isRelease]
  constructor
  · rintro ⟨hround, he⟩
    obtain ⟨t, ht, hx⟩ := exchange?_of_release h he
    rw [ht, Option.any_some, beq_iff_eq] at hround
    rwa [hround, Party.inRound_round] at hx
  · intro hx
    refine ⟨?_, step_backed h hx⟩
    rcases exchange?_cases hx with ⟨a, t, rfl, -, ht, -⟩ | ⟨j, a, t, p, rfl, -, ht, -⟩ <;>
      simp [ht, Party.round]

/-! ### Polls -/

end System

namespace FeedTask

/-- Whether the partition of an index, as long as it is there, is cancelled and forgoes what its reader might
answer. -/
def Forgone (v : View) (t : FeedTask) (j : Nat) : Prop :=
  ∀ p, t.parts[j]? = some p → (t.cancelledIn v || p.halted) = true ∧ p.phase.forgoes = true

variable {v : View} {t : FeedTask} {j : Nat}

/-- A reader stays forgone while its partition is the same and it stays cancelled. -/
theorem Forgone.mono {v' : View} {t' : FeedTask} (h : t.Forgone v j) (hparts : t'.parts = t.parts)
    (hc : t.cancelledIn v = true → t'.cancelledIn v' = true) : t'.Forgone v' j := by
  intro p hp
  rw [hparts] at hp
  obtain ⟨hcancelled, hforgoes⟩ := h p hp
  refine ⟨?_, hforgoes⟩
  rcases Bool.or_eq_true_iff.mp hcancelled with hfeed | hhalted
  · rw [hc hfeed, Bool.true_or]
  · rw [hhalted, Bool.or_true]

/-- A feed does not touch its partitions while they run, except that it stops some. -/
theorem Rule.forgone {s : Shared} {a : Act} {next : Next} (hr : Rule v t s a next)
    (hstage : ¬ t.phase.stage < 3) (h : t.Forgone v j) : next.task.Forgone v j := by
  have hsame := hr.cancelledIn_eq v
  cases hr with
  | joins hp hn hf hj =>
    obtain ⟨p, e, hpart, -, rfl, rfl⟩ := eq_taken_of_join hj
    intro q hq
    obtain ⟨q₀, hq₀, rfl⟩ := getElem?_joined hpart hq
    obtain ⟨hcancelled, hforgoes⟩ := h q₀ hq₀
    refine ⟨?_, hforgoes⟩
    rw [hsame, ← Bool.or_assoc, hcancelled, Bool.true_or]
  | findsNothing hp | starts hp => rw [hp] at hstage; exact absurd (Nat.lt_succ_self 2) hstage
  | @unlocks count next hp => cases next <;> exact h.mono rfl id
  | _ => exact h.mono rfl id

/-- A step of a partition. -/
theorem Forgone.part {l : Nat} {p : Partition} {a : Act} {next : Partition.Next} {releases : Nat}
    (h : t.Forgone v j) (hp : t.parts[l]? = some p)
    (hr : Partition.Rule (t.partView v l p) p a next) :
    Forgone v { t with parts := t.parts.set l next.task, releases } j := by
  intro q hq
  by_cases hlj : l = j
  · subst hlj
    rw [List.getElem?_set_self (List.getElem?_eq_some_iff.mp hp).1] at hq
    cases hq
    obtain ⟨hcancelled, hforgoes⟩ := h p hp
    rw [hr.frame.1]
    exact ⟨hcancelled, (hr.forgoes hcancelled hforgoes).1⟩
  · rw [List.getElem?_set_ne hlj] at hq
    exact h q hq

end FeedTask

namespace System

/-- Whether the run of a party is being polled, as that of a reader is. -/
def polls (s : System) (i : Nat) : Party → Bool
  | .creator _ => false
  | .reader n j => (s.feeds[i]?).any fun t => t.round == n && (t.phaseOf j).any (·.isPolling)

/-- A reader is polled if the task of its partition is in a poll. -/
theorem polls_reader {s : System} {i n j : Nat} : s.polls i (.reader n j) = true ↔
    ∃ t p, s.feeds[i]? = some t ∧ t.round = n ∧ t.phaseOf j = some p ∧ p.isPolling = true := by
  simp [polls, Option.any_eq_true]

/-- A reader is cancelled if the task of its partition is. -/
theorem cancelledFor_reader {s : System} {i j : Nat} {t : FeedTask} {p : Partition} (n : Nat)
    (ht : s.feeds[i]? = some t) (hp : t.parts[j]? = some p) :
    s.cancelledFor i (.reader n j) = (t.partView (s.feedView i) j p).cancelled := by
  simp only [cancelledFor, ht, hp, Option.any_some]
  rfl

section
variable {s s' : System} {move : Move} {effects : List Effect} {i : Nat} {t t' : FeedTask}

/-- A poll begins only while its reader is not cancelled. -/
theorem cancelledFor_of_polls {who : Party} (h : s.step move = some (s', effects))
    (hrests : ∀ t, s.feeds[i]? = some t → t.Rests) (hbefore : s.polls i who = false)
    (hafter : s'.polls i who = true) : s.cancelledFor i who = false := by
  rcases who with n | ⟨n, j⟩
  · cases hafter
  · obtain ⟨t', phase, ht', hround', hphase, hpolls⟩ := polls_reader.mp hafter
    obtain ⟨t, ht⟩ := exists_before h ht'
    -- the partition was not in a poll of this round before
    have hnew : t.round = n → t.phaseOf j ≠ some phase := by
      intro hround hsame
      rw [polls_reader.mpr ⟨t, phase, ht, hround, hsame, hpolls⟩] at hbefore
      cases hbefore
    rcases step_sides h ht ht' with ⟨a, next, -, hr, rfl, -⟩ | ⟨l, a, p, next, -, hp, hr, rfl, -⟩ |
      ⟨-, -, halted, cause, rfl⟩
    · rcases hr.phaseOf with hsame | ⟨readers, -, hparts, -, -⟩
      · rw [hsame] at hphase
        rcases hr.round with ⟨hround, -⟩ | ⟨-, -, hidle⟩
        · exact absurd hphase (hnew (hround.symm.trans hround'))
        · have hended := (hrests t ht).hasEnded hidle hphase
          cases phase with
          | polling => cases hended
          | _ => cases hpolls
      · rw [FeedTask.phaseOf, hparts, Option.map_eq_some_iff] at hphase
        obtain ⟨q, hq, rfl⟩ := hphase
        obtain ⟨u, rfl⟩ := FeedTask.eq_start_of_partitions hq
        rw [Partition.start] at hpolls
        split at hpolls <;> cases hpolls
    · rw [FeedTask.phaseOf_set hp] at hphase
      split at hphase
      · rename_i hlj
        subst hlj
        cases hphase
        rw [cancelledFor_reader n ht hp]
        exact hr.cancelled_of_isPolling hpolls
      · exact absurd hphase (hnew hround')
    · exact absurd hphase (hnew hround')

/-- A run of a reader ends in a poll, unless it is given up. -/
theorem polls_of_exchange? {who : Party} {how : RunEnd} (hwho : who.isReader = true)
    (hx : s.exchange? i who move = some (.ran how)) (hhow : how ≠ .cancelled) : s.polls i who = true := by
  rcases exchange?_cases hx with ⟨a, t, rfl, -, -⟩ | ⟨j, a, t, p, rfl, -, ht, hp, hx⟩
  · cases hwho
  · refine polls_reader.mpr ⟨t, p.phase, ht, rfl, by rw [FeedTask.phaseOf, hp]; rfl, ?_⟩
    exact Partition.isPolling_of_exchange? hx hhow

end

/-- Whether nothing more comes of the polls of a reader: its feed has gone past its round, or it is cancelled and
not polled in it. -/
def Forgone (s : System) (i n j : Nat) : Prop :=
  ∃ t, s.feeds[i]? = some t ∧ ¬ t.Ahead (.reader n j) ∧ (t.round = n → t.Forgone (s.feedView i) j)

/-- A reader that is forgone stays so, and what passes with it does not come of a poll. -/
theorem Forgone.step {s s' : System} {move : Move} {effects : List Effect} {i n j : Nat}
    (hf : s.Forgone i n j) (h : s.step move = some (s', effects)) :
    s'.Forgone i n j ∧ ∀ x, s.exchange? i (.reader n j) move = some x → x.comesOfPoll = false := by
  obtain ⟨t, ht, hahead, hforgone⟩ := hf
  obtain ⟨t', ht', -⟩ := exists_after h ht
  have hmono := cancelledIn_step h ht ht'
  refine ⟨⟨t', ht', not_ahead_step h ht ht' hahead, fun hround' => ?_⟩, fun x hx => ?_⟩
  · rcases step_sides h ht ht' with ⟨a, next, -, hr, rfl, -⟩ | ⟨l, a, p, next, -, hp, hr, rfl, -⟩ |
      ⟨-, -, halted, cause, rfl⟩
    · -- the feed was in the round before, at a stage at which the readers are there
      have hround : t.round = n := by
        simp only [FeedTask.Ahead, Party.round] at hahead
        rcases hr.round with ⟨hsame, -⟩ | ⟨hmore, -⟩
        · exact hsame.symm.trans hround'
        · omega
      have hstage : ¬ t.phase.stage < 3 := fun hlt => hahead (Or.inr ⟨hround, hlt⟩)
      refine (hr.forgone hstage (hforgone hround)).mono rfl fun hc => hmono ?_
      rwa [hr.cancelledIn_eq] at hc
    · exact ((hforgone hround').part hp hr).mono rfl hmono
    · exact (hforgone hround').mono rfl hmono
  · rcases exchange?_cases hx with ⟨a, u, hwho, -⟩ | ⟨l, a, u, p, hwho, rfl, hu, hp, hphase⟩
    · cases hwho
    · rw [ht] at hu
      cases hu
      cases hwho
      obtain ⟨u, q, next, hu, hq, hr, -, -⟩ := step_partition_gate h
      rw [ht] at hu; cases hu
      rw [hp] at hq; cases hq
      obtain ⟨hcancelled, hforgoes⟩ := hforgone rfl p hp
      exact (hr.forgoes hcancelled hforgoes).2 x hphase

/-! ### Whole runs -/

/-- What has passed with a party in some steps, in order. -/
def dealings (i : Nat) (who : Party) (steps : List Step) : List Exchange :=
  steps.filterMap fun st => st.before.exchange? i who st.move

theorem dealings_snoc (i : Nat) (who : Party) (past : List Step) (st : Step) :
    dealings i who (past ++ [st]) =
      dealings i who past ++ (st.before.exchange? i who st.move).toList := by
  simp only [dealings, List.filterMap_append, List.filterMap_cons, List.filterMap_nil]
  rcases st.before.exchange? i who st.move <;> rfl

/-- Whether a party is being dealt with. -/
def deals (s : System) (i : Nat) (who : Party) : Bool := (s.feeds[i]?).any (·.deals who)

theorem deals_iff {s : System} {i : Nat} {who : Party} :
    s.deals i who = true ↔ ∃ t, s.feeds[i]? = some t ∧ t.deals who = true := by
  simp [deals, Option.any_eq_true]

/-- Whether a party was dealt with after one of some steps. -/
def met (i : Nat) (who : Party) (steps : List Step) : Bool := steps.any (·.after.deals i who)

/-- How things stand with a party after some steps: nobody has dealt with it, it is being dealt with, or that
is over. -/
inductive Course (i : Nat) (who : Party) (past : List Step) (s : System) : Prop
  | unmet : s.deals i who = false → met i who past = false → dealings i who past = [] →
      Course i who past s
  | going {t : FeedTask} {d : Dealing} : s.feeds[i]? = some t → t.deals who = true → ¬ t.Ahead who →
      Dealing.after (dealings i who past) = some d → t.FitsWith who d → Course i who past s
  | ended {t : FeedTask} {d : Dealing} : s.feeds[i]? = some t → t.deals who = false → ¬ t.Ahead who →
      Dealing.after (dealings i who past) = some d → d.isOver who.isReader = true →
      Course i who past s

/-- Every step of a read keeps a party to its course. -/
theorem Course.step {s s' : System} {move : Move} {effects : List Effect} {i : Nat} {who : Party}
    {past : List Step} (hk : Course i who past s) (hrests : ∀ t, s.feeds[i]? = some t → t.Rests)
    (h : s.step move = some (s', effects)) :
    Course i who (past ++ [⟨s, move, effects, s'⟩]) s' := by
  have hsnoc := dealings_snoc i who past ⟨s, move, effects, s'⟩
  cases hk with
  | unmet hd hmet hnil =>
    have hquiet : s.exchange? i who move = none := by
      rw [Option.eq_none_iff_forall_ne_some]
      intro x hx
      have hdeals : s.deals i who = true := by
        rcases exchange?_cases hx with ⟨a, t, -, -, ht, -⟩ | ⟨j, a, t, p, -, -, ht, -⟩ <;>
          exact deals_iff.mpr ⟨t, ht, deals_of_exchange? ht hx⟩
      rw [hd] at hdeals
      cases hdeals
    rw [hnil, hquiet] at hsnoc
    by_cases hd' : s'.deals i who = true
    · obtain ⟨t', ht', hdeals'⟩ := deals_iff.mp hd'
      obtain ⟨t, ht⟩ := exists_before h ht'
      have hdeals : t.deals who = false := by
        rw [Bool.eq_false_iff]
        intro hdeals
        rw [deals_iff.mpr ⟨t, ht, hdeals⟩] at hd
        cases hd
      obtain ⟨-, hahead', hfits'⟩ := fitsWith_step h ht ht' (hrests t ht) hdeals hdeals'
      refine .going ht' hdeals' hahead' ?_ hfits'
      rw [hsnoc]
      rfl
    · have hunmet := Bool.eq_false_iff.mpr hd'
      refine .unmet hunmet ?_ hsnoc
      unfold met at hmet ⊢
      rw [List.any_append, hmet, List.any_cons, List.any_nil, hunmet]
      rfl
  | going ht hd hahead hafter hfits =>
    obtain ⟨t', ht', -⟩ := exists_after h ht
    obtain ⟨d', hx, hfits', hover⟩ := goesOn_step h ht ht' (hrests _ ht) hd hfits
    have hafter' := Dealing.after_onward hafter hx
    rw [← hsnoc] at hafter'
    by_cases hd' : t'.deals who = true
    · exact .going ht' hd' (not_ahead_step h ht ht' hahead) hafter' hfits'
    · have hgone := Bool.eq_false_iff.mpr hd'
      exact .ended ht' hgone (not_ahead_step h ht ht' hahead) hafter' (hover hgone)
  | ended ht hd hahead hafter hover =>
    obtain ⟨t', ht', -⟩ := exists_after h ht
    have hquiet : s.exchange? i who move = none := by
      rw [Option.eq_none_iff_forall_ne_some]
      intro x hx
      rw [deals_of_exchange? ht hx] at hd
      cases hd
    rw [hquiet, Option.toList_none, List.append_nil] at hsnoc
    rw [← hsnoc] at hafter
    refine .ended ht' (Bool.eq_false_iff.mpr fun hd' => ?_) (not_ahead_step h ht ht' hahead) hafter hover
    exact hahead (fitsWith_step h ht ht' (hrests _ ht) hd hd').1

/-- Every feed rests between its rounds, and none has gone on before the read has begun. -/
structure Tidy (s : System) : Prop where
  rests : ∀ (i : Nat) (t : FeedTask), s.feeds[i]? = some t → t.Rests
  begun : ∀ (i : Nat) (t : FeedTask), s.feeds[i]? = some t → t.phase.stage ≠ 0 → s.begun = true

theorem tidy_start (settings : Settings) (factories : Nat) (l : Ledger) :
    Tidy (start settings factories l) where
  rests := by
    intro i t ht
    simp only [start, List.getElem?_map] at ht
    obtain ⟨feed, -, rfl⟩ := Option.map_eq_some_iff.mp ht
    exact ⟨fun _ j p hp => (by cases hp), fun r hr => (by cases hr)⟩
  begun := by
    intro i t ht hphase
    simp only [start, List.getElem?_map] at ht
    obtain ⟨feed, -, rfl⟩ := Option.map_eq_some_iff.mp ht
    exact absurd rfl hphase

/-- Every step of a read keeps it tidy. -/
theorem Tidy.step {s s' : System} {move : Move} {effects : List Effect} (ht : Tidy s)
    (h : s.step move = some (s', effects)) : Tidy s' where
  rests := by
    intro i t' ht'
    obtain ⟨t, hbefore⟩ := exists_before h ht'
    exact rests_step h hbefore ht' (ht.rests i t hbefore)
  begun := by
    intro i t' ht' hstage
    obtain ⟨t, hbefore⟩ := exists_before h ht'
    refine begun_step h ?_
    rcases step_sides h hbefore ht' with ⟨a, next, rfl, -⟩ | ⟨j, a, p, next, -, -, -, rfl, -⟩ |
      ⟨-, -, halted, cause, rfl⟩
    · by_contra hb
      rw [System.step, if_neg hb] at h
      cases h
    · exact ht.begun i t hbefore hstage
    · exact ht.begun i t hbefore hstage

/-- How things stand with a party after a run. -/
theorem course_run {settings : Settings} {factories : Nat} {l : Ledger} {s' : System} {moves : List Move}
    {effects : List Effect} (h : (start settings factories l).run moves = some (s', effects)) (i : Nat)
    (who : Party) :
    Course i who ((start settings factories l).trace moves) s' ∧ Tidy s' := by
  refine run_induction (P := fun past s => Course i who past s ∧ Tidy s) h ⟨?_, tidy_start _ _ _⟩ ?_
  · refine .unmet ?_ rfl rfl
    rw [Bool.eq_false_iff]
    intro hd
    obtain ⟨t, ht, hdeals⟩ := deals_iff.mp hd
    simp only [start, List.getElem?_map] at ht
    obtain ⟨feed, -, rfl⟩ := Option.map_eq_some_iff.mp ht
    cases who with
    | creator n => cases (FeedTask.deals_creator.mp hdeals).2
    | reader n j =>
      obtain ⟨-, p, hp, -⟩ := FeedTask.deals_reader.mp hdeals
      cases hp
  · rintro past st - hs ⟨hcourse, htidy⟩
    exact ⟨hcourse.step (htidy.rests i) hs, htidy.step hs⟩

/-- What has passed with a party says how far the dealing with it has come. -/
theorem Course.exists_dealing {i : Nat} {who : Party} {past : List Step} {s : System}
    (h : Course i who past s) :
    ∃ d n, dealings i who past = Dealing.log n d ∧ d.isOf who.isReader = true ∧
      (met i who past = true → s.deals i who = false → d.isOver who.isReader = true) := by
  cases h with
  | unmet hd hmet hnil =>
    refine ⟨.probing, 0, hnil, rfl, fun hm => ?_⟩
    rw [hmet] at hm
    cases hm
  | @going t d ht hd hahead hafter hfits =>
    obtain ⟨n, hn⟩ := Dealing.eq_log_of_after hafter
    refine ⟨d, n, hn, ?_, fun _ hgone => ?_⟩
    · cases who with
      | creator => exact FeedTask.isOf_of_fits hfits
      | reader => exact d.isOf_true
    · rw [deals_iff.mpr ⟨t, ht, hd⟩] at hgone
      cases hgone
  | @ended t d ht hd hahead hafter hover =>
    obtain ⟨n, hn⟩ := Dealing.eq_log_of_after hafter
    exact ⟨d, n, hn, Dealing.isOf_of_isOver hover, fun _ _ => hover⟩

/-- Nothing keeps a task from the release that it owes, or from the notice. -/
theorem Course.exists_owed {i : Nat} {who : Party} {past : List Step} {s : System}
    (h : Course i who past s) (htidy : Tidy s) {x : Exchange}
    (hx : Dealing.owed (dealings i who past) = some x) :
    s.exchange? i who (who.go i) = some x ∧ ∃ s' effects, s.step (who.go i) = some (s', effects) := by
  cases h with
  | unmet hd hmet hnil =>
    rw [hnil] at hx
    cases hx
  | @going t d ht hd hahead hafter hfits =>
    obtain ⟨n, hn⟩ := Dealing.eq_log_of_after hafter
    rw [hn] at hx
    cases who with
    | creator n =>
      obtain ⟨rfl, hstage⟩ := FeedTask.deals_creator.mp hd
      have hbegun := htidy.begun i t ht (by rw [hstage]; exact Nat.one_ne_zero)
      simp only [Party.go, exchange?_feed ht]
      rcases Dealing.owed_log hx with ⟨how, rfl, hhow, rfl⟩ | ⟨how, rfl, rfl⟩
      · obtain ⟨hphase, next, hnext⟩ := FeedTask.exists_step_of_ran hfits hhow
        exact ⟨hphase, _, _, step_feed_of hbegun ht hnext⟩
      · obtain ⟨hphase, next, hnext⟩ := FeedTask.exists_step_of_released hfits
        exact ⟨hphase, _, _, step_feed_of hbegun ht hnext⟩
    | reader n j =>
      obtain ⟨rfl, phase, hphaseOf, -⟩ := FeedTask.deals_reader.mp hd
      obtain ⟨p, hp, rfl⟩ := Option.map_eq_some_iff.mp hphaseOf
      have hpfits := hfits p.phase hphaseOf
      simp only [Party.go, exchange?_partition ht hp]
      rcases Dealing.owed_log hx with ⟨how, rfl, hhow, rfl⟩ | ⟨how, rfl, rfl⟩
      · obtain ⟨hphase, next, hnext⟩ := Partition.exists_step_of_ran hpfits hhow
        obtain ⟨releases, hstep⟩ := step_partition_of ht hp hnext
        exact ⟨hphase, _, _, hstep⟩
      · obtain ⟨hphase, next, hnext⟩ := Partition.exists_step_of_released hpfits
        obtain ⟨releases, hstep⟩ := step_partition_of ht hp hnext
        exact ⟨hphase, _, _, hstep⟩
  | ended ht hd hahead hafter hover =>
    obtain ⟨n, hn⟩ := Dealing.eq_log_of_after hafter
    rw [hn] at hx
    rcases Dealing.owed_log hx with ⟨how, rfl, hhow, -⟩ | ⟨how, rfl, -⟩
    · exact absurd (Eq.trans (Eq.symm hover) hhow) Bool.noConfusion
    · cases hover

/-- Before every step of a run the feeds rest between their rounds. -/
theorem rests_of_mem_trace {settings : Settings} {factories : Nat} {l : Ledger} {s' : System}
    {moves : List Move} {effects : List Effect} {st : Step}
    (h : (start settings factories l).run moves = some (s', effects))
    (hst : st ∈ (start settings factories l).trace moves) (i : Nat) :
    ∀ t, st.before.feeds[i]? = some t → t.Rests := by
  obtain ⟨earlier, later, hsplit⟩ := List.append_of_mem hst
  obtain ⟨first, -, before, -, hfirst, -, -⟩ := run_split h hsplit
  exact (course_run hfirst i (.creator 0)).2.rests i

/-- A reader that is dealt with, is cancelled and is not polled, and whose run has not ended, is forgone. -/
theorem Course.forgone {i n j : Nat} {past : List Step} {s : System} (h : Course i (.reader n j) past s)
    (hd : s.deals i (.reader n j) = true) (hc : s.cancelledFor i (.reader n j) = true)
    (hpolls : s.polls i (.reader n j) = false)
    (hran : ∀ how, .ran how ∉ dealings i (.reader n j) past) : s.Forgone i n j := by
  cases h with
  | unmet hnot =>
    rw [hnot] at hd
    cases hd
  | @going t d ht hdeals hahead hafter hfits =>
    refine ⟨t, ht, hahead, fun hround p hp => ⟨?_, ?_⟩⟩
    · rwa [cancelledFor_reader n ht hp] at hc
    · have hphase : t.phaseOf j = some p.phase := by rw [FeedTask.phaseOf, hp]; rfl
      obtain ⟨m, hm⟩ := Dealing.eq_log_of_after hafter
      rw [hm] at hran
      refine Partition.Phase.forgoes_of_fits (hfits _ hphase) (Bool.eq_false_iff.mpr fun hpoll => ?_) hran
      rw [polls_reader.mpr ⟨t, p.phase, ht, hround, hphase, hpoll⟩] at hpolls
      cases hpolls
  | @ended t d ht hnot =>
    obtain ⟨u, hu, hdeals⟩ := deals_iff.mp hd
    rw [ht] at hu
    cases hu
    rw [hnot] at hdeals
    cases hdeals

/-- What passes with a reader that is forgone does not come of a poll. -/
theorem Forgone.run {s s' : System} {moves : List Move} {effects : List Effect} {i n j : Nat}
    (hf : s.Forgone i n j) (h : s.run moves = some (s', effects)) :
    ∀ x ∈ dealings i (.reader n j) (s.trace moves), x.comesOfPoll = false := by
  have hrun : s'.Forgone i n j ∧ ∀ x ∈ dealings i (.reader n j) (s.trace moves), x.comesOfPoll = false := by
    refine run_induction (P := fun past s => s.Forgone i n j ∧
      ∀ x ∈ dealings i (.reader n j) past, x.comesOfPoll = false) h ⟨hf, by simp [dealings]⟩ ?_
    rintro past st - hs ⟨hforgone, hpast⟩
    obtain ⟨hafter, hnow⟩ := hforgone.step hs
    refine ⟨hafter, fun x hx => ?_⟩
    rw [dealings_snoc, List.mem_append, Option.mem_toList] at hx
    exact hx.elim (hpast x) (hnow x)
  exact hrun.2

/-- Whatever the other tasks do and whenever anybody is cancelled, a task deals with a creator or a reader
whose code does not crash by the protocol. A reader that is cancelled is not polled any more, and so it is not
asked for its progress unless its run has ended in a poll that began before. -/
theorem calls_follow_protocol (settings : Settings) (factories : Nat) (l : Ledger) {moves : List Move}
    {s' : System} {effects : List Effect}
    (h : (start settings factories l).run moves = some (s', effects)) (i : Nat) (who : Party)
    (hsafe : ∀ x ∈ dealings i who ((start settings factories l).trace moves), x.isCrash = false) :
    -- what has passed is at any time the beginning of a word of the grammar, and a word when it is over
    (∃ rest, Protocol who.isReader (dealings i who ((start settings factories l).trace moves) ++ rest)) ∧
    (met i who ((start settings factories l).trace moves) = true → s'.deals i who = false →
      Protocol who.isReader (dealings i who ((start settings factories l).trace moves))) ∧
    -- only who is cancelled gives up, only a run with a limit is cut off, and what is said is done
    (∀ st ∈ (start settings factories l).trace moves, ∀ x,
      st.before.exchange? i who st.move = some x →
        x.Backed (st.before.cancelledFor i who = true) (st.before.limits i who = true)
          (Effect.release (who.actor i) ∈ st.effects) (st.after.gate i = st.before.gate i + 1)) ∧
    -- a release is nothing but this exchange, and nothing keeps the task from it, or from the notice
    (∀ st ∈ (start settings factories l).trace moves,
      st.releases i who = true ↔ st.before.exchange? i who st.move = some .release) ∧
    (∀ x, Dealing.owed (dealings i who ((start settings factories l).trace moves)) = some x →
      s'.exchange? i who (who.go i) = some x ∧ ∃ s'' more, s'.step (who.go i) = some (s'', more)) ∧
    -- a poll begins only while its reader is not cancelled, and a run that is not given up ends in a poll
    (∀ st ∈ (start settings factories l).trace moves,
      st.before.polls i who = false → st.after.polls i who = true →
        st.before.cancelledFor i who = false) ∧
    (∀ st ∈ (start settings factories l).trace moves, ∀ how,
      who.isReader = true → st.before.exchange? i who st.move = some (.ran how) → how ≠ .cancelled →
        st.before.polls i who = true) ∧
    -- so a reader that is cancelled at a moment before its run has ended, and not in the middle of a poll,
    -- neither ends its run from there on nor is asked for its progress
    (who.isReader = true → s'.deals i who = true → s'.cancelledFor i who = true → s'.polls i who = false →
      (∀ how, .ran how ∉ dealings i who ((start settings factories l).trace moves)) →
      ∀ more s'' later, s'.run more = some (s'', later) →
        ∀ x ∈ dealings i who (s'.trace more), x.comesOfPoll = false) := by
  obtain ⟨hcourse, htidy⟩ := course_run h i who
  obtain ⟨d, n, hlog, hof, hover⟩ := hcourse.exists_dealing
  refine ⟨?_, fun hmet hgone => ?_, fun st hst x hx => ?_, fun st hst => ?_, fun x hx => ?_,
    fun st hst => ?_, fun st _ how hwho hx => ?_, fun hwho hd hc hpolls hran more s'' later hmore => ?_⟩
  · rw [hlog] at hsafe ⊢
    exact Dealing.exists_protocol hof hsafe
  · have hd := hover hmet hgone
    rw [hlog] at hsafe ⊢
    exact Dealing.protocol hd hsafe
  · exact step_backed (step_of_mem_trace hst) hx
  · exact Step.releases_iff (step_of_mem_trace hst)
  · exact hcourse.exists_owed htidy hx
  · exact cancelledFor_of_polls (step_of_mem_trace hst) (rests_of_mem_trace h hst i)
  · exact polls_of_exchange? hwho hx
  · rcases who with n | ⟨n, j⟩
    · cases hwho
    · exact (hcourse.forgone hd hc hpolls hran).run hmore

/-- A read of one stream. -/
def usersOnly : List (Stream × Option Value) := [({ id := ⟨"users", none⟩ }, none)]

/-- The only feed comes to read two partitions; the reader of the second one may run without limit. -/
def twoReaders : List Move :=
  [ .supervise, .feed 0 .go, .feed 0 (.made .creator), .feed 0 .go, .feed 0 (.probe .ready), .feed 0 .go
  , .feed 0 .go, .feed 0 .go, .feed 0 (.created (.readers [false, true])), .feed 0 .go, .feed 0 .go
  , .feed 0 .go ]

/-- The first reader is refused once; it is being polled when the read is cancelled, and the second one waits
for its next poll. -/
def cancelledInPoll : List Move :=
  twoReaders ++
  ([ .partition 0 0 .go, .partition 0 0 (.probe .retry), .partition 0 0 .go, .partition 0 0 .elapse
   , .partition 0 0 .go, .partition 0 0 (.probe .ready), .partition 0 0 .go, .partition 0 1 .go
   , .partition 0 0 .go, .partition 0 1 .go, .partition 0 1 (.probe .ready), .partition 0 1 .go
   , .partition 0 1 .go, .partition 0 1 .go, .partition 0 1 .go, .partition 0 0 .go, .cancel ] : List Move)

/-- The first reader is cut off in its poll, and the second one is given up. -/
def cutOffAndCancelled : List Move :=
  cancelledInPoll ++
  ([ .partition 0 0 .elapse, .partition 0 1 .quit, .partition 0 0 .go, .partition 0 1 .go
   , .partition 0 0 .go, .partition 0 1 .go, .partition 0 0 (.saved (.checkpoint ⟨.bool true, 3⟩))
   , .partition 0 0 .go, .partition 0 1 .go ] : List Move)

theorem calls_follow_protocol_cut_off :
    (∃ s effects, (start {} 1 (.make none usersOnly)).run cancelledInPoll = some (s, effects) ∧
      s.cancelledFor 0 (.reader 1 0) = true ∧ s.polls 0 (.reader 1 0) = true ∧
      s.cancelledFor 0 (.reader 1 1) = true ∧ s.polls 0 (.reader 1 1) = false ∧
      ∀ more s'' later, s.run more = some (s'', later) →
        ∀ x ∈ dealings 0 (.reader 1 1) (s.trace more), x.comesOfPoll = false) ∧
    ∃ s' effects, (start {} 1 (.make none usersOnly)).run cutOffAndCancelled = some (s', effects) ∧
      dealings 0 (.reader 1 0) ((start {} 1 (.make none usersOnly)).trace cutOffAndCancelled) =
        [ .probe .retry, .probe .ready, .run, .ran (.well .timedOut), .release, .notify
        , .checkpoint (.checkpoint ⟨.bool true, 3⟩) ] ∧
      s'.deals 0 (.reader 1 0) = false ∧
      Protocol true
        (dealings 0 (.reader 1 0) ((start {} 1 (.make none usersOnly)).trace cutOffAndCancelled)) ∧
      dealings 0 (.reader 1 1) ((start {} 1 (.make none usersOnly)).trace cutOffAndCancelled) =
        [.probe .ready, .run, .ran .cancelled, .release, .notify] ∧
      s'.deals 0 (.reader 1 1) = false ∧
      Protocol true
        (dealings 0 (.reader 1 1) ((start {} 1 (.make none usersOnly)).trace cutOffAndCancelled)) := by
  have hwaits : dealings 0 (.reader 1 1) ((start {} 1 (.make none usersOnly)).trace cancelledInPoll) =
      [.probe .ready, .run] := rfl
  have hpoll : ∃ s effects, (start {} 1 (.make none usersOnly)).run cancelledInPoll = some (s, effects) ∧
      s.cancelledFor 0 (.reader 1 0) = true ∧ s.polls 0 (.reader 1 0) = true ∧
      s.cancelledFor 0 (.reader 1 1) = true ∧ s.polls 0 (.reader 1 1) = false ∧
      s.deals 0 (.reader 1 1) = true := ⟨_, _, rfl, rfl, rfl, rfl, rfl, rfl⟩
  have hrun : (start {} 1 (.make none usersOnly)).run cutOffAndCancelled = some (_, _) := rfl
  have hfirst : dealings 0 (.reader 1 0)
      ((start {} 1 (.make none usersOnly)).trace cutOffAndCancelled) =
        [ .probe .retry, .probe .ready, .run, .ran (.well .timedOut), .release, .notify
        , .checkpoint (.checkpoint ⟨.bool true, 3⟩) ] := rfl
  have hsecond : dealings 0 (.reader 1 1)
      ((start {} 1 (.make none usersOnly)).trace cutOffAndCancelled) =
        [.probe .ready, .run, .ran .cancelled, .release, .notify] := rfl
  refine ⟨?_, _, _, hrun, hfirst, rfl, ?_, hsecond, rfl, ?_⟩
  · obtain ⟨s, effects, hs, hcut, hpolled, hc, hpolls, hd⟩ := hpoll
    obtain ⟨-, -, -, -, -, -, -, hforgone⟩ :=
      calls_follow_protocol {} 1 _ hs 0 (.reader 1 1) (by rw [hwaits]; decide)
    exact ⟨s, effects, hs, hcut, hpolled, hc, hpolls, hforgone rfl hd hc hpolls (by rw [hwaits]; simp)⟩
  · exact (calls_follow_protocol {} 1 _ hrun 0 (.reader 1 0) (by rw [hfirst]; decide)).2.1
      rfl rfl
  · exact (calls_follow_protocol {} 1 _ hrun 0 (.reader 1 1) (by rw [hsecond]; decide)).2.1
      rfl rfl

/-! ### Crashes -/

/-- Releases are counted among the steps as among the exchanges. -/
theorem countP_releases {settings : Settings} {factories : Nat} {l : Ledger} (moves : List Move) (i : Nat)
    (who : Party) :
    ((start settings factories l).trace moves).countP (Step.releases i who) =
      (dealings i who ((start settings factories l).trace moves)).countP Exchange.isRelease := by
  rw [dealings, List.countP_filterMap]
  refine List.countP_congr fun st hst => ?_
  rw [Step.releases_iff (step_of_mem_trace hst)]
  rcases st.before.exchange? i who st.move with _ | x
  · simp
  · cases x <;> simp [Exchange.isRelease]

/-- What has passed with a party that got its resources and is not dealt with any more: its run crashed, or it
has released them. -/
theorem Course.cases_of_ready {i : Nat} {who : Party} {past : List Step} {s : System}
    (h : Course i who past s) (hready : .probe .ready ∈ dealings i who past)
    (hgone : s.deals i who = false) :
    ∃ n how, (dealings i who past = Dealing.log n (.ran how) ∧ how.isCrash = true) ∨
      ((dealings i who past = Dealing.log n (.told how) ∨
        ∃ a, dealings i who past = Dealing.log n (.told how) ++ [.checkpoint a]) ∧
        how.isCrash = false) := by
  cases h with
  | unmet hd hmet hnil =>
    rw [hnil] at hready
    cases hready
  | going ht hd =>
    rw [deals_iff.mpr ⟨_, ht, hd⟩] at hgone
    cases hgone
  | @ended t d ht hd hahead hafter hover =>
    obtain ⟨n, hn⟩ := Dealing.eq_log_of_after hafter
    rw [hn] at hready
    cases d with
    | ran how => exact ⟨n, how, Or.inl ⟨hn, hover⟩⟩
    | told how =>
      exact ⟨n, how, Or.inr ⟨Or.inl hn, Dealing.isCrash_of_after hafter (Or.inr rfl)⟩⟩
    | answered e a =>
      refine ⟨n, .well e, Or.inr ⟨Or.inr ⟨a, ?_⟩, rfl⟩⟩
      rw [hn, Dealing.log, Dealing.log, List.append_assoc]
      rfl
    | left | denied | lost => simp [Dealing.log, refusals] at hready
    | probing | granted | running | released => cases hover

/-- Code that got its resources is told to release them exactly once, and the gate is told right after it,
unless its run crashes: then the crash is the last thing that passes, and nobody is told anything. -/
theorem released_unless_crashed (settings : Settings) (factories : Nat) (l : Ledger) {moves : List Move}
    {s' : System} {effects : List Effect}
    (h : (start settings factories l).run moves = some (s', effects)) (i : Nat) (who : Party) :
    (∀ message, .ran (.crashed message) ∈ dealings i who ((start settings factories l).trace moves) →
      (∃ n, dealings i who ((start settings factories l).trace moves) =
        refusals n ++ [.probe .ready, .run, .ran (.crashed message)]) ∧
      ((start settings factories l).trace moves).countP (Step.releases i who) = 0) ∧
    (.probe .ready ∈ dealings i who ((start settings factories l).trace moves) →
      s'.deals i who = false →
      (∀ message, .ran (.crashed message) ∉ dealings i who ((start settings factories l).trace moves)) →
      (∃ n how last, dealings i who ((start settings factories l).trace moves) =
          refusals n ++ [.probe .ready, .run, .ran how, .release, .notify] ++ last ∧
        .release ∉ last ∧ .notify ∉ last) ∧
      ((start settings factories l).trace moves).countP (Step.releases i who) = 1) := by
  obtain ⟨hcourse, -⟩ := course_run h i who
  rw [countP_releases]
  constructor
  · intro message hcrash
    obtain ⟨d, hafter⟩ : ∃ d, Dealing.after (dealings i who ((start settings factories l).trace moves)) =
        some d := by
      cases hcourse with
      | unmet hd hmet hnil =>
        rw [hnil] at hcrash
        cases hcrash
      | going ht hd hahead hafter => exact ⟨_, hafter⟩
      | ended ht hd hahead hafter => exact ⟨_, hafter⟩
    obtain rfl := Dealing.eq_ran_of_crash hafter hcrash
    obtain ⟨n, hn⟩ := Dealing.eq_log_of_after hafter
    refine ⟨⟨n, hn⟩, ?_⟩
    rw [hn, Dealing.log, countP_isRelease_refusals]
    rfl
  · intro hready hgone hsafe
    obtain ⟨n, how, ⟨hn, hhow⟩ | ⟨hn | ⟨a, hn⟩, hhow⟩⟩ := hcourse.cases_of_ready hready hgone
    · rcases how with _ | _ | _ | message
      · cases hhow
      · cases hhow
      · cases hhow
      · exact absurd (by rw [hn]; simp [Dealing.log]) (hsafe message)
    · refine ⟨⟨n, how, [], by rw [hn, List.append_nil]; rfl, nofun, nofun⟩, ?_⟩
      rw [hn, Dealing.log, countP_isRelease_refusals]
      rfl
    · refine ⟨⟨n, how, [.checkpoint a], hn, by simp, by simp⟩, ?_⟩
      rw [hn, Dealing.log, List.append_assoc, countP_isRelease_refusals]
      rfl

/-- The only reader of a read crashes while it runs, and the read comes to its end. -/
def readerCrashes : List Move :=
  ([ .supervise, .feed 0 .go, .feed 0 (.made .creator), .feed 0 .go, .feed 0 (.probe .ready), .feed 0 .go
   , .feed 0 .go, .feed 0 .go, .feed 0 (.created (.readers [false])), .feed 0 .go, .feed 0 .go, .feed 0 .go
   , .partition 0 0 .go, .partition 0 0 (.probe .ready), .partition 0 0 .go, .partition 0 0 .go
   , .partition 0 0 .go, .partition 0 0 (.ran (.crashed "boom")), .feed 0 (.join 0) ] : List Move) ++
  List.replicate 8 (.feed 0 .go) ++ List.replicate 5 .supervise

/-- A reader that crashes while it runs is not told to release its resources, nor is the gate told of
anything: it has counted only the release of the creator when the failure of the read is known. -/
theorem crashed_reader_keeps_resources :
    ∃ s' effects, (start {} 1 (.make none usersOnly)).run readerCrashes = some (s', effects) ∧
      s'.result? = some (.error (.partition "users" 1 1 (.crashed "users" "boom"))) ∧
      dealings 0 (.reader 1 0) ((start {} 1 (.make none usersOnly)).trace readerCrashes) =
        [.probe .ready, .run, .ran (.crashed "boom")] ∧
      ((start {} 1 (.make none usersOnly)).trace readerCrashes).countP (Step.releases 0 (.reader 1 0)) = 0 ∧
      s'.gate 0 = 1 :=
  ⟨_, _, rfl, rfl, rfl, rfl, rfl⟩

/-- The creator of that round has released its resources once, and its reader never. -/
theorem released_unless_crashed_boom :
    ∃ s' effects, (start {} 1 (.make none usersOnly)).run readerCrashes = some (s', effects) ∧
      s'.deals 0 (.creator 1) = false ∧
      dealings 0 (.creator 1) ((start {} 1 (.make none usersOnly)).trace readerCrashes) =
        [.probe .ready, .run, .ran (.well .completed), .release, .notify] ∧
      ((start {} 1 (.make none usersOnly)).trace readerCrashes).countP (Step.releases 0 (.creator 1)) = 1 ∧
      dealings 0 (.reader 1 0) ((start {} 1 (.make none usersOnly)).trace readerCrashes) =
        [.probe .ready, .run, .ran (.crashed "boom")] ∧
      ((start {} 1 (.make none usersOnly)).trace readerCrashes).countP
        (Step.releases 0 (.reader 1 0)) = 0 := by
  have hrun : (start {} 1 (.make none usersOnly)).run readerCrashes = some (_, _) := rfl
  have hcreator : dealings 0 (.creator 1) ((start {} 1 (.make none usersOnly)).trace readerCrashes) =
      [.probe .ready, .run, .ran (.well .completed), .release, .notify] := rfl
  have hreader : dealings 0 (.reader 1 0) ((start {} 1 (.make none usersOnly)).trace readerCrashes) =
      [.probe .ready, .run, .ran (.crashed "boom")] := rfl
  obtain ⟨-, honce⟩ := released_unless_crashed {} 1 _ hrun 0 (.creator 1)
  obtain ⟨hnever, -⟩ := released_unless_crashed {} 1 _ hrun 0 (.reader 1 0)
  refine ⟨_, _, hrun, rfl, hcreator, (honce ?_ rfl ?_).2, hreader, (hnever "boom" ?_).2⟩
  · rw [hcreator]
    exact List.mem_cons_self
  · rw [hcreator]
    simp
  · rw [hreader]
    simp

end System

end Intake.Read
