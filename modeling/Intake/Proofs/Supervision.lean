import Intake.Proofs.Trace
/-!
# Whom the supervisor stops, and whom it waits for

The feeds of a read are those it started with. The supervisor stops none but global feeds, so a stream
feed is cancelled only together with the whole read; and before it is through with the stream feeds, each
of them is over. `Orderly` says so, `orderly_start` that it holds at the beginning, and `Orderly.step`
that every step keeps it.
-/

namespace Intake.Read.System

section
variable {s s' : System} {move : Move} {effects : List Effect}

theorem length_feeds_step (h : s.step move = some (s', effects)) :
    s'.feeds.length = s.feeds.length := by
  cases move with
  | feed i a =>
    obtain ⟨t, next, -, -, rfl, -⟩ := step_feed h
    exact List.length_set
  | partition i j a =>
    obtain ⟨t, p, next, releases, -, -, -, rfl, -⟩ := step_partition h
    exact List.length_set
  | supervise =>
    cases supervision_of_supervise h with
    | blames => exact List.length_set
    | halts => exact List.length_modify _ _ _
    | _ => rfl
  | cancel | reset _ | record _ => cases h; rfl

/-- Who is there after a step was there before it. -/
theorem exists_before (h : s.step move = some (s', effects)) {i : Nat} {t' : FeedTask}
    (ht' : s'.feeds[i]? = some t') : ∃ t, s.feeds[i]? = some t := by
  have hlt := (List.getElem?_eq_some_iff.mp ht').1
  rw [length_feeds_step h] at hlt
  exact ⟨_, List.getElem?_eq_getElem hlt⟩

/-- A step makes no feed another feed. -/
theorem feed_step (h : s.step move = some (s', effects)) {i : Nat} {t t' : FeedTask}
    (ht : s.feeds[i]? = some t) (ht' : s'.feeds[i]? = some t') : t'.feed = t.feed := by
  have hlt := (List.getElem?_eq_some_iff.mp ht).1
  rcases step_at h ht with ⟨a, next, -, hr, rfl, -⟩ | ⟨j, a, p, next, releases, -, -, -, rfl⟩ |
    ⟨-, halted, cause, hu, -⟩
  · rw [List.getElem?_set_self hlt] at ht'; cases ht'
    exact hr.frame.1
  · rw [List.getElem?_set_self hlt] at ht'; cases ht'
    rfl
  · rw [hu] at ht'; cases ht'
    rfl

theorem exists_after (h : s.step move = some (s', effects)) {i : Nat} {t : FeedTask}
    (ht : s.feeds[i]? = some t) :
    ∃ t', s'.feeds[i]? = some t' ∧ t'.feed = t.feed := by
  have hlt := (List.getElem?_eq_some_iff.mp ht).1
  rw [← length_feeds_step h] at hlt
  exact ⟨_, List.getElem?_eq_getElem hlt, feed_step h ht (List.getElem?_eq_getElem hlt)⟩

/-- The settings and the number of factories stay, and a read is cancelled only from outside. -/
theorem frame_step (h : s.step move = some (s', effects)) :
    s'.settings = s.settings ∧ s'.factories = s.factories ∧
      (move ≠ .cancel → s'.cancelled = s.cancelled) := by
  cases move with
  | feed i a =>
    obtain ⟨t, next, -, -, rfl, -⟩ := step_feed h
    exact ⟨rfl, rfl, fun _ => rfl⟩
  | partition i j a =>
    obtain ⟨t, p, next, releases, -, -, -, rfl, -⟩ := step_partition h
    exact ⟨rfl, rfl, fun _ => rfl⟩
  | supervise => cases supervision_of_supervise h <;> exact ⟨rfl, rfl, fun _ => rfl⟩
  | cancel => cases h; exact ⟨rfl, rfl, fun hm => absurd rfl hm⟩
  | reset _ | record _ => cases h; exact ⟨rfl, rfl, fun _ => rfl⟩

end

theorem settings_run {s s' : System} {moves : List Move} {effects : List Effect}
    (h : s.run moves = some (s', effects)) : s'.settings = s.settings := by
  induction moves generalizing s effects with
  | nil => cases h; rfl
  | cons move rest ih =>
    obtain ⟨mid, first, later, hm, hl, rfl⟩ := run_cons h
    exact (ih hl).trans (frame_step hm).1

/-- A task that is over stays so. -/
theorem finished_step {s s' : System} {move : Move} {effects : List Effect}
    (h : s.step move = some (s', effects)) {i : Nat} {t t' : FeedTask} (ht : s.feeds[i]? = some t)
    (ht' : s'.feeds[i]? = some t') (hf : t.finished = true) : t'.finished = true := by
  have hlt := (List.getElem?_eq_some_iff.mp ht).1
  rcases step_at h ht with ⟨a, next, -, hr, -, -⟩ | ⟨j, a, p, next, releases, -, -, -, rfl⟩ |
    ⟨-, halted, cause, hu, -⟩
  · rw [hr.not_finished] at hf
    cases hf
  · rw [List.getElem?_set_self hlt] at ht'; cases ht'
    exact hf
  · rw [hu] at ht'; cases ht'
    exact hf

/-- A read that is cancelled stays so. -/
theorem cancelled_step {s s' : System} {move : Move} {effects : List Effect}
    (h : s.step move = some (s', effects)) (hc : s.cancelled = true) : s'.cancelled = true := by
  by_cases hm : move = .cancel
  · subst hm
    cases h
    rfl
  · rw [(frame_step h).2.2 hm]
    exact hc

/-- Only the supervisor moves its own books. -/
theorem books_step {s s' : System} {move : Move} {effects : List Effect}
    (h : s.step move = some (s', effects)) (hm : move ≠ .supervise) :
    s'.watch = s.watch ∧ s'.faults = s.faults ∧ s'.streamFaults = s.streamFaults := by
  cases move with
  | feed i a =>
    obtain ⟨t, next, -, -, rfl, -⟩ := step_feed h
    exact ⟨rfl, rfl, rfl⟩
  | partition i j a =>
    obtain ⟨t, p, next, releases, -, -, -, rfl, -⟩ := step_partition h
    exact ⟨rfl, rfl, rfl⟩
  | supervise => exact absurd rfl hm
  | cancel | reset _ | record _ => cases h; exact ⟨rfl, rfl, rfl⟩

/-- What a step is for the feed of an index, with what exactly the supervisor may do to it: it leaves it
alone, gives it a cause, or stops it. -/
theorem step_task {s s' : System} {move : Move} {effects : List Effect} {i : Nat} {t t' : FeedTask}
    (h : s.step move = some (s', effects)) (ht : s.feeds[i]? = some t)
    (ht' : s'.feeds[i]? = some t') :
    (∃ a next, move = .feed i a ∧ FeedTask.Rule (s.feedView i) t s.shared a next ∧ t' = next.task) ∨
    (∃ parts releases, t' = { t with parts, releases }) ∨
    (∃ left cause, (move = .supervise ∧ s.watch = .checking (i :: left) ∧ t.finished = false ∧
        Fault.aggregate? (s.memberFaults t.feed) = some cause ∧ s'.watch = .halting left i) ∧
      t' = { t with cause := some (t.cause.getD cause) }) ∨
    (∃ left, s.watch = .halting left i ∧ t' = { t with halted := true }) := by
  have hlt := (List.getElem?_eq_some_iff.mp ht).1
  have same : s'.feeds[i]? = some t → ∃ parts releases, t' = { t with parts, releases } := by
    intro hsame
    rw [hsame] at ht'
    cases ht'
    exact ⟨t.parts, t.releases, rfl⟩
  cases move with
  | feed k a =>
    obtain ⟨u, next, hu, hr, rfl, -⟩ := step_feed h
    by_cases hk : k = i
    · subst hk
      rw [ht] at hu; cases hu
      rw [List.getElem?_set_self hlt] at ht'; cases ht'
      exact Or.inl ⟨a, next, rfl, hr, rfl⟩
    · exact Or.inr (Or.inl (same (by rw [List.getElem?_set_ne hk]; exact ht)))
  | partition k j a =>
    obtain ⟨u, p, next, releases, hu, -, -, rfl, -⟩ := step_partition h
    by_cases hk : k = i
    · subst hk
      rw [ht] at hu; cases hu
      rw [List.getElem?_set_self hlt] at ht'; cases ht'
      exact Or.inr (Or.inl ⟨_, _, rfl⟩)
    · exact Or.inr (Or.inl (same (by rw [List.getElem?_set_ne hk]; exact ht)))
  | supervise =>
    cases supervision_of_supervise h with
    | @blames k left u cause hw hu hf hc =>
      by_cases hk : k = i
      · subst hk
        rw [ht] at hu; cases hu
        rw [List.getElem?_set_self hlt] at ht'; cases ht'
        exact Or.inr (Or.inr (Or.inl ⟨left, cause, ⟨rfl, hw, hf, hc, rfl⟩, rfl⟩))
      · exact Or.inr (Or.inl (same (by rw [List.getElem?_set_ne hk]; exact ht)))
    | @halts k left hw =>
      by_cases hk : k = i
      · subst hk
        rw [List.getElem?_modify_eq, ht] at ht'; cases ht'
        exact Or.inr (Or.inr (Or.inr ⟨left, hw, rfl⟩))
      · exact Or.inr (Or.inl (same (by rw [List.getElem?_modify_ne _ _ hk]; exact ht)))
    | _ => exact Or.inr (Or.inl (same ht))
  | cancel | reset _ | record _ =>
    cases h
    exact Or.inr (Or.inl (same ht))

/-- A step that a feed does not make itself leaves it in its phase and round. -/
theorem phase_of_other {s s' : System} {move : Move} {effects : List Effect} {i : Nat} {t t' : FeedTask}
    (h : s.step move = some (s', effects)) (hne : ∀ a, move ≠ .feed i a) (ht : s.feeds[i]? = some t)
    (ht' : s'.feeds[i]? = some t') : t'.phase = t.phase ∧ t'.round = t.round := by
  rcases step_task h ht ht' with ⟨a, next, hm, -⟩ | ⟨_, _, rfl⟩ | ⟨_, _, -, rfl⟩ | ⟨_, -, rfl⟩
  · exact absurd hm (hne a)
  all_goals exact ⟨rfl, rfl⟩

/-- A step is one of the feed of an index itself, or leaves it in its phase and round. -/
theorem own_or_other {s s' : System} {move : Move} {effects : List Effect} {i : Nat} {t t' : FeedTask}
    (h : s.step move = some (s', effects)) (ht : s.feeds[i]? = some t) (ht' : s'.feeds[i]? = some t') :
    (∃ a next, move = .feed i a ∧ FeedTask.Rule (s.feedView i) t s.shared a next ∧ t' = next.task ∧
      s'.shared = next.shared) ∨
    ((∀ a, move ≠ .feed i a) ∧ t'.phase = t.phase ∧ t'.round = t.round) := by
  by_cases hown : ∃ a, move = .feed i a
  · obtain ⟨a, rfl⟩ := hown
    obtain ⟨t, next, ht₁, hr, rfl, -⟩ := step_feed h
    rw [ht] at ht₁; cases ht₁
    rw [List.getElem?_set_self (List.getElem?_eq_some_iff.mp ht).1] at ht'
    cases ht'
    exact Or.inl ⟨a, next, rfl, hr, rfl, rfl⟩
  · have hne : ∀ a, move ≠ .feed i a := fun a hm => hown ⟨a, hm⟩
    exact Or.inr ⟨hne, phase_of_other h hne ht ht'⟩

/-- Whether the supervisor has still to wait for a stream feed. -/
def Watch.waitsFor (i : Nat) : Watch → Prop
  | .opening => True
  | .joining .streams left => i ∈ left
  | .burying .streams left _ _ _ => i ∈ left
  | _ => False

/-- The feeds are those of a list, none but a global feed is stopped, and the supervisor goes on when a
stream feed is over. -/
structure Orderly (feeds : List Feed) (s : System) : Prop where
  feed_eq : ∀ (i : Nat) (t : FeedTask), s.feeds[i]? = some t → feeds[i]? = some t.feed
  targets : ∀ i ∈ Watch.targets s.watch, ∀ t, s.feeds[i]? = some t → t.feed.isGlobal = true
  free : ∀ (i : Nat) (t : FeedTask), s.feeds[i]? = some t → t.feed.isGlobal = false →
    t.halted = false ∧ t.cause = none
  waited : ∀ (i : Nat) (t : FeedTask), s.feeds[i]? = some t → t.feed.isGlobal = false →
    ¬ Watch.waitsFor i s.watch → t.finished = true

theorem orderly_start (settings : Settings) (factories : Nat) (l : Ledger) :
    Orderly l.feeds (start settings factories l) where
  feed_eq := by
    intro i t ht
    simp only [start, List.getElem?_map] at ht
    obtain ⟨feed, hf, rfl⟩ := Option.map_eq_some_iff.mp ht
    exact hf
  targets := nofun
  free := by
    intro i t ht _
    simp only [start, List.getElem?_map] at ht
    obtain ⟨feed, hf, rfl⟩ := Option.map_eq_some_iff.mp ht
    exact ⟨rfl, rfl⟩
  waited := fun _ _ _ _ hn => absurd trivial hn

theorem mem_indices_iff {s : System} {stage : Stage} {i : Nat} {t : FeedTask}
    (ht : s.feeds[i]? = some t) :
    i ∈ s.indices stage ↔ t.feed.isGlobal = (stage == .globals) := by
  unfold indices
  rw [List.mem_map]
  constructor
  · rintro ⟨⟨u, k⟩, hmem, rfl⟩
    obtain ⟨hu, hg⟩ := List.mem_filter.mp hmem
    rw [List.mk_mem_zipIdx_iff_getElem?] at hu
    rw [hu] at ht; cases ht
    exact beq_iff_eq.mp hg
  · intro hg
    refine ⟨(t, i), List.mem_filter.mpr ⟨List.mk_mem_zipIdx_iff_getElem?.mpr ht, ?_⟩, rfl⟩
    exact beq_iff_eq.mpr hg

section
variable {feeds : List Feed} {s s' : System} {move : Move} {effects : List Effect}

/-- What the supervisor is about to stop after a step it was about to stop before, or it has just looked
for the global feeds. -/
theorem targets_step (h : s.step move = some (s', effects)) {i : Nat}
    (hi : i ∈ Watch.targets s'.watch) :
    i ∈ Watch.targets s.watch ∨ i ∈ s.indices .globals := by
  cases move with
  | feed k a =>
    obtain ⟨t, next, -, -, rfl, -⟩ := step_feed h
    exact Or.inl hi
  | partition k j a =>
    obtain ⟨t, p, next, releases, -, -, -, rfl, -⟩ := step_partition h
    exact Or.inl hi
  | supervise =>
    cases supervision_of_supervise h with
    | hasStreams => exact Or.inr hi
    | passesFinished hw | passesSound hw => rw [hw]; exact Or.inl (List.mem_cons_of_mem _ hi)
    | blames hw => rw [hw]; exact Or.inl hi
    | halts hw => rw [hw]; exact Or.inl (List.mem_cons_of_mem _ hi)
    | _ => cases hi
  | cancel | reset _ | record _ => cases h; exact Or.inl hi

/-- The supervisor stops waiting for a feed that is over. -/
theorem finished_of_waitsFor (h : s.step move = some (s', effects)) {i : Nat} {t : FeedTask}
    (ht : s.feeds[i]? = some t) (hg : t.feed.isGlobal = false) (hw : Watch.waitsFor i s.watch)
    (hw' : ¬ Watch.waitsFor i s'.watch) : t.finished = true := by
  -- the feed is the one that the supervisor has just joined
  have joined : ∀ {stage : Stage} {k : Nat} {left : List Nat} {u : FeedTask},
      s.watch = .joining stage (k :: left) → s.feeds[k]? = some u → u.finished = true →
      ¬ Watch.waitsFor i (.joining stage left) → t.finished = true := by
    intro stage k left u hjoin hu hf hn
    rw [hjoin] at hw
    cases stage with
    | streams =>
      rcases List.mem_cons.mp hw with rfl | hmem
      · rw [ht] at hu; cases hu
        exact hf
      · exact absurd hmem hn
    | globals => exact hw.elim
  cases move with
  | feed k a =>
    obtain ⟨u, next, -, -, rfl, -⟩ := step_feed h
    exact absurd hw hw'
  | partition k j a =>
    obtain ⟨u, p, next, releases, -, -, -, rfl, -⟩ := step_partition h
    exact absurd hw hw'
  | supervise =>
    cases supervision_of_supervise h with
    | opens =>
      have hmem : i ∈ s.indices .streams := (mem_indices_iff ht).mpr hg
      exact absurd hmem hw'
    | hasStreams hjoin => rw [hjoin] at hw; cases hw
    | joinsDone hjoin hu hp => exact joined hjoin hu (by simp [FeedTask.finished, hp]) hw'
    | joinsFailed hjoin hu hp => exact joined hjoin hu (by simp [FeedTask.finished, hp]) hw'
    | @joinsCrashed stage k left u message hjoin hu hp =>
      refine joined hjoin hu (by simp [FeedTask.finished, hp]) ?_
      cases stage <;> exact hw'
    | @buries stage left k message id rest u hbury _ =>
      rw [hbury] at hw
      cases stage <;> exact absurd hw hw'
    | @hasBuried stage left k message u hbury _ =>
      rw [hbury] at hw
      cases stage <;> exact absurd hw hw'
    | hasGlobals hother | hasChecked hother | passesFinished hother | passesSound hother
    | blames hother | halts hother | closes hother =>
      rw [hother] at hw
      cases hw
  | cancel | reset _ | record _ => cases h; exact absurd hw hw'

theorem Orderly.step (ho : Orderly feeds s) (h : s.step move = some (s', effects)) :
    Orderly feeds s' where
  feed_eq := by
    intro i t' ht'
    obtain ⟨t, ht⟩ := exists_before h ht'
    rw [feed_step h ht ht']
    exact ho.feed_eq i t ht
  targets := by
    intro i hi t' ht'
    obtain ⟨t, ht⟩ := exists_before h ht'
    rw [feed_step h ht ht']
    rcases targets_step h hi with hi | hi
    · exact ho.targets i hi t ht
    · exact (mem_indices_iff ht).mp hi
  free := by
    intro i t' ht' hg
    obtain ⟨t, ht⟩ := exists_before h ht'
    rw [feed_step h ht ht'] at hg
    have hfree := ho.free i t ht hg
    have hlt := (List.getElem?_eq_some_iff.mp ht).1
    rcases step_at h ht with ⟨a, next, -, hr, rfl, -⟩ | ⟨j, a, p, next, releases, -, -, -, rfl⟩ |
      ⟨-, halted, cause, hu, hkeep⟩
    · rw [List.getElem?_set_self hlt] at ht'; cases ht'
      rw [hr.frame.2.1, hr.frame.2.2]
      exact hfree
    · rw [List.getElem?_set_self hlt] at ht'; cases ht'
      exact hfree
    · rw [hu] at ht'; cases ht'
      have hn : i ∉ Watch.targets s.watch := fun hi => by
        rw [ho.targets i hi t ht] at hg; cases hg
      obtain ⟨rfl, rfl⟩ := hkeep hn
      exact hfree
  waited := by
    intro i t' ht' hg hw'
    obtain ⟨t, ht⟩ := exists_before h ht'
    rw [feed_step h ht ht'] at hg
    refine finished_step h ht ht' ?_
    by_cases hw : Watch.waitsFor i s.watch
    · exact finished_of_waitsFor h ht hg hw hw'
    · exact ho.waited i t ht hg hw

/-- When the read is over, so are its stream feeds. -/
theorem Orderly.finished_of_result? (ho : Orderly feeds s) (h : s.result?.isSome = true) {i : Nat}
    {t : FeedTask} (ht : s.feeds[i]? = some t) (hg : t.feed.isGlobal = false) :
    t.finished = true := by
  refine ho.waited i t ht hg ?_
  unfold result? at h
  split at h
  · rename_i hw
    rw [hw]
    exact id
  · cases h

end

end Intake.Read.System
