import Intake.Proofs.Dealings
import Intake.Proofs.Roster
import Intake.Proofs.Tracking
/-!
# Every feed that is heard of is heard to end

What a read publishes about a feed begins with its start, and its last word is an outcome: the feed publishes it
itself when it is done, and the supervisor does so for a feed that crashed. In between, and even after it, the
partitions of the feed may publish; they never tell of a start of the feed.

Feeds may share a root (`Tracker.root`), so the statement is per root. At any time a root has been shut, or some
feed of it is still open, or nothing has been heard of it: `Minded` says so, `minded_start` and `Minded.step` that
it holds at all times, and `Minded.over` what it comes to when the supervisor has waited for all feeds: the roots of
the feeds are shut, and nothing has been heard of any other.
-/

namespace Intake.Read

open Intake.Tracker (Shut Unheard root)

/-- The event that is published. -/
def Effect.event? : Effect → Option Event
  | .publish e => some e
  | _ => none

/-- The events that are published, in order. -/
def published (effects : List Effect) : List Event := effects.filterMap Effect.event?

/-! ### What a task publishes -/

theorem published_tell (t : FeedTask) (s : Shared) (n : Notice) (id : StreamId) :
    published (t.tell s n id).2 = [] := by
  apply List.filterMap_eq_nil_iff.mpr
  intro e he
  obtain ⟨trace, -, rfl⟩ := List.mem_map.mp he
  rfl

/-- What a partition publishes is about its feed, and tells of no start of it. -/
theorem Partition.Rule.root?_of_published {v : View} {t : Partition} {a : Act} {next : Next}
    (h : Rule v t a next) {e : Event} (he : e ∈ published next.effects) :
    e.root? = some (root v.feed) ∧ e.kind ≠ .feedStarting := by
  cases h with
  | acquireRetries =>
    rw [List.mem_singleton.mp he]
    exact ⟨rfl, nofun⟩
  | opens =>
    have hno : published ((t.limit v).toList.map (Effect.timer v.actor)) = [] := by
      rcases t.limit v with _ | d <;> rfl
    rcases List.mem_cons.mp he with rfl | hmem
    · exact ⟨rfl, nofun⟩
    · rw [published] at hno
      rw [hno] at hmem
      cases hmem
  | @reports r =>
    rw [List.mem_singleton.mp he]
    unfold report
    split
    · exact ⟨rfl, nofun⟩
    · split <;> exact ⟨rfl, nofun⟩
    · split <;> exact ⟨rfl, nofun⟩
  | _ => cases he

namespace FeedTask

/-- Whether a feed in a phase has begun and its outcome has not been published. That of a crashed feed is
left to the supervisor. -/
def Phase.isOpen : Phase → Bool
  | .asleep => false
  | .done _ => false
  | _ => true

/-- What a feed publishes is about itself. After the step it is open, or it has just published its outcome. -/
theorem Rule.tells {v : View} {t : FeedTask} {s : Shared} {a : Act} {next : Next} (h : Rule v t s a next) :
    (next.task.phase.isOpen = true ∧ ∀ e ∈ published next.effects, e.root? = some (root t.label)) ∨
      ∃ e, published next.effects = [e] ∧ e.Shuts (root t.label) := by
  cases h with
  | finishes => exact .inr ⟨_, rfl, rfl, rfl⟩
  | @hasStopped n =>
    refine .inr ⟨_, rfl, ?_, rfl⟩
    cases n <;> rfl
  | saysStarting | saysComplete | saysStopped =>
    refine .inl ⟨rfl, fun e he => ?_⟩
    rw [gotoWith, published_tell] at he
    cases he
  | @unlocks count next =>
    refine .inl ⟨by cases next <;> rfl, fun e he => ?_⟩
    by_cases hcount : count = 0
    · rw [if_pos hcount] at he
      cases he
    · rw [if_neg hcount] at he
      rw [List.mem_singleton.mp he]
      rfl
  | begins | beginsUntracked | acquireRetries | opens | findsNothing | starts | applies =>
    refine .inl ⟨rfl, fun e he => ?_⟩
    rw [List.mem_singleton.mp he]
    rfl
  | _ => exact .inl ⟨rfl, List.forall_mem_nil _⟩

end FeedTask

/-! ### The roots -/

namespace System

/-- Some feed of a root is open, and the supervisor has still to wait for it. -/
def OpenAt (r : String) (s : System) : Prop :=
  ∃ i ∈ s.awaited, ∃ t, s.feeds[i]? = some t ∧ root t.label = r ∧ t.phase.isOpen = true

/-- No feed of a root has begun. -/
def Sleeps (r : String) (s : System) : Prop :=
  ∀ (i : Nat) (t : FeedTask), s.feeds[i]? = some t → root t.label = r → t.phase = .asleep

/-- A root is shut in what has been published, or some feed of it is open, or nothing has been heard of it. -/
def Minded (s : System) (events : List Event) : Prop :=
  ∀ r, Shut r events ∨ s.OpenAt r ∨ (Unheard r events ∧ s.Sleeps r)

theorem minded_start (settings : Settings) (factories : Nat) (l : Ledger) :
    Minded (start settings factories l) [] := by
  intro r
  refine .inr (.inr ⟨List.forall_mem_nil _, fun i t ht _ => ?_⟩)
  simp only [start, List.getElem?_map] at ht
  obtain ⟨feed, -, rfl⟩ := Option.map_eq_some_iff.mp ht
  rfl

/-- A root is that of some of the feeds. -/
def IsRootOf (feeds : List Feed) (r : String) : Prop := ∃ feed ∈ feeds, root feed.label = r

/-- When the supervisor has waited for all feeds, their roots are shut, and nothing was heard of any other. -/
theorem Minded.over {s : System} {events : List Event} {feeds : List Feed} (h : s.Minded events)
    (ha : Attended feeds s) (hover : s.awaited = []) (r : String) :
    Shut r events ∨ (Unheard r events ∧ ¬ IsRootOf (s.feeds.map (·.feed)) r) := by
  rcases h r with hshut | ⟨i, hi, -⟩ | ⟨hunheard, hsleeps⟩
  · exact .inl hshut
  · rw [hover] at hi
    cases hi
  · refine .inr ⟨hunheard, ?_⟩
    rintro ⟨feed, hfeed, hroot⟩
    obtain ⟨t, hmem, rfl⟩ := List.mem_map.mp hfeed
    obtain ⟨i, ht⟩ := List.mem_iff_getElem?.mp hmem
    obtain ⟨joined, hj⟩ := ha.joined
    -- a feed that the supervisor has waited for is over, and so it has begun
    have hasleep := hsleeps i t ht hroot
    have hwaits := hj.awaited_of_not_finished ht (by rw [FeedTask.finished, hasleep])
    rw [hover] at hwaits
    cases hwaits

/-- The numbers of the events do not matter. -/
theorem Minded.congr {s : System} {events others : List Event} (h : s.Minded events)
    (heq : others.map Event.headline = events.map Event.headline) : s.Minded others := by
  intro r
  rcases h r with hshut | hopen | ⟨hunheard, hsleeps⟩
  · exact .inl (hshut.congr heq)
  · exact .inr (.inl hopen)
  · exact .inr (.inr ⟨hunheard.congr heq, hsleeps⟩)

/-- Events that are about no feed change nothing. -/
theorem Minded.append {s : System} {events more : List Event} (h : s.Minded events)
    (hmore : ∀ e ∈ more, e.root? = none) : s.Minded (events ++ more) := by
  intro r
  have hother : ∀ e ∈ more, e.root? ≠ some r := fun e he => by rw [hmore e he]; nofun
  rcases h r with hshut | hopen | ⟨hunheard, hsleeps⟩
  · exact .inl (hshut.append fun e he hopens => hother e he hopens.2)
  · exact .inr (.inl hopen)
  · exact .inr (.inr ⟨hunheard.append hother, hsleeps⟩)

section
variable {feeds : List Feed} {s s' : System} {events : List Event} {move : Move} {effects : List Effect}
  {r : String}

/-- A root stays open while its feeds do nothing and the supervisor waits for them. -/
theorem OpenAt.step (ho : s.OpenAt r) (h : s.step move = some (s', effects))
    (hother : ∀ i t a, s.feeds[i]? = some t → root t.label = r → move ≠ .feed i a)
    (hstay : ∀ i ∈ s.awaited, ∀ t, s.feeds[i]? = some t → root t.label = r → t.phase.isOpen = true →
      i ∈ s'.awaited) : s'.OpenAt r := by
  obtain ⟨i, hi, t, ht, hroot, hopen⟩ := ho
  obtain ⟨t', ht', hfeed⟩ := exists_after h ht
  have hphase := (phase_of_other h (fun a => hother i t a ht hroot) ht ht').1
  refine ⟨i, hstay i hi t ht hroot hopen, t', ht', ?_, hphase ▸ hopen⟩
  rw [FeedTask.label, hfeed]
  exact hroot

/-- A root of which no feed has begun stays so while its feeds do nothing. -/
theorem Sleeps.step (hs : s.Sleeps r) (h : s.step move = some (s', effects))
    (hother : ∀ i t a, s.feeds[i]? = some t → root t.label = r → move ≠ .feed i a) : s'.Sleeps r := by
  intro i t' ht' hroot
  obtain ⟨t, ht⟩ := exists_before h ht'
  rw [FeedTask.label, feed_step h ht ht'] at hroot
  rw [(phase_of_other h (fun a => hother i t a ht hroot) ht ht').1]
  exact hs i t ht hroot

/-- Whom the supervisor waits for changes with its own steps only. -/
theorem awaited_of_watch (h : s.step move = some (s', effects)) (hm : move ≠ .supervise) :
    s'.awaited = s.awaited := by
  rw [awaited_step h, (books_step h hm).1]
  rfl

/-- A feed makes a step. -/
theorem Minded.step_feed (hm : s.Minded events) (ha : Attended feeds s) {i : Nat} {a : Act}
    (h : s.step (.feed i a) = some (s', effects)) : s'.Minded (events ++ published effects) := by
  obtain ⟨joined, hj⟩ := ha.joined
  obtain ⟨t, next, ht, hr, hs', rfl⟩ := System.step_feed h
  have hawaited : s'.awaited = s.awaited := awaited_of_watch h nofun
  have htells := hr.tells
  intro r
  by_cases hroot : root t.label = r
  · subst hroot
    rcases htells with ⟨hopen, -⟩ | ⟨e, hpublished, hshuts⟩
    · refine .inr (.inl ⟨i, ?_, next.task, ?_, ?_, hopen⟩)
      · rw [hawaited]
        exact hj.awaited_of_not_finished ht hr.not_finished
      · rw [hs']
        exact List.getElem?_set_self (List.getElem?_eq_some_iff.mp ht).1
      · rw [FeedTask.label, hr.frame.1]
        rfl
    · rw [hpublished]
      exact .inl (Tracker.shut_snoc _ hshuts)
  · have hother : ∀ k u b, s.feeds[k]? = some u → root u.label = r → Move.feed i a ≠ .feed k b := by
      rintro k u b hu hr' ⟨⟩
      rw [ht] at hu
      cases hu
      exact hroot hr'
    have habout : ∀ e ∈ published next.effects, e.root? ≠ some r := by
      intro e he hr'
      rcases htells with ⟨-, hall⟩ | ⟨e', hpublished, hshuts⟩
      · rw [hall e he] at hr'
        exact hroot (Option.some.inj hr')
      · rw [hpublished, List.mem_singleton] at he
        rw [he, hshuts.2] at hr'
        exact hroot (Option.some.inj hr')
    rcases hm r with hshut | hopen | ⟨hunheard, hsleeps⟩
    · exact .inl (hshut.append fun e he hopens => habout e he hopens.2)
    · exact .inr (.inl (hopen.step h hother fun k hk u _ _ _ => hawaited ▸ hk))
    · exact .inr (.inr ⟨hunheard.append habout, hsleeps.step h hother⟩)

/-- A partition makes a step, which it may do long after its feed is over. -/
theorem Minded.step_partition (hm : s.Minded events) (htidy : s.Tidy) {i j : Nat} {a : Act}
    (h : s.step (.partition i j a) = some (s', effects)) : s'.Minded (events ++ published effects) := by
  obtain ⟨t, p, next, releases, ht, hp, hr, -, rfl⟩ := System.step_partition h
  have hawaited : s'.awaited = s.awaited := awaited_of_watch h nofun
  -- a feed that has not begun has no partition that could make a step
  have hbegun : t.phase ≠ .asleep := by
    intro hasleep
    have hended := (htidy.rests i t ht).idle (by rw [hasleep]; rfl) j p hp
    rw [hr.ended?_eq_none] at hended
    cases hended
  intro r
  rcases hm r with hshut | hopen | ⟨hunheard, hsleeps⟩
  · exact .inl (hshut.append fun e he hopens => (hr.root?_of_published he).2 hopens.1)
  · exact .inr (.inl (hopen.step h (fun _ _ _ _ _ => nofun) fun k hk u _ _ _ => hawaited ▸ hk))
  · refine .inr (.inr ⟨hunheard.append fun e he hr' => ?_, hsleeps.step h fun _ _ _ _ _ => nofun⟩)
    rw [(hr.root?_of_published he).1] at hr'
    exact hbegun (hsleeps i t ht (Option.some.inj hr'))

/-- What a step of the supervisor is for the roots: nothing, or the outcome of a feed that crashed. -/
theorem supervise_tells (hp : s.Posted) (h : s.step .supervise = some (s', effects)) :
    ((∀ e ∈ published effects, e.root? = none) ∧
      ∀ i ∈ s.awaited, ∀ t, s.feeds[i]? = some t → t.phase.isOpen = true → i ∈ s'.awaited) ∨
    ∃ i t e, s.feeds[i]? = some t ∧ t.phase ≠ .asleep ∧ published effects = [e] ∧
      e.Shuts (root t.label) ∧ ∀ k ∈ s.awaited, k ≠ i → k ∈ s'.awaited := by
  rw [awaited_step h, awaited]
  -- the first feed that the supervisor waits for is done
  have joins : ∀ {stage : Stage} {k : Nat} {left : List Nat} {u : FeedTask},
      s.watch = .joining stage (k :: left) → s.feeds[k]? = some u → u.phase.isOpen = false →
      ∀ i ∈ Watch.ahead (s.indices .streams) (s.indices .globals) s.watch, ∀ t, s.feeds[i]? = some t →
        t.phase.isOpen = true →
        i ∈ Watch.ahead (s.indices .streams) (s.indices .globals) (.joining stage left) := by
    intro stage k left u hw hu hdone i hi t ht hopen
    rw [hw] at hi
    rcases List.mem_cons.mp hi with rfl | hlater
    · rw [ht] at hu
      cases hu
      rw [hopen] at hdone
      cases hdone
    · exact hlater
  cases supervision_of_supervise h with
  | opens hw =>
    refine .inl ⟨fun e he => ?_, fun i hi t ht _ => ?_⟩
    · rw [List.mem_singleton.mp he]
      rfl
    · rw [hw] at hi
      exact hi
  | hasStreams hw => exact .inl ⟨List.forall_mem_nil _, fun i hi t ht _ => by rw [hw] at hi; exact hi⟩
  | hasGlobals hw => exact .inl ⟨List.forall_mem_nil _, fun i hi t ht _ => by rw [hw] at hi; exact hi⟩
  | joinsDone hw hu hdone =>
    exact .inl ⟨List.forall_mem_nil _, joins hw hu (by rw [hdone]; rfl)⟩
  | joinsFailed hw hu hdone =>
    exact .inl ⟨List.forall_mem_nil _, joins hw hu (by rw [hdone]; rfl)⟩
  | joinsCrashed hw => exact .inl ⟨List.forall_mem_nil _, fun i hi t ht _ => by rw [hw] at hi; exact hi⟩
  | buries hw =>
    refine .inl ⟨fun e he => ?_, fun i hi t ht _ => by rw [hw] at hi; exact hi⟩
    rw [published_tell] at he
    cases he
  | @hasBuried stage left k message u hw hu =>
    obtain ⟨-, t, ht, hcrash, -⟩ := hp.buries _ _ _ _ _ hw
    rw [hu] at ht
    cases ht
    refine .inr ⟨k, u, _, hu, by simp [hcrash], rfl, ⟨rfl, rfl⟩, fun i hi hne => ?_⟩
    rw [hw] at hi
    exact (List.mem_cons.mp hi).resolve_left hne
  | hasChecked hw =>
    refine .inl ⟨List.forall_mem_nil _, fun i hi t ht _ => ?_⟩
    rw [hw] at hi
    exact List.mem_append_left _ hi
  | passesFinished hw | passesSound hw | blames hw | halts hw =>
    exact .inl ⟨List.forall_mem_nil _, fun i hi t ht _ => by rw [hw] at hi; exact hi⟩
  | closes hw =>
    refine .inl ⟨fun e he => ?_, fun i hi t ht _ => by rw [hw] at hi; exact hi⟩
    rw [List.mem_singleton.mp he]
    unfold outcomeEvent
    split <;> rfl

/-- The supervisor makes a step. -/
theorem Minded.step_supervise (hm : s.Minded events) (hp : s.Posted)
    (h : s.step .supervise = some (s', effects)) : s'.Minded (events ++ published effects) := by
  intro r
  rcases supervise_tells hp h with ⟨hnone, hstay⟩ | ⟨i, t, e, ht, hbegun, hpublished, hshuts, hstay⟩
  · rcases hm.append hnone r with hshut | hopen | ⟨hunheard, hsleeps⟩
    · exact .inl hshut
    · exact .inr (.inl (hopen.step h (fun _ _ _ _ _ => nofun) fun k hk u hu _ hopen => hstay k hk u hu hopen))
    · exact .inr (.inr ⟨hunheard, hsleeps.step h fun _ _ _ _ _ => nofun⟩)
  · rw [hpublished]
    by_cases hroot : root t.label = r
    · subst hroot
      exact .inl (Tracker.shut_snoc _ hshuts)
    · have hother : ∀ x ∈ [e], x.root? ≠ some r := by
        intro x hx
        rw [List.mem_singleton.mp hx, hshuts.2]
        exact fun heq => hroot (Option.some.inj heq)
      rcases hm r with hshut | hopen | ⟨hunheard, hsleeps⟩
      · exact .inl (hshut.append fun x hx hopens => hother x hx hopens.2)
      · refine .inr (.inl (hopen.step h (fun _ _ _ _ _ => nofun) fun k hk u hu hr _ => hstay k hk ?_))
        rintro rfl
        rw [ht] at hu
        cases hu
        exact hroot hr
      · exact .inr (.inr ⟨hunheard.append hother, hsleeps.step h fun _ _ _ _ _ => nofun⟩)

/-- Every step keeps an eye on the roots. -/
theorem Minded.step (hm : s.Minded events) (ha : Attended feeds s) (htidy : s.Tidy)
    (h : s.step move = some (s', effects)) : s'.Minded (events ++ published effects) := by
  cases move with
  | feed i a => exact hm.step_feed ha h
  | partition i j a => exact hm.step_partition htidy h
  | supervise => exact hm.step_supervise ha.posted h
  | cancel | reset _ | record _ =>
    cases h
    exact hm.append (List.forall_mem_nil _)

/-- What a read publishes is about its feeds. -/
theorem within_of_step (hp : s.Posted) (h : s.step move = some (s', effects)) :
    ∀ e ∈ published effects, e.Within (IsRootOf (s.feeds.map (·.feed))) := by
  -- an event that names a task is about the root of its feed
  have about : ∀ {i : Nat} {t : FeedTask} {e : Event}, s.feeds[i]? = some t →
      e.root? = some (root t.label) → e.Within (IsRootOf (s.feeds.map (·.feed))) := by
    intro i t e ht he r hr
    rw [he] at hr
    cases hr
    exact ⟨t.feed, List.mem_map_of_mem (List.mem_of_getElem? ht), rfl⟩
  intro e he
  cases move with
  | feed i a =>
    obtain ⟨t, next, ht, hr, -, rfl⟩ := System.step_feed h
    rcases hr.tells with ⟨-, hall⟩ | ⟨e', hpublished, hshuts⟩
    · exact about ht (hall e he)
    · rw [hpublished, List.mem_singleton] at he
      exact about ht (he ▸ hshuts.2)
  | partition i j a =>
    obtain ⟨t, p, next, releases, ht, hp, hr, -, rfl⟩ := System.step_partition h
    exact about ht (hr.root?_of_published he).1
  | supervise =>
    rcases supervise_tells hp h with ⟨hnone, -⟩ | ⟨i, t, e', ht, -, hpublished, hshuts, -⟩
    · intro r hr
      rw [hnone e he] at hr
      cases hr
    · rw [hpublished, List.mem_singleton] at he
      exact about ht (he ▸ hshuts.2)
  | cancel | reset _ | record _ =>
    cases h
    cases he

end

end System

end Intake.Read
