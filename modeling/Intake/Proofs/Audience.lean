import Intake.Delivery
import Mathlib.Data.List.Basic
/-!
# Fan-out without silent loss

Subscribers are offered events and work at them, all at their own speed. A move (`Audience.step`) is one thing
that happens to one subscriber: it is offered an event, it begins with the next event of its queue, or it is
done with the event in hand, with or without a crash. Emitting an event is offering it to all subscribers, one
after the other (`Audience.run_emission`); between any two of these offers, and during other emissions, anybody
may go on. So a list of moves is one interleaving of emissions with the work of the subscribers.

The steps of a run are `Turn`s of single subscribers. `Rule.account` says for one turn, and `account_run` for
all turns of a subscriber, that nothing gets lost: what it has handled, has in hand and has in its queue is what
it was offered and did not drop. `turnsOf_trace` says that the turns of a subscriber depend on nothing but what
happened to it. `Delivery.rule_of_step` gives the steps of a delivery rule by rule: those that do something to a
subscriber do it in the same way and put on the ring all that is to publish. The main statement is
`fan_out_without_silent_loss`.
-/

namespace Intake

namespace Subscriber

/-- What can happen to a subscriber that does not die. -/
inductive Deed
  | offer (e : Event)
  | take
  | finish (h : Handling)

/-- The event that is offered. -/
def Deed.event? : Deed → Option Event
  | .offer e => some e
  | _ => none

/-- Something happens to a subscriber, if it can; the answer has the events to publish. -/
def act (s : Subscriber) : Deed → Option (Subscriber × List Event)
  | .offer e => some ((s.offer e).1, s.report e (s.offer e).2)
  | .take => s.take.map (·, [])
  | .finish h => s.finish h

/-- What the end of a handling publishes under the name of a subscriber. -/
def crashReport (name : String) : Handling → List Event
  | .done => []
  | .crashed message => [Event.subscriberCrash name message]

/-- A subscriber that is alive and whose queue holds no more than there is room for. -/
structure Sound (s : Subscriber) : Prop where
  opened : s.closed = false
  fits : s.queue.length ≤ s.room

/-- The rules by which a subscriber goes on. -/
inductive Rule (s : Subscriber) : Deed → Subscriber → List Event → Prop
  | accepts {e : Event} : s.queue.length < s.room →
      Rule s (.offer e) { s with queue := s.queue ++ [e] } []
  | drops {e : Event} : s.queue.length = s.room →
      Rule s (.offer e) s (if e.isOverflow then [] else [Event.overflow s.name Refusal.full.word])
  | takes {e : Event} {rest : List Event} : s.hand = none → s.queue = e :: rest →
      Rule s .take { s with hand := some e, queue := rest } []
  | handles {e : Event} : s.hand = some e → Rule s (.finish .done) { s with hand := none } []
  | crashes {e : Event} {message : String} : s.hand = some e →
      Rule s (.finish (.crashed message)) { s with hand := none }
        [Event.subscriberCrash s.name message]

section
variable {s s' : Subscriber} {deed : Deed} {published : List Event}

theorem offer_of_lt (hs : s.Sound) (hroom : s.queue.length < s.room) (e : Event) :
    s.offer e = ({ s with queue := s.queue ++ [e] }, none) := by
  rw [offer, hs.opened, if_neg Bool.false_ne_true, if_pos hroom]

theorem offer_of_eq (hs : s.Sound) (hfull : s.queue.length = s.room) (e : Event) :
    s.offer e = (s, some .full) := by
  rw [offer, hs.opened, if_neg Bool.false_ne_true, if_neg (by omega)]

/-- A subscriber with nothing in hand begins with the first event of its queue. -/
theorem take_eq_some (h : s.take = some s') :
    ∃ e rest, s.hand = none ∧ s.queue = e :: rest ∧ s' = { s with hand := some e, queue := rest } := by
  unfold take at h
  split at h
  · rename_i hhand hqueue
    cases h
    exact ⟨_, _, hhand, hqueue, rfl⟩
  · cases h

theorem finish_eq_some {handling : Handling} (h : s.finish handling = some (s', published)) :
    ∃ e, s.hand = some e ∧ s' = { s with hand := none } ∧ published = crashReport s.name handling := by
  unfold finish at h
  split at h
  · cases h
  · rename_i e hhand
    cases h
    cases handling with
    | done => exact ⟨e, hhand, rfl, rfl⟩
    | crashed message => exact ⟨e, hhand, rfl, rfl⟩

/-- Only who has something in hand dies over it. -/
theorem die_eq_some (h : s.die = some s') :
    ∃ e, s.hand = some e ∧ s' = { s with hand := none, queue := [], closed := true } := by
  unfold die at h
  split at h
  · cases h
  · rename_i e hhand
    cases h
    exact ⟨e, hhand, rfl⟩

/-- Whatever happens to a subscriber happens by one of the rules. -/
theorem rule_of_act (hs : s.Sound) (h : s.act deed = some (s', published)) :
    Rule s deed s' published := by
  cases deed with
  | offer e =>
    rcases Nat.lt_or_eq_of_le hs.fits with hroom | hfull
    · rw [act, offer_of_lt hs hroom] at h
      cases h
      exact .accepts hroom
    · rw [act, offer_of_eq hs hfull] at h
      cases h
      exact .drops hfull
  | take =>
    obtain ⟨next, hnext, heq⟩ := Option.map_eq_some_iff.mp h
    cases heq
    obtain ⟨e, rest, hhand, hqueue, rfl⟩ := take_eq_some hnext
    exact .takes hhand hqueue
  | finish handling =>
    obtain ⟨e, hhand, rfl, rfl⟩ := finish_eq_some h
    cases handling with
    | done => exact .handles hhand
    | crashed message => exact .crashes hhand

theorem Rule.sound (h : Rule s deed s' published) (hs : s.Sound) : s'.Sound := by
  cases h with
  | accepts hroom =>
    refine ⟨hs.opened, ?_⟩
    rw [List.length_append]
    exact hroom
  | drops => exact hs
  | @takes e rest hhand hqueue =>
    refine ⟨hs.opened, ?_⟩
    have hfits := hs.fits
    rw [hqueue] at hfits
    exact Nat.le_of_succ_le hfits
  | handles | crashes => exact ⟨hs.opened, hs.fits⟩

/-- Who a subscriber is stays the same. -/
theorem Rule.frame (h : Rule s deed s' published) : s'.name = s.name ∧ s'.capacity = s.capacity := by
  cases h <;> exact ⟨rfl, rfl⟩

theorem idle_iff : s.idle = true ↔ s.hand = none ∧ s.queue = [] := by
  simp only [idle, Bool.and_eq_true, Option.isNone_iff_eq_none, List.isEmpty_iff]

/-- A subscriber with something in hand can be done with it. -/
theorem isSome_act_finish (hhand : s.hand.isSome = true) (h : Handling) :
    (s.act (.finish h)).isSome = true := by
  obtain ⟨e, he⟩ := Option.isSome_iff_exists.mp hhand
  simp only [act, finish, he, Option.isSome_some]

/-- A subscriber with nothing in hand can begin with what waits in its queue. -/
theorem isSome_act_take (hs : s.Sound) (hhand : s.hand = none) (hqueue : s.queue ≠ []) :
    (s.act .take).isSome = true := by
  obtain ⟨e, rest, hcons⟩ := List.exists_cons_of_ne_nil hqueue
  simp only [act, take, hs.opened, hhand, hcons, Option.map_some, Option.isSome_some]

end

/-! ### Turns -/

/-- One thing that happened to a subscriber, with what was published for it. -/
structure Turn where
  before : Subscriber
  deed : Deed
  published : List Event
  after : Subscriber

namespace Turn

/-- The event that was offered. -/
def offered? (t : Turn) : Option Event := t.deed.event?

/-- Whether an event was offered and dropped. -/
def isDrop (t : Turn) : Bool :=
  match t.deed with
  | .offer e => (t.before.offer e).2.isSome
  | _ => false

/-- The event that was offered and not dropped. -/
def kept? (t : Turn) : Option Event := if t.isDrop then none else t.offered?

/-- The event that the subscriber was done with. -/
def handled? (t : Turn) : Option Event :=
  match t.deed with
  | .finish _ => t.before.hand
  | _ => none

end Turn

/-- The events that a subscriber was offered in some turns, in order. -/
def offered (turns : List Turn) : List Event := turns.filterMap Turn.offered?

/-- Those of them that were not dropped. -/
def kept (turns : List Turn) : List Event := turns.filterMap Turn.kept?

/-- The events that a subscriber has handled in some turns, in order. -/
def handled (turns : List Turn) : List Event := turns.filterMap Turn.handled?

/-- Follows what happens to a subscriber. -/
def run (s : Subscriber) : List Deed → Option Subscriber
  | [] => some s
  | deed :: rest => do
    let (s, _) ← s.act deed
    run s rest

/-- The turns of a subscriber, as far as they can be made. -/
def trace (s : Subscriber) : List Deed → List Turn
  | [] => []
  | deed :: rest =>
    match s.act deed with
    | none => []
    | some (s', published) => ⟨s, deed, published, s'⟩ :: trace s' rest

section
variable {s s' : Subscriber} {deed : Deed} {deeds : List Deed} {published : List Event}

theorem trace_cons (h : s.act deed = some (s', published)) (rest : List Deed) :
    s.trace (deed :: rest) = ⟨s, deed, published, s'⟩ :: s'.trace rest := by
  simp only [trace, h]

theorem run_cons_iff {rest : List Deed} : s.run (deed :: rest) = some s' ↔
    ∃ mid published, s.act deed = some (mid, published) ∧ mid.run rest = some s' := by
  simp only [run, Option.bind_eq_bind, Option.bind_eq_some_iff, Prod.exists]

/-- An event is dropped just when the queue holds all there is room for. -/
theorem isDrop_iff (hs : s.Sound) (e : Event) (published : List Event) (s' : Subscriber) :
    Turn.isDrop ⟨s, .offer e, published, s'⟩ = true ↔ s.queue.length = s.room := by
  show (s.offer e).2.isSome = true ↔ s.queue.length = s.room
  rcases Nat.lt_or_eq_of_le hs.fits with hroom | hfull
  · rw [offer_of_lt hs hroom]
    exact iff_of_false nofun (Nat.ne_of_lt hroom)
  · rw [offer_of_eq hs hfull]
    exact iff_of_true rfl hfull

/-- What an offer publishes. -/
theorem Rule.published_offer {e : Event} (h : Rule s (.offer e) s' published) (hs : s.Sound) :
    published = if Turn.isDrop ⟨s, .offer e, published, s'⟩ && !e.isOverflow then
      [Event.overflow s.name "full"] else [] := by
  have hdrop := isDrop_iff hs e published s'
  cases h with
  | accepts hroom =>
    rw [Bool.eq_false_iff.mpr fun h => Nat.ne_of_lt hroom (hdrop.mp h)]
    rfl
  | drops hfull =>
    rw [hdrop.mpr hfull]
    cases e.isOverflow <;> rfl

theorem Rule.published_take (h : Rule s .take s' published) : published = [] := by
  cases h
  rfl

/-- What becomes of a subscriber that is done with an event, and what this publishes. -/
theorem Rule.of_finish {handling : Handling} (h : Rule s (.finish handling) s' published) :
    s' = { s with hand := none } ∧ published = crashReport s.name handling := by
  cases h <;> exact ⟨rfl, rfl⟩

theorem offered_trace (hrun : s.run deeds = some s') :
    offered (s.trace deeds) = deeds.filterMap Deed.event? := by
  induction deeds generalizing s with
  | nil => rfl
  | cons deed rest ih =>
    obtain ⟨mid, published, hact, hrest⟩ := run_cons_iff.mp hrun
    rw [trace_cons hact, offered, List.filterMap_cons, List.filterMap_cons, ← ih hrest]
    rfl

/-- With one turn, what a subscriber handles and what it then has is what it had and what it keeps. -/
theorem Rule.account (h : Rule s deed s' published) (hs : s.Sound) :
    (Turn.handled? ⟨s, deed, published, s'⟩).toList ++ (s'.hand.toList ++ s'.queue) =
      s.hand.toList ++ s.queue ++ (Turn.kept? ⟨s, deed, published, s'⟩).toList := by
  cases h with
  | @accepts e hroom =>
    have hno : ¬ Turn.isDrop ⟨s, .offer e, [], { s with queue := s.queue ++ [e] }⟩ = true := by
      rw [isDrop_iff hs]
      exact Nat.ne_of_lt hroom
    simp only [Turn.kept?, if_neg hno, Turn.handled?, Turn.offered?, Deed.event?, Option.toList_none,
      List.nil_append, Option.toList_some, List.append_assoc]
  | @drops e hfull =>
    simp only [Turn.kept?, if_pos ((isDrop_iff hs e _ s).mpr hfull), Turn.handled?, Option.toList_none,
      List.nil_append, List.append_nil]
  | takes hhand hqueue =>
    simp [hhand, hqueue, Turn.kept?, Turn.handled?, Turn.offered?, Deed.event?]
  | handles hhand | crashes hhand =>
    simp [hhand, Turn.kept?, Turn.handled?, Turn.offered?, Deed.event?]

/-- What a subscriber has handled, has in hand and has in its queue is what it had at first and what it has
kept of what it was offered, in order. -/
theorem account_run (hs : s.Sound) (hrun : s.run deeds = some s') :
    handled (s.trace deeds) ++ (s'.hand.toList ++ s'.queue) =
      s.hand.toList ++ s.queue ++ kept (s.trace deeds) := by
  induction deeds generalizing s with
  | nil =>
    cases hrun
    exact (List.append_nil _).symm
  | cons deed rest ih =>
    obtain ⟨mid, published, hact, hrest⟩ := run_cons_iff.mp hrun
    have hr := rule_of_act hs hact
    have hfirst := hr.account hs
    have hlater := ih (hr.sound hs) hrest
    rw [trace_cons hact]
    generalize (⟨s, deed, published, mid⟩ : Turn) = turn at hfirst
    have hhandled : handled (turn :: mid.trace rest) = turn.handled?.toList ++ handled (mid.trace rest) := by
      rw [handled, List.filterMap_cons]
      rcases turn.handled? <;> rfl
    have hkept : kept (turn :: mid.trace rest) = turn.kept?.toList ++ kept (mid.trace rest) := by
      rw [kept, List.filterMap_cons]
      rcases turn.kept? <;> rfl
    calc handled (turn :: mid.trace rest) ++ (s'.hand.toList ++ s'.queue)
        = turn.handled?.toList ++ (handled (mid.trace rest) ++ (s'.hand.toList ++ s'.queue)) := by
          rw [hhandled, List.append_assoc]
      _ = turn.handled?.toList ++ (mid.hand.toList ++ mid.queue) ++ kept (mid.trace rest) := by
          rw [hlater, List.append_assoc turn.handled?.toList]
      _ = s.hand.toList ++ s.queue ++ kept (turn :: mid.trace rest) := by
          rw [hfirst, hkept, List.append_assoc (s.hand.toList ++ s.queue)]

theorem sound_run (hs : s.Sound) (hrun : s.run deeds = some s') : s'.Sound := by
  induction deeds generalizing s with
  | nil =>
    cases hrun
    exact hs
  | cons deed rest ih =>
    obtain ⟨mid, published, hact, hrest⟩ := run_cons_iff.mp hrun
    exact ih ((rule_of_act hs hact).sound hs) hrest

/-- Every turn of a subscriber is by one of the rules, and it is the turn of this subscriber. -/
theorem rule_of_mem_trace (hs : s.Sound) {turn : Turn} (hmem : turn ∈ s.trace deeds) :
    turn.before.Sound ∧ Rule turn.before turn.deed turn.after turn.published ∧
      turn.before.name = s.name ∧ turn.before.capacity = s.capacity := by
  induction deeds generalizing s with
  | nil => cases hmem
  | cons deed rest ih =>
    rcases hact : s.act deed with _ | ⟨mid, published⟩
    · simp [trace, hact] at hmem
    · rw [trace_cons hact] at hmem
      have hr := rule_of_act hs hact
      rcases List.mem_cons.mp hmem with rfl | hlater
      · exact ⟨hs, hr, rfl, rfl⟩
      · obtain ⟨hsound, hrule, hname, hcapacity⟩ := ih (hr.sound hs) hlater
        exact ⟨hsound, hrule, hname.trans hr.frame.1, hcapacity.trans hr.frame.2⟩

end

end Subscriber

/-! ### The audience -/

namespace Audience

open Subscriber (Deed Turn)

/-- Subscribers of some names and capacities at the beginning. -/
def seated (l : List (String × Nat)) : Audience := l.map fun p => { name := p.1, capacity := p.2 }

/-- Something happens to one of the subscribers; the answer has the events to publish. -/
def step (a : Audience) (m : Nat × Deed) : Option (Audience × List Event) := do
  let s ← a[m.1]?
  let (s, published) ← s.act m.2
  return (a.set m.1 s, published)

/-- Follows what happens to the subscribers; the answer has all events to publish, in order. -/
def run (a : Audience) : List (Nat × Deed) → Option (Audience × List Event)
  | [] => some (a, [])
  | m :: rest => do
    let (a, published) ← a.step m
    let (a, more) ← run a rest
    return (a, published ++ more)

/-- The turns of all subscribers, each with the index of its subscriber. -/
def trace (a : Audience) : List (Nat × Deed) → List (Nat × Turn)
  | [] => []
  | m :: rest =>
    match a[m.1]?, (a[m.1]?).bind (·.act m.2) with
    | some s, some (s', published) =>
      (m.1, ⟨s, m.2, published, s'⟩) :: trace (a.set m.1 s') rest
    | _, _ => []

/-- What happens to one subscriber. -/
def deedsOf (i : Nat) (moves : List (Nat × Deed)) : List Deed :=
  moves.filterMap fun m => if m.1 = i then some m.2 else none

/-- The turns of one subscriber. -/
def turnsOf (i : Nat) (turns : List (Nat × Turn)) : List Turn :=
  turns.filterMap fun t => if t.1 = i then some t.2 else none

/-- Offering an event to every subscriber, one after the other. -/
def emission (a : Audience) (e : Event) : List (Nat × Deed) :=
  (List.range a.length).map fun i => (i, .offer e)

/-- The offers among what happens, with the subscribers they are made to. -/
def offers (moves : List (Nat × Deed)) : List (Nat × Event) :=
  moves.filterMap fun m => m.2.event?.map (m.1, ·)

/-- The offers of some emissions to a number of subscribers, made one after the other. -/
def emissions (n : Nat) (events : List Event) : List (Nat × Event) :=
  events.flatMap fun e => (List.range n).map (·, e)

section
variable {a a' : Audience} {m : Nat × Deed} {moves rest : List (Nat × Deed)} {published : List Event}
  {i : Nat} {s : Subscriber}

theorem step_iff : a.step m = some (a', published) ↔
    ∃ s s', a[m.1]? = some s ∧ s.act m.2 = some (s', published) ∧ a' = a.set m.1 s' := by
  simp only [step, Option.bind_eq_bind, Option.bind_eq_some_iff, Prod.exists]
  constructor
  · rintro ⟨s, hs, s', events, hact, heq⟩
    cases heq
    exact ⟨s, s', hs, hact, rfl⟩
  · rintro ⟨s, s', hs, hact, rfl⟩
    exact ⟨s, hs, s', published, hact, rfl⟩

theorem run_cons_iff : a.run (m :: rest) = some (a', published) ↔
    ∃ mid first later, a.step m = some (mid, first) ∧ mid.run rest = some (a', later) ∧
      published = first ++ later := by
  simp only [run, Option.bind_eq_bind, Option.bind_eq_some_iff, Prod.exists]
  constructor
  · rintro ⟨mid, first, hstep, last, later, hrest, heq⟩
    cases heq
    exact ⟨mid, first, later, hstep, hrest, rfl⟩
  · rintro ⟨mid, first, later, hstep, hrest, rfl⟩
    exact ⟨mid, first, hstep, a', later, hrest, rfl⟩

theorem trace_cons {s' : Subscriber} (hs : a[m.1]? = some s) (hact : s.act m.2 = some (s', published)) :
    a.trace (m :: rest) = (m.1, ⟨s, m.2, published, s'⟩) :: trace (a.set m.1 s') rest := by
  simp only [trace, hs, Option.bind_some, hact]

/-- What is published in a run is what is published in its turns. -/
theorem published_eq (hrun : a.run moves = some (a', published)) :
    published = (a.trace moves).flatMap (·.2.published) := by
  induction moves generalizing a published with
  | nil =>
    cases hrun
    rfl
  | cons m rest ih =>
    obtain ⟨mid, first, later, hstep, hrest, rfl⟩ := run_cons_iff.mp hrun
    obtain ⟨s, s', hs, hact, rfl⟩ := step_iff.mp hstep
    rw [trace_cons hs hact, List.flatMap_cons, ← ih hrest]

/-- What becomes of a subscriber, and all of its turns, depend only on what happens to itself. -/
theorem turnsOf_trace (hrun : a.run moves = some (a', published)) (hs : a[i]? = some s) :
    ∃ s', a'[i]? = some s' ∧ s.run (deedsOf i moves) = some s' ∧
      turnsOf i (a.trace moves) = s.trace (deedsOf i moves) := by
  induction moves generalizing a s published with
  | nil =>
    cases hrun
    exact ⟨s, hs, rfl, rfl⟩
  | cons m rest ih =>
    obtain ⟨mid, first, later, hstep, hrest, rfl⟩ := run_cons_iff.mp hrun
    obtain ⟨u, u', hu, hact, rfl⟩ := step_iff.mp hstep
    rw [trace_cons hu hact, turnsOf, List.filterMap_cons, deedsOf, List.filterMap_cons]
    by_cases hm : m.1 = i
    · subst hm
      rw [hs] at hu; cases hu
      have hnext : (a.set m.1 u')[m.1]? = some u' :=
        List.getElem?_set_self (List.getElem?_eq_some_iff.mp hs).1
      obtain ⟨s', hs', hown, hturns⟩ := ih hrest hnext
      refine ⟨s', hs', ?_, ?_⟩
      · simp only [if_true]
        exact Subscriber.run_cons_iff.mpr ⟨u', first, hact, hown⟩
      · simp only [if_true]
        rw [Subscriber.trace_cons hact]
        exact congrArg _ hturns
    · have hnext : (a.set m.1 u')[i]? = some s := by
        rw [List.getElem?_set_ne hm]
        exact hs
      simp only [if_neg hm]
      exact ih hrest hnext

/-- The offers to one subscriber. -/
theorem filterMap_deedsOf (i : Nat) (moves : List (Nat × Deed)) :
    (deedsOf i moves).filterMap Deed.event? =
      (offers moves).filterMap fun o => if o.1 = i then some o.2 else none := by
  rw [deedsOf, offers, List.filterMap_filterMap, List.filterMap_filterMap]
  apply List.filterMap_congr
  rintro ⟨k, deed⟩ -
  by_cases hk : k = i
  · cases deed <;> simp [hk, Deed.event?]
  · cases deed <;> simp [hk, Deed.event?]

theorem filterMap_range {n : Nat} (hi : i < n) (e : Event) :
    (List.range n).filterMap (fun k => if k = i then some e else none) = [e] := by
  induction n with
  | zero => cases hi
  | succ n ih =>
    rw [List.range_succ, List.filterMap_append]
    rcases Nat.lt_succ_iff_lt_or_eq.mp hi with hlt | rfl
    · rw [ih hlt]
      simp [Nat.ne_of_gt hlt]
    · have hnone : (List.range i).filterMap (fun k => if k = i then some e else none) = [] :=
        List.filterMap_eq_nil_iff.mpr fun k hk => if_neg (Nat.ne_of_lt (List.mem_range.mp hk))
      rw [hnone]
      simp

/-- Every emission reaches every subscriber once. -/
theorem filterMap_emissions {n : Nat} (hi : i < n) (events : List Event) :
    (emissions n events).filterMap (fun o => if o.1 = i then some o.2 else none) = events := by
  induction events with
  | nil => rfl
  | cons e rest ih =>
    rw [emissions, List.flatMap_cons, List.filterMap_append, List.filterMap_map]
    exact congrArg₂ (· ++ ·) (filterMap_range hi e) ih

theorem step_offer (hi : i < a.length) (e : Event) : a.step (i, .offer e) = some (a.offerTo i e) := by
  have hs := List.getElem?_eq_getElem hi
  rw [offerTo, hs]
  exact step_iff.mpr ⟨_, _, hs, rfl, rfl⟩

/-- Offers to some subscribers, made one after the other. -/
theorem run_offers (e : Event) (indices : List Nat) (hindices : ∀ i ∈ indices, i < a.length)
    (before : List Event) :
    ∃ published, a.run (indices.map (·, .offer e)) =
        some ((indices.foldl (fun (p : Audience × List Event) i =>
          ((p.1.offerTo i e).1, p.2 ++ (p.1.offerTo i e).2)) (a, before)).1, published) ∧
      (indices.foldl (fun (p : Audience × List Event) i =>
        ((p.1.offerTo i e).1, p.2 ++ (p.1.offerTo i e).2)) (a, before)).2 = before ++ published := by
  induction indices generalizing a before with
  | nil => exact ⟨[], rfl, (List.append_nil _).symm⟩
  | cons i rest ih =>
    have hstep := step_offer (hindices i List.mem_cons_self) e
    have hlength : (a.offerTo i e).1.length = a.length := by
      obtain ⟨s, s', -, -, hset⟩ := step_iff.mp hstep
      exact (congrArg List.length hset).trans List.length_set
    obtain ⟨published, hrun, hbefore⟩ := @ih (a.offerTo i e).1
      (fun k hk => hlength ▸ hindices k (List.mem_cons_of_mem _ hk)) (before ++ (a.offerTo i e).2)
    refine ⟨(a.offerTo i e).2 ++ published, ?_, ?_⟩
    · exact run_cons_iff.mpr ⟨_, _, published, hstep, hrun, rfl⟩
    · rw [List.foldl_cons, hbefore, List.append_assoc]

/-- Emitting an event is offering it to all subscribers. -/
theorem run_emission (a : Audience) (e : Event) : a.run (a.emission e) = some (a.emit e) := by
  obtain ⟨published, hrun, hpublished⟩ :=
    a.run_offers e (List.range a.length) (fun i hi => List.mem_range.mp hi) []
  rw [List.nil_append] at hpublished
  rw [emission, hrun, ← hpublished]
  rfl

end

end Audience

/-! ### Deliveries -/

/-- Events under the numbers from a given one on. -/
def Event.numbered (first : Nat) (l : List Event) : List Event :=
  l.mapIdx fun k e => { e with seq := first + k }

theorem Event.numbered_cons (first : Nat) (e : Event) (rest : List Event) :
    Event.numbered first (e :: rest) = { e with seq := first } :: Event.numbered (first + 1) rest := by
  rw [numbered, List.mapIdx_cons, numbered]
  simp only [Nat.add_zero, Nat.add_assoc, Nat.add_comm 1]

namespace Delivery

open Subscriber (Deed)

/-- What a move does to a subscriber. -/
def deed? (d : Delivery) : Move → Option (Nat × Deed)
  | .offer => d.offering.bind fun o => if o.2 < d.audience.length then some (o.2, .offer o.1) else none
  | .take i => some (i, .take)
  | .finish i h => some (i, .finish h)
  | _ => none

/-- What is being offered after a move that does something to a subscriber. -/
def offeringAfter (d : Delivery) : Move → Option (Event × Nat)
  | .offer => d.offering.map fun o => (o.1, o.2 + 1)
  | _ => d.offering

/-- The rules by which a delivery goes on. -/
inductive Rule (d : Delivery) : Move → Delivery → Prop
  | publishes {e : Event} : Rule d (.publish e) (d.publish e)
  | stops : Rule d .stop { d with stopping := true }
  | receives {e : Event} : d.receives = true → d.offering = none → d.ring.history[d.position]? = some e →
      Rule d .receive { d with position := d.position + 1, offering := some (e, 0) }
  | lags {missed position : Nat} : d.ring.receive d.position = (.lagged missed, position) →
      Rule d .receive { d with position }
  /-- Something happens to a subscriber as it does among the subscribers alone, and all that is to publish
  goes on the ring. -/
  | serves {m : Move} {deed : Nat × Deed} {audience : Audience} {published : List Event} :
      d.deed? m = some deed → d.audience.step deed = some (audience, published) →
      Rule d m { d.publishAll published with audience, offering := d.offeringAfter m }
  | hasOffered {e : Event} {i : Nat} : d.offering = some (e, i) → ¬ i < d.audience.length →
      Rule d .offer { d with offering := none }
  | drains : d.listening = .receiving → d.stopping = true → Rule d .turn { d with listening := .draining }
  | hasDrained : d.offering = none → d.listening = .draining → d.ring.history.length ≤ d.position →
      Rule d .turn { d with listening := .closing }
  | closes : d.listening = .closing → d.audience.all Subscriber.idle = true →
      Rule d .close { d with listening := .done }
  | dies {i : Nat} {s s' : Subscriber} : d.audience[i]? = some s → s.die = some s' →
      Rule d (.die i) { d with audience := d.audience.set i s' }

section
variable {d d' : Delivery} {m : Move}

/-- What is published does not depend on the subscribers. -/
theorem publishAll_with (d : Delivery) (l : List Event) (audience : Audience)
    (offering : Option (Event × Nat)) :
    { d with audience, offering }.publishAll l = { d.publishAll l with audience, offering } := by
  induction l generalizing d with
  | nil => rfl
  | cons e rest ih => exact ih (d.publish e)

/-- Publishing changes nothing but the ring and the numbers. -/
theorem publishAll_eq (d : Delivery) (l : List Event) : d.publishAll l =
    { d with ring := (d.publishAll l).ring, nextSeq := (d.publishAll l).nextSeq } := by
  induction l generalizing d with
  | nil => rfl
  | cons e rest ih => exact ih (d.publish e)

/-- What is published stands at the end of the history, under the next numbers. -/
theorem history_publishAll (d : Delivery) (l : List Event) :
    (d.publishAll l).ring.history = d.ring.history ++ Event.numbered d.nextSeq l := by
  induction l generalizing d with
  | nil => exact (List.append_nil _).symm
  | cons e rest ih =>
    calc (d.publishAll (e :: rest)).ring.history
        = (d.publish e).ring.history ++ Event.numbered (d.publish e).nextSeq rest := ih (d.publish e)
      _ = d.ring.history ++ Event.numbered d.nextSeq (e :: rest) := by
          rw [publish, Ring.history_publish, List.append_assoc, Event.numbered_cons]
          rfl

/-- An event that is published is changed in nothing but its number. -/
theorem history_publishAll_map {α : Type} (f : Event → α)
    (hf : ∀ (e : Event) (n : Nat), f { e with seq := n } = f e) (d : Delivery) (l : List Event) :
    ∃ more, (d.publishAll l).ring.history = d.ring.history ++ more ∧ more.map f = l.map f := by
  refine ⟨_, history_publishAll d l, List.ext_getElem (by simp [Event.numbered]) fun k _ _ => ?_⟩
  simp [Event.numbered, hf]

theorem rule_of_receive (h : d.step .receive = some d') : Rule d .receive d' := by
  simp only [step] at h
  split at h
  · rename_i hready
    rw [Bool.and_eq_true, Option.isNone_iff_eq_none] at hready
    split at h
    · cases h
    · rename_i hlagged
      cases h
      exact .lags hlagged
    · rename_i e position hevent
      cases h
      rw [Ring.receive_eq] at hevent
      split at hevent
      · cases hevent
      · split at hevent
        · cases hevent
        · rename_i hget
          cases hevent
          exact .receives hready.1 hready.2 hget
  · cases h

theorem rule_of_offer (h : d.step .offer = some d') : Rule d .offer d' := by
  simp only [step] at h
  split at h
  · cases h
  · rename_i e i hoffering
    split at h
    · rename_i hi
      have hdeed : d.deed? .offer = some (i, .offer e) := by simp [deed?, hoffering, hi]
      have hafter : d.offeringAfter .offer = some (e, i + 1) := by rw [offeringAfter, hoffering]; rfl
      cases h
      rw [publishAll_with, ← hafter]
      exact .serves hdeed (Audience.step_offer hi e)
    · rename_i hi
      cases h
      exact .hasOffered hoffering hi

theorem rule_of_turn (h : d.step .turn = some d') : Rule d .turn d' := by
  simp only [step] at h
  split at h
  · rename_i hlistening _
    split at h
    · rename_i hstopping
      cases h
      exact .drains hlistening hstopping
    · cases h
  · rename_i hoffering hlistening hempty
    cases h
    refine .hasDrained hoffering hlistening ?_
    rw [Ring.receive_eq] at hempty
    split at hempty
    · cases hempty
    · split at hempty
      · rename_i hnone
        exact List.getElem?_eq_none_iff.mp hnone
      · cases hempty
  · cases h

/-- Every step of a delivery is by one of the rules. -/
theorem rule_of_step (h : d.step m = some d') : Rule d m d' := by
  cases m with
  | publish e =>
    cases h
    exact .publishes
  | stop =>
    cases h
    exact .stops
  | receive => exact rule_of_receive h
  | offer => exact rule_of_offer h
  | turn => exact rule_of_turn h
  | close =>
    simp only [step] at h
    split at h
    · rename_i hready
      cases h
      exact .closes hready.1 hready.2
    · cases h
  | take i =>
    simp only [step, Option.bind_eq_bind, Option.bind_eq_some_iff] at h
    obtain ⟨s, hs, s', htake, heq⟩ := h
    cases heq
    have hact : s.act .take = some (s', []) := by rw [Subscriber.act, htake]; rfl
    have hstep : d.audience.step (i, .take) = some (d.audience.set i s', []) :=
      Audience.step_iff.mpr ⟨s, s', hs, hact, rfl⟩
    exact .serves rfl hstep
  | finish i handling =>
    simp only [step, Option.bind_eq_bind, Option.bind_eq_some_iff] at h
    obtain ⟨s, hs, ⟨s', published⟩, hfinish, heq⟩ := h
    cases heq
    have hstep : d.audience.step (i, .finish handling) = some (d.audience.set i s', published) :=
      Audience.step_iff.mpr ⟨s, s', hs, hfinish, rfl⟩
    rw [publishAll_with]
    exact .serves rfl hstep
  | die i =>
    simp only [step, Option.bind_eq_bind, Option.bind_eq_some_iff] at h
    obtain ⟨s, hs, s', hdie, heq⟩ := h
    cases heq
    exact .dies hs hdie

end

end Delivery

namespace Audience

open Subscriber (Deed Turn)

/-! ### The statement -/

/-- What some turns were for the subscriber of a name and a capacity, who has come out of them as it is. -/
structure Serves (name : String) (capacity : Nat) (turns : List Turn) (s : Subscriber) : Prop where
  /-- What it has handled, has in hand and has in its queue is what it was offered and did not drop, each
  event once and in the order of the offers. -/
  account : Subscriber.handled turns ++ (s.hand.toList ++ s.queue) = Subscriber.kept turns
  /-- An event is dropped when the queue is full and else never. A drop is published, unless it is one of an
  event that tells of a drop. -/
  drops : ∀ turn ∈ turns, ∀ e, turn.deed = .offer e →
    (turn.isDrop = true ↔ turn.before.queue.length = max capacity 1) ∧
    turn.published = if turn.isDrop && !e.isOverflow then [Event.overflow name "full"] else []
  /-- Taking an event from the queue publishes nothing. -/
  takes : ∀ turn ∈ turns, turn.deed = .take → turn.published = []
  /-- A crash is published, and it leaves the subscriber as any other end of its work does. -/
  crashes : ∀ turn ∈ turns, ∀ h, turn.deed = .finish h →
    turn.after = { turn.before with hand := none } ∧ turn.published = Subscriber.crashReport name h
  /-- It can always go on with what it has. -/
  goesOn : (s.hand.isSome = true → ∀ h, (s.act (.finish h)).isSome = true) ∧
    (s.hand = none → s.queue ≠ [] → (s.act .take).isSome = true)

theorem serves_of_run {name : String} {capacity : Nat} {deeds : List Deed} {s : Subscriber}
    (hrun : ({ name, capacity } : Subscriber).run deeds = some s) :
    Serves name capacity (({ name, capacity } : Subscriber).trace deeds) s := by
  have hsound : ({ name, capacity } : Subscriber).Sound := ⟨rfl, Nat.zero_le _⟩
  have hlast := Subscriber.sound_run hsound hrun
  constructor
  case account => exact Subscriber.account_run hsound hrun
  case drops =>
    intro turn hmem e hdeed
    obtain ⟨hbefore, hr, hname, hcapacity⟩ := Subscriber.rule_of_mem_trace hsound hmem
    obtain ⟨before, deed, published, after⟩ := turn
    subst hdeed
    have hdrop := Subscriber.isDrop_iff hbefore e published after
    have hpublished := hr.published_offer hbefore
    rw [Subscriber.room, hcapacity] at hdrop
    rw [hname] at hpublished
    exact ⟨hdrop, hpublished⟩
  case takes =>
    intro turn hmem hdeed
    obtain ⟨-, hr, -⟩ := Subscriber.rule_of_mem_trace hsound hmem
    rw [hdeed] at hr
    exact hr.published_take
  case crashes =>
    intro turn hmem h hdeed
    obtain ⟨-, hr, hname, -⟩ := Subscriber.rule_of_mem_trace hsound hmem
    rw [hdeed] at hr
    obtain ⟨hafter, hpublished⟩ := hr.of_finish
    rw [hname] at hpublished
    exact ⟨hafter, hpublished⟩
  case goesOn =>
    exact ⟨Subscriber.isSome_act_finish, Subscriber.isSome_act_take hlast⟩

/-- A subscriber with nothing left has handled all that it kept. -/
theorem Serves.handled_eq_kept {name : String} {capacity : Nat} {turns : List Turn} {s : Subscriber}
    (h : Serves name capacity turns s) (hidle : s.idle = true) :
    Subscriber.handled turns = Subscriber.kept turns := by
  have haccount := h.account
  obtain ⟨hhand, hqueue⟩ := Subscriber.idle_iff.mp hidle
  rwa [hhand, hqueue, Option.toList_none, List.append_nil, List.append_nil] at haccount

section
variable {l : List (String × Nat)} {moves : List (Nat × Deed)} {a' : Audience} {published : List Event} {i : Nat}

/-- The turns of a subscriber in a run are those it would have made alone. -/
theorem serves_turnsOf (hrun : (seated l).run moves = some (a', published)) {name : String} {capacity : Nat}
    (hl : l[i]? = some (name, capacity)) :
    (∃ s, a'[i]? = some s ∧ Serves name capacity (turnsOf i ((seated l).trace moves)) s) ∧
      turnsOf i ((seated l).trace moves) =
        ({ name, capacity } : Subscriber).trace (deedsOf i moves) := by
  have hs : (seated l)[i]? = some { name, capacity } := by rw [seated, List.getElem?_map, hl]; rfl
  obtain ⟨s, hs', hown, hturns⟩ := turnsOf_trace hrun hs
  rw [hturns]
  exact ⟨⟨s, hs', serves_of_run hown⟩, rfl⟩

/-- The events of a subscriber's turns are those of the offers to it. -/
theorem offered_turnsOf (hrun : (seated l).run moves = some (a', published)) (hi : i < l.length) :
    Subscriber.offered (turnsOf i ((seated l).trace moves)) =
      (offers moves).filterMap fun o => if o.1 = i then some o.2 else none := by
  have hlength : i < (seated l).length := by rwa [seated, List.length_map]
  obtain ⟨s, -, hown, hturns⟩ := turnsOf_trace hrun (List.getElem?_eq_getElem hlength)
  rw [hturns, Subscriber.offered_trace hown, filterMap_deedsOf]

end

/-- Fan-out without silent loss. Subscribers of any names and capacities are offered events and work at them,
in any interleaving. Every subscriber accounts for what it was offered (`Serves`): it handles events in the
order of the offers, without duplicates, and misses only those that found its queue full; all that is published
is a report for each of these that is not itself such a report, and a report for each crash. Its turns depend on
nothing but its own deeds. When the offers are those of some emissions, or of the last of them only the first
ones, then what it was offered is what was emitted. A delivery works its subscribers in this way: the history of
its ring grows by the reports, in order and under the next numbers, and by nothing else but what others publish;
and it closes only when each subscriber has handled all that it did not miss. -/
theorem fan_out_without_silent_loss (l : List (String × Nat)) (moves : List (Nat × Deed)) {a' : Audience}
    {published : List Event} (hrun : (seated l).run moves = some (a', published)) :
    published = ((seated l).trace moves).flatMap (·.2.published) ∧
    (∀ i name capacity, l[i]? = some (name, capacity) →
      (∃ s, a'[i]? = some s ∧ Serves name capacity (turnsOf i ((seated l).trace moves)) s) ∧
      turnsOf i ((seated l).trace moves) =
        ({ name, capacity } : Subscriber).trace (deedsOf i moves) ∧
      (∀ events, offers moves = emissions l.length events →
        Subscriber.offered (turnsOf i ((seated l).trace moves)) = events) ∧
      (∀ events, offers moves <+: emissions l.length events →
        Subscriber.offered (turnsOf i ((seated l).trace moves)) <+: events)) ∧
    (∀ e, a'.run (a'.emission e) = some (a'.emit e)) ∧
    (∀ d d' : Delivery, d.audience = a' →
      (∀ m, (∀ i, m ≠ .die i) → d.step m = some d' →
        d'.audience = a' ∧ (d'.ring = d.ring ∨ ∃ e, m = .publish e) ∨
        ∃ deed reports, d.deed? m = some deed ∧ a'.step deed = some (d'.audience, reports) ∧
          d'.ring = (d.publishAll reports).ring ∧
          d'.ring.history = d.ring.history ++ Event.numbered d.nextSeq reports) ∧
      (d.step .close = some d' → ∀ i < l.length,
        Subscriber.handled (turnsOf i ((seated l).trace moves)) =
          Subscriber.kept (turnsOf i ((seated l).trace moves)))) := by
  refine ⟨published_eq hrun, ?_, run_emission a', ?_⟩
  · intro i name capacity hl
    have hi := (List.getElem?_eq_some_iff.mp hl).1
    obtain ⟨hserves, hturns⟩ := serves_turnsOf hrun hl
    rw [offered_turnsOf hrun hi]
    refine ⟨hserves, hturns, ?_, ?_⟩
    · intro events hevents
      rw [hevents, filterMap_emissions hi]
    · intro events hevents
      rw [← filterMap_emissions hi events]
      exact hevents.filterMap _
  · rintro d d' rfl
    refine ⟨?_, ?_⟩
    · intro m hdie hstep
      cases Delivery.rule_of_step hstep with
      | serves hdeed hdone => exact .inr ⟨_, _, hdeed, hdone, rfl, Delivery.history_publishAll d _⟩
      | publishes => exact .inl ⟨rfl, .inr ⟨_, rfl⟩⟩
      | dies => exact absurd rfl (hdie _)
      | _ => exact .inl ⟨rfl, .inl rfl⟩
    · intro hclose i hi
      obtain ⟨⟨s, hs, hserves⟩, -⟩ := serves_turnsOf hrun (List.getElem?_eq_getElem hi)
      cases Delivery.rule_of_step hclose with
      | closes _ hall =>
        exact hserves.handled_eq_kept (List.all_eq_true.mp hall s (List.mem_of_getElem? hs))
      | serves hdeed => cases hdeed

/-- A subscriber without room for two and one with room for two, three emissions, the last of them of a report.
The first subscriber misses two events, of which one is reported; the second one crashes over its first event. -/
theorem fan_out_without_silent_loss_slow_and_crashing :
    let moves : List (Nat × Deed) :=
      [(0, .offer { kind := .readStarting }), (1, .offer { kind := .readStarting }), (1, .take),
       (0, .offer { kind := .readCompleted }), (1, .finish (.crashed "boom")),
       (1, .offer { kind := .readCompleted }), (0, .offer (Event.overflow "slow" "full")),
       (1, .offer (Event.overflow "slow" "full")), (0, .take), (0, .finish .done)]
    let l := [("slow", 0), ("crashing", 2)]
    ∃ a', (seated l).run moves =
        some (a', [Event.overflow "slow" "full", Event.subscriberCrash "crashing" "boom"]) ∧
      Subscriber.kept (turnsOf 0 ((seated l).trace moves)) = [{ kind := .readStarting }] ∧
      Subscriber.offered (turnsOf 0 ((seated l).trace moves)) =
        [{ kind := .readStarting }, { kind := .readCompleted }, Event.overflow "slow" "full"] ∧
      ({ ring := Ring.ofCapacity 4, listening := .closing, audience := a' } : Delivery).step .close =
        none := by
  refine ⟨_, rfl, rfl, ?_, rfl⟩
  exact ((fan_out_without_silent_loss _ _ rfl).2.1 0 "slow" 0 rfl).2.2.1 _ rfl

end Audience

end Intake
