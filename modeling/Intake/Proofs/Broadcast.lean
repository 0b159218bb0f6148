import Intake.Proofs.Closing
import Intake.Proofs.Endings
import Intake.Proofs.Listening
/-!
# The tracker at the end of a read

A `Broadcast` is a read together with the delivery of its events and the tracker, which is the first of the
subscribers. A move is a step of the read, a step of the delivery, or the beginning of the next read, for which
the tracker is kept and the ring and the queues are new. Numbers of events are drawn when events are made, and by
others too, so the next event that is published may get any number (`Move.number`).

A step can lose an event on its way to the tracker (`loses`): when the listener has fallen out of the ring, or the
queue of the tracker is full. A read is `intact` when it has had no such step. Whatever is lost, the tracker hears
of no other roots than those of the feeds (`Acquainted`). In a read that is intact it gets all that was published,
in order: what it has handled, has in its hands and is about to get is what the listener has taken off the ring
(`Fed`). The listener goes on to close when the read has its result, and then the root of each feed is shut
(`Heeds`), also if an earlier read has left it open. `Follows.run` says that all of this holds after every run,
over any number of reads.
-/

namespace Intake

open Read
open Tracker (Shut Unheard)
open Subscriber (Deed)

/-! ### Publishing -/

namespace Delivery

/-- What is published stands at the end of the history, each event with some number. -/
theorem headlines_publishAll (d : Delivery) (l : List Event) :
    ∃ more, (d.publishAll l).ring.history = d.ring.history ++ more ∧
      more.map Event.headline = l.map Event.headline :=
  history_publishAll_map Event.headline (fun _ _ => rfl) d l

end Delivery

/-- Reports of subscribers are about no feed. -/
theorem Subscriber.root?_of_act {s s' : Subscriber} {deed : Deed} {published : List Event}
    (h : s.act deed = some (s', published)) : ∀ e ∈ published, e.root? = none := by
  cases deed with
  | offer e =>
    cases h
    unfold report
    split
    · exact List.forall_mem_nil _
    · split
      · exact List.forall_mem_nil _
      · exact List.forall_mem_singleton.mpr rfl
  | take =>
    obtain ⟨next, -, heq⟩ := Option.map_eq_some_iff.mp h
    cases heq
    exact List.forall_mem_nil _
  | finish handling =>
    simp only [act, finish] at h
    split at h
    · cases h
    · cases h
      cases handling with
      | done => exact List.forall_mem_nil _
      | crashed message => exact List.forall_mem_singleton.mpr rfl

/-! ### Reads with their subscribers -/

/-- What stays the same from read to read. -/
structure Installation where
  settings : Settings
  /-- The number of factories. -/
  factories : Nat
  /-- The names and capacities of the subscribers other than the tracker. -/
  others : List (String × Nat) := []

/-- A read, the delivery of its events, and the tracker. -/
structure Broadcast where
  system : System
  delivery : Delivery
  tracker : Tracker

namespace Broadcast

/-- One move. -/
inductive Move
  /-- Somebody in the read goes on. -/
  | read (m : System.Move)
  /-- The listener or a subscriber goes on. -/
  | deliver (m : Delivery.Move)
  /-- The next event gets a number. -/
  | number (n : Nat)
  /-- The next read begins, after something was done to the ledger. -/
  | again (ops : List Ledger.Op)

/-- A read that has not begun. -/
def begin (o : Installation) (ledger : Ledger) (nextSeq : Nat) (tracker : Tracker) : Broadcast where
  system := .start o.settings o.factories ledger
  delivery :=
    { ring := .ofCapacity o.settings.busCapacityInForce
      nextSeq
      audience := Audience.seated (("ActiveTracker", 2048) :: o.others) }
  tracker

/-- Whether a move of the delivery can be made. Tasks and subscribers alone publish, the listener is stopped when
the read has its result, and the tracker neither crashes nor dies. -/
def admits (w : Broadcast) : Delivery.Move → Bool
  | .publish _ => false
  | .stop => w.system.result?.isSome
  | .finish 0 h => h = .done
  | .die 0 => false
  | _ => true

/-- The tracker after a move of the delivery: it has applied the event that it was done with. -/
def heard (w : Broadcast) : Delivery.Move → Tracker
  | .finish 0 _ => w.tracker.run ((w.delivery.audience[0]?).bind (·.hand)).toList
  | _ => w.tracker

/-- Makes a move, if it can be made. -/
def step (o : Installation) (w : Broadcast) : Move → Option Broadcast
  | .read m => do
    let (system, effects) ← w.system.step m
    return { w with system, delivery := w.delivery.publishAll (published effects) }
  | .deliver m =>
    if w.admits m then do
      let delivery ← w.delivery.step m
      return { w with delivery, tracker := w.heard m }
    else none
  | .number n => some { w with delivery := { w.delivery with nextSeq := n } }
  | .again ops =>
    if w.delivery.listening = .done then
      some (begin o (ops.foldl Ledger.apply w.system.shared.ledger) w.delivery.nextSeq w.tracker)
    else none

/-- Makes a list of moves, if each of them can be made in its turn. -/
def run (o : Installation) (w : Broadcast) : List Move → Option Broadcast
  | [] => some w
  | m :: rest => do
    let w ← w.step o m
    run o w rest

/-- Whether an event is lost to the tracker in a move: the listener finds that it has fallen behind, or the queue
of the tracker refuses the event. -/
def loses (w : Broadcast) : Move → Bool
  | .deliver .receive =>
    match w.delivery.ring.receive w.delivery.position with
    | (.lagged _, _) => true
    | _ => false
  | .deliver .offer =>
    match w.delivery.offering with
    | some (e, 0) => (w.delivery.audience[0]?).any fun s => (s.offer e).2.isSome
    | _ => false
  | _ => false

/-- Whether no event of the read that is going on is lost up to a move and in it. -/
def intactAfter (w : Broadcast) (ok : Bool) : Move → Bool
  | .again _ => true
  | m => ok && !w.loses m

/-- Whether no event is lost to the tracker in the last read of a run. -/
def intact (o : Installation) (w : Broadcast) (ok : Bool) : List Move → Bool
  | [] => ok
  | m :: rest => (w.step o m).all fun w' => intact o w' (w.intactAfter ok m) rest

theorem run_append {o : Installation} {w mid w' : Broadcast} {first later : List Move}
    (hfirst : w.run o first = some mid) (hlater : mid.run o later = some w') :
    w.run o (first ++ later) = some w' := by
  induction first generalizing w with
  | nil =>
    cases hfirst
    exact hlater
  | cons m rest ih =>
    obtain ⟨next, hstep, hrest⟩ := Option.bind_eq_some_iff.mp hfirst
    exact Option.bind_eq_some_iff.mpr ⟨next, hstep, ih hrest⟩

/-! ### What the tracker hears of -/

/-- The tracker and all that may come to it are about no other roots than some. -/
structure Acquainted (known : String → Prop) (d : Delivery) (t : Tracker) : Prop where
  sound : t.Sound
  within : t.Within known
  ring : ∀ e ∈ d.ring.history, e.Within known
  offering : ∀ e, d.offering.map (·.1) = some e → e.Within known
  seat : ∃ s, d.audience[0]? = some s ∧ s.Sound ∧ ∀ e ∈ s.hand.toList ++ s.queue, e.Within known

theorem acquainted_begin {known : String → Prop} (o : Installation) (ledger : Ledger) (nextSeq : Nat)
    {t : Tracker} (hsound : t.Sound) (hwithin : t.Within known) :
    Acquainted known (begin o ledger nextSeq t).delivery t where
  sound := hsound
  within := hwithin
  ring := List.forall_mem_nil _
  offering := by
    intro e he
    cases he
  seat := ⟨_, rfl, ⟨rfl, Nat.zero_le _⟩, List.forall_mem_nil _⟩

section
variable {d d' : Delivery} {t : Tracker} {known : String → Prop}

theorem map_offeringAfter (d : Delivery) (m : Delivery.Move) :
    (d.offeringAfter m).map (·.1) = d.offering.map (·.1) := by
  cases m with
  | offer => exact Option.map_map _ _ d.offering
  | _ => rfl

/-- Nothing changes for the tracker when its own subscriber and the ring stay as they are. -/
theorem Acquainted.congr (ha : Acquainted known d t) (hring : d'.ring = d.ring)
    (hseat : d'.audience[0]? = d.audience[0]?)
    (hoffering : ∀ e, d'.offering.map (·.1) = some e → e.Within known) : Acquainted known d' t where
  sound := ha.sound
  within := ha.within
  ring := hring ▸ ha.ring
  offering := hoffering
  seat := hseat ▸ ha.seat

theorem Acquainted.publishAll (ha : Acquainted known d t) {l : List Event} (hl : ∀ e ∈ l, e.Within known) :
    Acquainted known (d.publishAll l) t := by
  obtain ⟨more, hhistory, hmore⟩ := d.headlines_publishAll l
  rw [Delivery.publishAll_eq]
  refine ⟨ha.sound, ha.within, ?_, ha.offering, ha.seat⟩
  intro e he
  simp only [hhistory] at he
  rcases List.mem_append.mp he with hmem | hmem
  · exact ha.ring e hmem
  · intro r hr
    obtain ⟨x, hx, hsame⟩ := Event.exists_mem_of_headlines hmore hmem
    exact hl x hx r (Event.root?_of_headline hsame ▸ hr)

/-- What a subscriber keeps is what was offered. -/
theorem offering_of_kept {m : Delivery.Move} {i : Nat} {deed : Deed} (hdeed : d.deed? m = some (i, deed))
    {s s' : Subscriber} {reports : List Event} {e : Event}
    (he : Subscriber.Turn.kept? ⟨s, deed, reports, s'⟩ = some e) : d.offering.map (·.1) = some e := by
  unfold Subscriber.Turn.kept? at he
  split at he
  · cases he
  cases m with
  | offer =>
    obtain ⟨⟨e', k⟩, hoffering, hsome⟩ := Option.bind_eq_some_iff.mp hdeed
    split at hsome <;> cases hsome
    cases he
    rw [hoffering]
    rfl
  | take i | finish i handling =>
    cases hdeed
    cases he
  | publish | stop | receive | turn | close | die => cases hdeed

/-- A step of the subscriber of the tracker. -/
theorem Acquainted.serve (ha : Acquainted known d t) {m : Delivery.Move} {deed : Deed}
    (hdeed : d.deed? m = some (0, deed)) {s s' : Subscriber} {reports : List Event}
    (hs : d.audience[0]? = some s) (hact : s.act deed = some (s', reports)) :
    Acquainted known { d with audience := d.audience.set 0 s', offering := d.offeringAfter m }
      (t.run (Subscriber.Turn.handled? ⟨s, deed, reports, s'⟩).toList) := by
  obtain ⟨u, hu, halive, hwithin⟩ := ha.seat
  obtain rfl : s = u := Option.some.inj (hs.symm.trans hu)
  have hrule := Subscriber.rule_of_act halive hact
  -- what it has handled and has now is what it had and what was offered
  have hall : ∀ e ∈ (Subscriber.Turn.handled? ⟨s, deed, reports, s'⟩).toList ++ (s'.hand.toList ++ s'.queue),
      e.Within known := by
    intro e he
    rw [hrule.account halive] at he
    rcases List.mem_append.mp he with hmem | hmem
    · exact hwithin e hmem
    · exact ha.offering e (offering_of_kept hdeed (Option.mem_toList.mp hmem))
  constructor
  case sound => exact Tracker.sound_run ha.sound _
  case within => exact Tracker.within_run ha.within fun e he => hall e (List.mem_append_left _ he)
  case ring => exact ha.ring
  case offering =>
    intro e he
    rw [map_offeringAfter] at he
    exact ha.offering e he
  case seat =>
    refine ⟨s', ?_, hrule.sound halive, fun e he => hall e (List.mem_append_right _ he)⟩
    exact List.getElem?_set_self (List.getElem?_eq_some_iff.mp hs).1

end

/-! ### What the tracker gets -/

/-- The event that has been taken off the ring and not yet been offered to the tracker. -/
def underway : Option (Event × Nat) → List Event
  | some (e, 0) => [e]
  | _ => []

theorem underway_none : underway none = [] := rfl

/-- A tracker has applied the events that its subscriber is done with. These with what it has in hand, what is in
its queue and what is underway to it are those that the listener has taken. -/
structure Account (known : String → Prop) (d : Delivery) (t first : Tracker) (handled : List Event)
    (s : Subscriber) : Prop where
  sound : first.Sound
  within : first.Within known
  applied : t = first.run handled
  seat : d.audience[0]? = some s
  idle : d.listening = .done → s.idle = true
  all : handled ++ (s.hand.toList ++ s.queue) ++ underway d.offering = d.ring.history.take d.position

/-- What a tracker has become by the events of a delivery. When the listener has closed, each root that was known or
heard of is shut in what it has taken. -/
structure Fed (known : String → Prop) (d : Delivery) (t : Tracker) : Prop where
  reaches : d.position ≤ d.ring.history.length
  account : ∃ first handled s, Account known d t first handled s
  settled : d.listening = .closing ∨ d.listening = .done → d.offering = none ∧
    ∀ r, Shut r (d.ring.history.take d.position) ∨ (Unheard r (d.ring.history.take d.position) ∧ ¬ known r)

theorem fed_begin {known : String → Prop} (o : Installation) (ledger : Ledger) (nextSeq : Nat) {t : Tracker}
    (ht : t.Sound) (hwithin : t.Within known) : Fed known (begin o ledger nextSeq t).delivery t where
  reaches := Nat.zero_le _
  account := ⟨t, [], _, ht, hwithin, rfl, rfl, nofun, rfl⟩
  settled := by
    rintro (h | h)
    · cases h
    · cases h

section
variable {d d' : Delivery} {t : Tracker} {known : String → Prop}

/-- When the delivery is over the tracker has nothing active. -/
theorem Fed.active_eq_nil (hf : Fed known d t) (hover : d.listening = .done) : t.active = [] := by
  obtain ⟨first, handled, s, ha⟩ := hf.account
  obtain ⟨hoffering, hroots⟩ := hf.settled (.inr hover)
  obtain ⟨hhand, hqueue⟩ := Subscriber.idle_iff.mp (ha.idle hover)
  have hall := ha.all
  rw [hhand, hqueue, hoffering, Option.toList_none, List.append_nil, underway_none, List.append_nil,
    List.append_nil] at hall
  rw [← hall] at hroots
  rw [ha.applied]
  exact Tracker.active_run_eq_nil ha.sound ha.within hroots

/-- Nothing changes for the tracker when its own subscriber, the listener and the ring stay as they are. -/
theorem Fed.congr (hf : Fed known d t) (hlistening : d'.listening = d.listening)
    (hposition : d'.position = d.position) (hring : d'.ring = d.ring) (hseat : d'.audience[0]? = d.audience[0]?)
    (hunderway : underway d'.offering = underway d.offering)
    (hnone : d.offering = none → d'.offering = none) : Fed known d' t := by
  constructor
  case reaches =>
    rw [hposition, hring]
    exact hf.reaches
  case account =>
    obtain ⟨first, handled, s, ha⟩ := hf.account
    refine ⟨first, handled, s, ha.sound, ha.within, ha.applied, hseat.trans ha.seat, ?_, ?_⟩
    · rw [hlistening]
      exact ha.idle
    · rw [hunderway, hring, hposition]
      exact ha.all
  case settled =>
    intro h
    rw [hlistening] at h
    rw [hring, hposition]
    exact ⟨hnone (hf.settled h).1, (hf.settled h).2⟩

/-- More events on the ring change nothing for the tracker. -/
theorem Fed.publishAll (hf : Fed known d t) (l : List Event) : Fed known (d.publishAll l) t := by
  obtain ⟨more, hhistory, -⟩ := d.headlines_publishAll l
  have htake : (d.publishAll l).ring.history.take d.position = d.ring.history.take d.position := by
    rw [hhistory, List.take_append_of_le_length hf.reaches]
  rw [Delivery.publishAll_eq]
  constructor
  case reaches =>
    have hreaches := hf.reaches
    simp only [hhistory, List.length_append]
    omega
  case account =>
    obtain ⟨first, handled, s, ha⟩ := hf.account
    exact ⟨first, handled, s, ha.sound, ha.within, ha.applied, ha.seat, ha.idle, ha.all.trans htake.symm⟩
  case settled =>
    simp only [htake]
    exact hf.settled

/-- The listener takes an event. -/
theorem Fed.receive (hf : Fed known d t) {e : Event} (hreceives : d.receives = true) (hoffering : d.offering = none)
    (hget : d.ring.history[d.position]? = some e) :
    Fed known { d with position := d.position + 1, offering := some (e, 0) } t := by
  have hopen : ¬ (d.listening = .closing ∨ d.listening = .done) := by
    rintro (h | h) <;> simp [Delivery.receives, h] at hreceives
  constructor
  case reaches => exact (List.getElem?_eq_some_iff.mp hget).1
  case account =>
    obtain ⟨first, handled, s, ha⟩ := hf.account
    refine ⟨first, handled, s, ha.sound, ha.within, ha.applied, ha.seat, ha.idle, ?_⟩
    have hall := ha.all
    rw [hoffering, underway_none, List.append_nil] at hall
    simp only [List.take_add_one, hget, ← hall, underway, Option.toList_some]
  case settled => exact fun h => absurd h hopen

/-- The listener goes on to another stage. -/
theorem Fed.listen (hf : Fed known d t) {stage : Listening}
    (hidle : stage = .done → d.audience.all Subscriber.idle = true)
    (hsettled : stage = .closing ∨ stage = .done → d.offering = none ∧
      ∀ r, Shut r (d.ring.history.take d.position) ∨
        (Unheard r (d.ring.history.take d.position) ∧ ¬ known r)) :
    Fed known { d with listening := stage } t where
  reaches := hf.reaches
  account := by
    obtain ⟨first, handled, s, ha⟩ := hf.account
    refine ⟨first, handled, s, ha.sound, ha.within, ha.applied, ha.seat, fun hover => ?_, ha.all⟩
    exact List.all_eq_true.mp (hidle hover) s (List.mem_of_getElem? ha.seat)
  settled := hsettled

section
variable {m : Delivery.Move} {deed : Deed} (hdeed : d.deed? m = some (0, deed)) {s s' : Subscriber}
  {reports : List Event}
include hdeed

/-- What the tracker keeps of an offer is no longer underway. -/
theorem underway_of_deed (hkeeps : Subscriber.Turn.isDrop ⟨s, deed, reports, s'⟩ = false) :
    (Subscriber.Turn.kept? ⟨s, deed, reports, s'⟩).toList ++ underway (d.offeringAfter m) =
      underway d.offering := by
  rw [Subscriber.Turn.kept?, hkeeps]
  cases m with
  | offer =>
    obtain ⟨⟨e, i⟩, hoffering, hsome⟩ := Option.bind_eq_some_iff.mp hdeed
    split at hsome
    · cases hsome
      rw [Delivery.offeringAfter, hoffering]
      rfl
    · cases hsome
  | take i | finish i handling =>
    cases hdeed
    rfl
  | publish | stop | receive | turn | close | die => cases hdeed

/-- While nothing is offered, nothing happens to a subscriber that is idle. -/
theorem not_idle_of_deed (hact : s.act deed = some (s', reports)) (hoffering : d.offering = none) :
    s.idle = false := by
  apply Bool.eq_false_iff.mpr
  intro hidle
  rw [Subscriber.idle_iff] at hidle
  cases m with
  | offer =>
    rw [Delivery.deed?, hoffering] at hdeed
    cases hdeed
  | take i =>
    cases hdeed
    rw [Subscriber.act, Subscriber.take, hidle.1, hidle.2] at hact
    cases hclosed : s.closed <;> rw [hclosed] at hact <;> cases hact
  | finish i handling =>
    cases hdeed
    simp [Subscriber.act, Subscriber.finish, hidle.1] at hact
  | publish | stop | receive | turn | close | die => cases hdeed

end

theorem offeringAfter_of_none (hoffering : d.offering = none) (m : Delivery.Move) :
    d.offeringAfter m = none := by
  rw [← Option.map_eq_none_iff, map_offeringAfter, hoffering]
  rfl

/-- What the tracker does with a step of its own subscriber. -/
theorem Fed.serve (hf : Fed known d t) {m : Delivery.Move} {deed : Deed} (hdeed : d.deed? m = some (0, deed))
    {s s' : Subscriber} {reports : List Event} (hs : d.audience[0]? = some s) (halive : s.Sound)
    (hact : s.act deed = some (s', reports))
    (hkeeps : Subscriber.Turn.isDrop ⟨s, deed, reports, s'⟩ = false) :
    Fed known { d with audience := d.audience.set 0 s', offering := d.offeringAfter m }
      (t.run (Subscriber.Turn.handled? ⟨s, deed, reports, s'⟩).toList) := by
  obtain ⟨first, handled, u, ha⟩ := hf.account
  obtain rfl : s = u := Option.some.inj (hs.symm.trans ha.seat)
  have hstep := (Subscriber.rule_of_act halive hact).account halive
  have hunderway := underway_of_deed hdeed hkeeps
  have hbusy : d.listening ≠ .done := by
    intro hover
    have hidle := not_idle_of_deed hdeed hact (hf.settled (.inr hover)).1
    rw [ha.idle hover] at hidle
    cases hidle
  constructor
  case reaches => exact hf.reaches
  case account =>
    refine ⟨first, handled ++ (Subscriber.Turn.handled? ⟨s, deed, reports, s'⟩).toList, s', ha.sound, ha.within,
      ?_, ?_, fun hover => absurd hover hbusy, ?_⟩
    · rw [ha.applied, Tracker.run_append]
    · exact List.getElem?_set_self (List.getElem?_eq_some_iff.mp hs).1
    · generalize (⟨s, deed, reports, s'⟩ : Subscriber.Turn) = turn at hstep hunderway
      calc handled ++ turn.handled?.toList ++ (s'.hand.toList ++ s'.queue) ++ underway (d.offeringAfter m)
          = handled ++ (turn.handled?.toList ++ (s'.hand.toList ++ s'.queue)) ++
              underway (d.offeringAfter m) := by rw [List.append_assoc handled]
        _ = handled ++ (s.hand.toList ++ s.queue) ++
              (turn.kept?.toList ++ underway (d.offeringAfter m)) := by
            rw [hstep]
            simp only [List.append_assoc]
        _ = d.ring.history.take d.position := by rw [hunderway, ha.all]
  case settled => exact fun h => ⟨offeringAfter_of_none (hf.settled h).1 m, (hf.settled h).2⟩

/-- What a delivery publishes itself is about no feed. -/
theorem history_of_rule {m : Delivery.Move} (h : Delivery.Rule d m d') (hm : ∀ e, m ≠ .publish e) :
    ∃ more, d'.ring.history = d.ring.history ++ more ∧ ∀ e ∈ more, e.root? = none := by
  cases h with
  | publishes => exact absurd rfl (hm _)
  | @serves _ deed audience published hdeed hstep =>
    obtain ⟨s, s', -, hact, -⟩ := Audience.step_iff.mp hstep
    obtain ⟨more, hhistory, hmore⟩ := d.headlines_publishAll published
    refine ⟨more, hhistory, fun e he => ?_⟩
    obtain ⟨x, hx, hsame⟩ := Event.exists_mem_of_headlines hmore he
    rw [Event.root?_of_headline hsame]
    exact Subscriber.root?_of_act hact x hx
  | _ => exact ⟨[], (List.append_nil _).symm, List.forall_mem_nil _⟩

end

/-! ### Steps and runs -/

section
variable {global : Option (Global × Option Value)} {streams : List (Stream × Option Value)}
  {o : Installation} {w w' : Broadcast} {m : Move}

/-- The read is in order, its feeds are minded in what is on the ring, and the listener is stopped for no other
reason than that the read has its result. -/
structure Heeds (global : Option (Global × Option Value)) (streams : List (Stream × Option Value))
    (w : Broadcast) : Prop where
  ledger : ∃ ops, w.system.shared.ledger = .used global streams ops
  attended : System.Attended (Ledger.make global streams).feeds w.system
  tidy : w.system.Tidy
  feeds : w.system.feeds.map (·.feed) = (Ledger.make global streams).feeds
  minded : w.system.Minded w.delivery.ring.history
  stopping : w.delivery.stopping = true → w.system.result?.isSome = true
  draining : w.delivery.listening ≠ .receiving → w.delivery.stopping = true

/-- A read at the beginning, whatever reads went before it. -/
theorem heeds_begin (o : Installation) (ops : List Ledger.Op) (nextSeq : Nat) (t : Tracker) :
    Heeds global streams (begin o (.used global streams ops) nextSeq t) where
  ledger := ⟨ops, rfl⟩
  attended := by
    rw [← Ledger.feeds_used global streams ops]
    exact System.attended_start _ _ (Ledger.nodup_keys_used global streams ops)
  tidy := System.tidy_start _ _ _
  feeds := (System.map_feed_start _ _ _).trans (Ledger.feeds_used global streams ops)
  minded := System.minded_start _ _ _
  stopping := nofun
  draining := fun h => absurd rfl h

/-- Somebody in the read goes on. -/
theorem Heeds.read (hh : Heeds global streams w) {move : System.Move} {system : System}
    {effects : List Effect} (h : w.system.step move = some (system, effects)) :
    Heeds global streams
      { w with system, delivery := w.delivery.publishAll (published effects) } := by
  obtain ⟨more, hhistory, hmore⟩ := w.delivery.headlines_publishAll (published effects)
  constructor
  case ledger =>
    obtain ⟨ops, hops⟩ := hh.ledger
    refine ⟨ops ++ (w.system.op? move).toList, ?_⟩
    rw [System.step_ledger h, hops, Ledger.used, Ledger.used, List.foldl_append]
    cases w.system.op? move <;> rfl
  case attended => exact hh.attended.step h
  case tidy => exact hh.tidy.step h
  case feeds => exact (System.map_feed_step h).trans hh.feeds
  case minded =>
    refine (hh.minded.step hh.attended hh.tidy h).congr ?_
    rw [hhistory, List.map_append, List.map_append, hmore]
  case stopping =>
    rw [Delivery.publishAll_eq]
    intro hstopping
    obtain ⟨r, hr⟩ := Option.isSome_iff_exists.mp (hh.stopping hstopping)
    rw [System.result?_step h hr]
    rfl
  case draining =>
    rw [Delivery.publishAll_eq]
    exact hh.draining

/-- The listener or a subscriber goes on. -/
theorem Heeds.deliver (hh : Heeds global streams w) {move : Delivery.Move} {d : Delivery}
    (hadmits : w.admits move = true) (h : Delivery.Rule w.delivery move d) (t : Tracker) :
    Heeds global streams { w with delivery := d, tracker := t } := by
  obtain ⟨more, hhistory, hmore⟩ := history_of_rule h (by rintro e rfl; cases hadmits)
  obtain ⟨hstopping, hdraining⟩ := Delivery.stopping_of_rule h hh.draining
  refine ⟨hh.ledger, hh.attended, hh.tidy, hh.feeds, ?_, ?_, hdraining⟩
  · rw [hhistory]
    exact hh.minded.append hmore
  · intro hstop
    rcases hstopping hstop with hbefore | rfl
    · exact hh.stopping hbefore
    · exact hadmits

/-- The tracker applies what its subscriber is done with. -/
theorem heard_of_deed {move : Delivery.Move} {deed : Deed} (hdeed : w.delivery.deed? move = some (0, deed))
    {s s' : Subscriber} {reports : List Event} (hs : w.delivery.audience[0]? = some s) :
    w.heard move = w.tracker.run (Subscriber.Turn.handled? ⟨s, deed, reports, s'⟩).toList := by
  cases move with
  | offer =>
    obtain ⟨⟨e, k⟩, -, hsome⟩ := Option.bind_eq_some_iff.mp hdeed
    split at hsome <;> cases hsome
    rfl
  | take i =>
    cases hdeed
    rfl
  | finish i handling =>
    cases hdeed
    rw [heard, hs]
    rfl
  | publish | stop | receive | turn | close | die => cases hdeed

/-- It does not hear of what happens to other subscribers. -/
theorem heard_of_other {move : Delivery.Move} {i : Nat} {deed : Deed}
    (hdeed : w.delivery.deed? move = some (i + 1, deed)) :
    w.heard move = w.tracker ∧
      underway (w.delivery.offeringAfter move) = underway w.delivery.offering := by
  cases move with
  | offer =>
    obtain ⟨⟨e, k⟩, hoffering, hsome⟩ := Option.bind_eq_some_iff.mp hdeed
    split at hsome <;> cases hsome
    rw [Delivery.offeringAfter, hoffering]
    exact ⟨rfl, rfl⟩
  | take k | finish k handling =>
    cases hdeed
    exact ⟨rfl, rfl⟩
  | publish | stop | receive | turn | close | die => cases hdeed

/-- An offer to the tracker that is not lost is kept. -/
theorem keeps_of_loses {move : Delivery.Move} {deed : Deed} (hdeed : w.delivery.deed? move = some (0, deed))
    {s s' : Subscriber} {reports : List Event} (hs : w.delivery.audience[0]? = some s)
    (hloses : w.loses (.deliver move) = false) :
    Subscriber.Turn.isDrop ⟨s, deed, reports, s'⟩ = false := by
  cases move with
  | offer =>
    obtain ⟨⟨e, k⟩, hoffering, hsome⟩ := Option.bind_eq_some_iff.mp hdeed
    split at hsome <;> cases hsome
    simp only [loses, hoffering, hs, Option.any_some] at hloses
    exact hloses
  | take k | finish k handling =>
    cases hdeed
    rfl
  | publish | stop | receive | turn | close | die => cases hdeed

/-- The subscriber of the tracker stays as it is when something happens to another. -/
theorem seat_of_other (audience : List Subscriber) (i : Nat) (s : Subscriber) :
    (audience.set (i + 1) s)[0]? = audience[0]? := List.getElem?_set_ne (Nat.succ_ne_zero i)

/-- The tracker hears of no other roots by what the listener and the subscribers do. -/
theorem Acquainted.deliver {known : String → Prop} (ha : Acquainted known w.delivery w.tracker)
    {move : Delivery.Move} {d : Delivery} (hadmits : w.admits move = true) (h : Delivery.Rule w.delivery move d) :
    Acquainted known d (w.heard move) := by
  cases h with
  | publishes => cases hadmits
  | stops | lags | drains | hasDrained | closes => exact ha.congr rfl rfl ha.offering
  | receives _ _ hget =>
    refine ha.congr rfl rfl fun e he => ?_
    cases he
    exact ha.ring _ (List.mem_of_getElem? hget)
  | @serves _ deed audience reports hdeed hstep =>
    obtain ⟨i, deed⟩ := deed
    obtain ⟨s, s', hs, hact, rfl⟩ := Audience.step_iff.mp hstep
    rw [← Delivery.publishAll_with]
    have hreports : ∀ e ∈ reports, e.Within known := by
      intro e he r hr
      rw [Subscriber.root?_of_act hact e he] at hr
      cases hr
    refine Acquainted.publishAll ?_ hreports
    cases i with
    | zero =>
      rw [heard_of_deed hdeed hs]
      exact ha.serve hdeed hs hact
    | succ i =>
      rw [(heard_of_other hdeed).1]
      refine ha.congr rfl (seat_of_other _ i s') fun e he => ha.offering e ?_
      exact (map_offeringAfter w.delivery move).symm.trans he
  | hasOffered =>
    refine ha.congr rfl rfl fun e he => ?_
    cases he
  | @dies i s s' hs hdie =>
    cases i with
    | zero => cases hadmits
    | succ i => exact ha.congr rfl (seat_of_other _ i s') ha.offering

/-- The roots of the feeds of a read. -/
def IsRoot (global : Option (Global × Option Value)) (streams : List (Stream × Option Value)) :
    String → Prop := System.IsRootOf (Ledger.make global streams).feeds

/-- The tracker follows what the listener and the subscribers do, as long as it loses nothing. -/
theorem Fed.deliver (hf : Fed (IsRoot global streams) w.delivery w.tracker) (hh : Heeds global streams w)
    (ha : Acquainted (IsRoot global streams) w.delivery w.tracker) {move : Delivery.Move} {d : Delivery}
    (hadmits : w.admits move = true) (hloses : w.loses (.deliver move) = false)
    (h : Delivery.Rule w.delivery move d) : Fed (IsRoot global streams) d (w.heard move) := by
  cases h with
  | publishes => cases hadmits
  | stops => exact hf.congr rfl rfl rfl rfl rfl id
  | receives hreceives hoffering hget => exact hf.receive hreceives hoffering hget
  | lags hlagged => simp [loses, hlagged] at hloses
  | @serves _ deed audience reports hdeed hstep =>
    obtain ⟨i, deed⟩ := deed
    obtain ⟨s, s', hs, hact, rfl⟩ := Audience.step_iff.mp hstep
    rw [← Delivery.publishAll_with]
    refine Fed.publishAll ?_ reports
    cases i with
    | zero =>
      obtain ⟨u, hu, halive, -⟩ := ha.seat
      obtain rfl : s = u := Option.some.inj (hs.symm.trans hu)
      rw [heard_of_deed hdeed hs]
      exact hf.serve hdeed hs halive hact (keeps_of_loses hdeed hs hloses)
    | succ i =>
      obtain ⟨hheard, hunderway⟩ := heard_of_other hdeed
      rw [hheard]
      exact hf.congr rfl rfl rfl (seat_of_other _ i s') hunderway fun hnone => offeringAfter_of_none hnone move
  | @hasOffered e i hoffering hi =>
    refine hf.congr rfl rfl rfl rfl ?_ fun _ => rfl
    obtain ⟨s, hs, -⟩ := ha.seat
    have hlength := (List.getElem?_eq_some_iff.mp hs).1
    rw [hoffering]
    cases i with
    | zero => exact absurd hlength hi
    | succ i => rfl
  | drains => exact hf.listen nofun (by rintro (h | h) <;> cases h)
  | hasDrained hoffering hlistening hlength =>
    refine hf.listen nofun fun _ => ⟨hoffering, fun r => ?_⟩
    have hresult := hh.stopping (hh.draining (by rw [hlistening]; nofun))
    have hover := hh.minded.over hh.attended (System.unseen_of_result? hresult).2.1 r
    rw [List.take_of_length_le hlength]
    rwa [hh.feeds] at hover
  | closes hlistening hall => exact hf.listen (fun _ => hall) fun _ => hf.settled (.inl hlistening)
  | @dies i s s' hs hdie =>
    cases i with
    | zero => cases hadmits
    | succ i => exact hf.congr rfl rfl rfl (seat_of_other _ i s') rfl id

/-- The read is in order, the tracker hears of its feeds alone, and follows it as long as it is intact. -/
structure Follows (global : Option (Global × Option Value)) (streams : List (Stream × Option Value))
    (w : Broadcast) (ok : Bool) : Prop where
  heeds : Heeds global streams w
  acquainted : Acquainted (IsRoot global streams) w.delivery w.tracker
  fed : ok = true → Fed (IsRoot global streams) w.delivery w.tracker

/-- A read at the beginning, with whatever an earlier read has left in the tracker. -/
theorem follows_begin (o : Installation) (ops : List Ledger.Op) (nextSeq : Nat) {t : Tracker} (ht : t.Sound)
    (hwithin : t.Within (IsRoot global streams)) :
    Follows global streams (begin o (.used global streams ops) nextSeq t) true where
  heeds := heeds_begin o ops nextSeq t
  acquainted := acquainted_begin o _ nextSeq ht hwithin
  fed := fun _ => fed_begin o _ nextSeq ht hwithin

theorem Follows.step {ok : Bool} (hf : Follows global streams w ok) (h : w.step o m = some w') :
    Follows global streams w' (w.intactAfter ok m) := by
  obtain ⟨hh, ha, hfed⟩ := hf
  cases m with
  | read move =>
    obtain ⟨⟨system, effects⟩, hstep, heq⟩ := Option.bind_eq_some_iff.mp h
    cases heq
    have hwithin := System.within_of_step hh.attended.posted hstep
    rw [hh.feeds] at hwithin
    refine ⟨hh.read hstep, ha.publishAll hwithin, fun hok => ?_⟩
    exact (hfed (Bool.and_eq_true_iff.mp hok).1).publishAll _
  | deliver move =>
    simp only [Broadcast.step] at h
    split at h
    · rename_i hadmits
      obtain ⟨d, hstep, heq⟩ := Option.bind_eq_some_iff.mp h
      cases heq
      have hrule := Delivery.rule_of_step hstep
      refine ⟨hh.deliver hadmits hrule _, ha.deliver hadmits hrule, fun hok => ?_⟩
      obtain ⟨hbefore, hloses⟩ := Bool.and_eq_true_iff.mp hok
      rw [Bool.not_eq_true'] at hloses
      exact (hfed hbefore).deliver hh ha hadmits hloses hrule
    · cases h
  | number n =>
    cases h
    refine ⟨⟨hh.ledger, hh.attended, hh.tidy, hh.feeds, hh.minded, hh.stopping, hh.draining⟩,
      ha.congr rfl rfl ha.offering, fun hok => ?_⟩
    exact (hfed (Bool.and_eq_true_iff.mp hok).1).congr rfl rfl rfl rfl rfl id
  | again ops =>
    simp only [Broadcast.step] at h
    split at h
    · cases h
      obtain ⟨before, hledger⟩ := hh.ledger
      rw [hledger, Ledger.used, ← List.foldl_append]
      exact follows_begin o (before ++ ops) _ ha.sound ha.within
    · cases h

theorem Follows.run {ok : Bool} {moves : List Move} (hf : Follows global streams w ok)
    (h : w.run o moves = some w') : Follows global streams w' (w.intact o ok moves) := by
  induction moves generalizing w ok with
  | nil =>
    cases h
    exact hf
  | cons m rest ih =>
    obtain ⟨mid, hstep, hrest⟩ := Option.bind_eq_some_iff.mp h
    rw [intact, hstep, Option.all_some]
    exact ih (hf.step hstep) hrest

end

end Broadcast

end Intake
