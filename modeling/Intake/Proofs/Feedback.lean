import Intake.Proofs.Listening
import Mathlib.Data.List.Basic
/-!
# Reports about reports

What becomes of an event among the subscribers may be reported by another event, which is offered to the same
subscribers in its turn. So one event can lead to many. Here it is shown how many: what a delivery still has to do is
weighed (`Delivery.dues`), event by event, according to where the event is, and no step makes more of it than the
step brings in from outside.

There are two ways of weighing. With `Tariff.reports` the weight of an event is the greatest number of reports that
can still come of it, as long as nobody crashes over a report; a crash over a report (`relapses`) is paid for
separately. With `Tariff.work` it is the number of moves that it can still cause. `reports_step` and `work_step` say
what one step does to the dues, `reports_run` and `work_run` what a run does; the main statement is
`reports_bounded_by_relapses`. Relapses cannot be left out of it, neither those over reports of crashes nor those
over reports of missed events: `not_bounded_of_cycle` shows how the subscribers can keep each other busy forever.
-/

namespace Intake

/-- Whether an event of this kind tells what became of another event among the subscribers. -/
def EventKind.isReport : EventKind → Bool
  | .subscriberOverflow => true
  | .subscriberPanicked => true
  | _ => false

/-- How many times the listener still goes on to another stage. -/
def Listening.ahead : Listening → Nat
  | .receiving => 3
  | .draining => 2
  | .closing => 1
  | .done => 0

/-! ### What happens to a subscriber, alive or dead -/

namespace Subscriber

/-- The ways in which something happens to a subscriber, whatever state it is in. -/
inductive Course (s : Subscriber) : Deed → Subscriber → List Event → Prop
  | keeps {e : Event} : Course s (.offer e) { s with queue := s.queue ++ [e] } []
  | refuses {e : Event} (reason : String) :
      Course s (.offer e) s (if e.isOverflow then [] else [Event.overflow s.name reason])
  | takes {e : Event} {rest : List Event} : s.hand = none → s.queue = e :: rest →
      Course s .take { s with hand := some e, queue := rest } []
  | finishes {e : Event} {h : Handling} : s.hand = some e →
      Course s (.finish h) { s with hand := none } (crashReport s.name h)

/-- Whether the subscriber crashes over a report. -/
def relapses (s : Subscriber) : Deed → Bool
  | .finish (.crashed _) => s.hand.any (·.kind.isReport)
  | _ => false

section
variable {s s' : Subscriber} {deed : Deed} {published : List Event}

theorem course_of_act (h : s.act deed = some (s', published)) : Course s deed s' published := by
  cases deed with
  | offer e =>
    simp only [act, offer] at h
    split at h
    · cases h
      exact .refuses _
    · split at h
      · cases h
        exact .keeps
      · cases h
        exact .refuses _
  | take =>
    obtain ⟨next, hnext, heq⟩ := Option.map_eq_some_iff.mp h
    cases heq
    obtain ⟨e, rest, hhand, hqueue, rfl⟩ := take_eq_some hnext
    exact .takes hhand hqueue
  | finish handling =>
    obtain ⟨e, hhand, rfl, rfl⟩ := finish_eq_some h
    exact .finishes hhand

theorem exists_of_relapses (h : s.relapses deed = true) :
    ∃ message e, deed = .finish (.crashed message) ∧ s.hand = some e ∧ e.kind.isReport = true := by
  unfold relapses at h
  split at h
  · rename_i message
    rcases hhand : s.hand with _ | e
    · simp [hhand] at h
    · exact ⟨message, e, rfl, rfl, by simpa [hhand] using h⟩
  · cases h

/-- Subscribers publish nothing but reports. -/
theorem Course.isReport (h : Course s deed s' published) : ∀ e ∈ published, e.kind.isReport = true := by
  cases h with
  | keeps | takes => exact List.forall_mem_nil _
  | @refuses e reason =>
    split
    · exact List.forall_mem_nil _
    · exact List.forall_mem_singleton.mpr rfl
  | @finishes e handling =>
    cases handling with
    | done => exact List.forall_mem_nil _
    | crashed message => exact List.forall_mem_singleton.mpr rfl

end

end Subscriber

/-! ### Dues -/

/-- What an event weighs, according to its kind and to where it is. -/
structure Tariff where
  ring : EventKind → Nat
  /-- For each subscriber that it is still to be offered to. -/
  offer : EventKind → Nat
  /-- For the end of the offers. -/
  last : Nat
  queue : EventKind → Nat
  hand : EventKind → Nat

namespace Tariff

/-- The greatest number of reports that come of one offer if nobody crashes over a report. A report of a missed event
leads to none, even if it is missed, and a report of a crash to one if it is missed. Over any other event the
subscriber may crash, and then all may miss the report. -/
def toll (n : Nat) : EventKind → Nat
  | .subscriberOverflow => 0
  | .subscriberPanicked => 1
  | _ => n + 1

/-- The greatest number of reports that come of an event that is not missed. -/
def burden (n : Nat) : EventKind → Nat
  | .subscriberOverflow => 0
  | .subscriberPanicked => 0
  | _ => n + 1

/-- The weight of events in reports, with a number of subscribers. -/
def reports (n : Nat) : Tariff where
  ring k := n * toll n k
  offer := toll n
  last := 0
  queue := burden n
  hand := burden n

/-- The weight of events in moves, with a number of subscribers: taking the event, an offer to each subscriber, which
may begin with it and be done with it, and the end of the offers. -/
def work (n : Nat) : Tariff where
  ring _ := 3 * n + 2
  offer _ := 3
  last := 1
  queue _ := 2
  hand _ := 1

section
variable (n : Nat) (k : EventKind)

theorem burden_le_toll : burden n k ≤ toll n k := by
  cases k <;> simp [burden, toll]

theorem toll_le : toll n k ≤ n + 1 := by
  cases k <;> simp [toll]

theorem one_le_toll (hk : k ≠ .subscriberOverflow) : 1 ≤ toll n k := by
  cases k <;> simp_all [toll]

theorem burden_of_not_report (hk : k.isReport = false) : burden n k = n + 1 := by
  cases k <;> simp_all [burden, EventKind.isReport]

end

end Tariff

/-- What the events weigh that a subscriber has. -/
def Subscriber.dues (w : Tariff) (s : Subscriber) : Nat :=
  (s.hand.elim 0 fun e => w.hand e.kind) + (s.queue.map fun e => w.queue e.kind).sum

/-- What an offer weighs before it is made. -/
def Subscriber.Deed.price (w : Tariff) : Subscriber.Deed → Nat
  | .offer e => w.offer e.kind
  | _ => 0

section
variable {s s' : Subscriber} {deed : Subscriber.Deed} {published : List Event}

/-- The reports that are published, and all that can come of them, are paid for by what the subscriber had or was
offered, or by a crash over a report. -/
theorem Subscriber.Course.reports_le (h : s.Course deed s' published) (n : Nat) :
    published.length + ((published.map Event.kind).map (Tariff.reports n).ring).sum + s'.dues (.reports n) ≤
      s.dues (.reports n) + deed.price (.reports n) + (n + 1) * (s.relapses deed).toNat := by
  cases h with
  | @keeps e =>
    have hle := Tariff.burden_le_toll n e.kind
    simp [dues, Deed.price, Tariff.reports]
    omega
  | @refuses e reason =>
    by_cases hover : e.isOverflow = true
    · simp [hover]
      omega
    · have hpays := Tariff.one_le_toll n e.kind (by simpa [Event.isOverflow] using hover)
      have hprice : (Deed.offer e).price (.reports n) = Tariff.toll n e.kind := rfl
      have hring : (Tariff.reports n).ring (Event.overflow s.name reason).kind = 0 := Nat.mul_zero n
      simp [hover, hprice, hring]
      omega
  | @takes e rest hhand hqueue =>
    have hsame : (Tariff.reports n).hand = (Tariff.reports n).queue := rfl
    simp [dues, hhand, hqueue, hsame]
    omega
  | @finishes e handling hhand =>
    cases handling with
    | done =>
      simp [dues, hhand, crashReport]
      omega
    | crashed message =>
      have hring : (Tariff.reports n).ring (Event.subscriberCrash s.name message).kind = n := Nat.mul_one n
      rcases hreport : e.kind.isReport with _ | _
      · have hhands : (Tariff.reports n).hand e.kind = n + 1 := Tariff.burden_of_not_report n e.kind hreport
        simp [dues, hhand, crashReport, hring, hhands]
        omega
      · simp [dues, hhand, crashReport, hring, relapses, hreport]
        omega

/-- Whatever happens to a subscriber, there is less to do for it after that. -/
theorem Subscriber.Course.work_lt (h : s.Course deed s' published) (n : Nat) :
    s'.dues (.work n) < s.dues (.work n) + deed.price (.work n) := by
  cases h with
  | keeps =>
    simp [dues, Deed.price, Tariff.work]
    omega
  | refuses => simp [dues, Deed.price, Tariff.work]
  | takes hhand hqueue =>
    simp [dues, hhand, hqueue, Tariff.work]
    omega
  | finishes hhand =>
    simp [dues, hhand, Tariff.work]
    omega

end

def Audience.dues (w : Tariff) (a : Audience) : Nat := (a.map (Subscriber.dues w)).sum

theorem Audience.dues_set (w : Tariff) {a : Audience} {i : Nat} {s : Subscriber} (hs : a[i]? = some s)
    (s' : Subscriber) : Audience.dues w (a.set i s') + s.dues w = Audience.dues w a + s'.dues w := by
  induction a generalizing i with
  | nil => cases hs
  | cons t rest ih =>
    cases i with
    | zero =>
      cases hs
      simp only [List.set_cons_zero, dues, List.map_cons, List.sum_cons]
      omega
    | succ i =>
      have hrest := ih hs
      simp only [dues] at hrest
      simp only [List.set_cons_succ, dues, List.map_cons, List.sum_cons]
      omega

namespace Delivery

open Subscriber (Deed)

/-- The kinds of the events published, in order. -/
def kinds (d : Delivery) : List EventKind := d.ring.history.map Event.kind

/-- What the events weigh that are still to be taken off the ring. -/
def ringDues (w : Tariff) (d : Delivery) : Nat := ((d.kinds.drop d.position).map w.ring).sum

/-- What the event weighs that is being offered. -/
def offerDues (w : Tariff) (d : Delivery) : Nat :=
  d.offering.elim 0 fun o => (d.audience.length - o.2) * w.offer o.1.kind + w.last

/-- What is still to be done, by a tariff. -/
def dues (w : Tariff) (d : Delivery) : Nat := d.ringDues w + d.offerDues w + Audience.dues w d.audience

/-- The number of reports published. -/
def reports (d : Delivery) : Nat := d.kinds.countP EventKind.isReport

/-- The events that are published from outside. -/
def outside (moves : List Move) : List Event :=
  moves.filterMap fun
    | .publish e => some e
    | _ => none

/-- Whether it is a move of the listener or of a subscriber. -/
def Move.isOwn : Move → Bool
  | .publish _ => false
  | .stop => false
  | _ => true

/-- Whether a subscriber crashes over a report in a turn. -/
def Turn.relapses (t : Turn) : Bool :=
  (t.before.deed? t.move).any fun deed => (t.before.audience[deed.1]?).any (·.relapses deed.2)

/-- How often subscribers crash over a report in some turns. -/
def relapses (turns : List Turn) : Nat := turns.countP Turn.relapses

section
variable {d d' : Delivery} {m : Move} {moves : List Move} (w : Tariff)

theorem kinds_publishAll (d : Delivery) (l : List Event) :
    (d.publishAll l).kinds = d.kinds ++ l.map Event.kind := by
  obtain ⟨more, hhistory, hmore⟩ := history_publishAll_map Event.kind (fun _ _ => rfl) d l
  rw [kinds, hhistory, List.map_append, hmore]
  rfl

theorem kinds_publish (d : Delivery) (e : Event) : (d.publish e).kinds = d.kinds ++ [e.kind] :=
  kinds_publishAll d [e]

/-- What is published adds its weight to that of the ring. -/
theorem ringDues_le {more : List EventKind} (hkinds : d'.kinds = d.kinds ++ more)
    (hposition : d'.position = d.position) : d'.ringDues w ≤ d.ringDues w + (more.map w.ring).sum := by
  have hsplit := congrArg (fun l => (l.map w.ring).sum)
    (List.take_append_drop (d.position - d.kinds.length) more)
  simp only [List.map_append, List.sum_append] at hsplit
  simp only [ringDues, hkinds, hposition, List.drop_append, List.map_append, List.sum_append]
  omega

theorem dues_publish (e : Event) : (d.publish e).dues w ≤ d.dues w + w.ring e.kind := by
  have hring : (d.publish e).ringDues w ≤ d.ringDues w + w.ring e.kind := ringDues_le w (kinds_publish d e) rfl
  show (d.publish e).ringDues w + d.offerDues w + Audience.dues w d.audience ≤ d.dues w + w.ring e.kind
  simp only [dues]
  omega

/-- What is left on the ring after some events of it. -/
theorem ringDues_skip (n : Nat) : ({ d with position := d.position + n } : Delivery).ringDues w +
    (((d.kinds.drop d.position).take n).map w.ring).sum = d.ringDues w := by
  have hsplit := congrArg (fun l => (l.map w.ring).sum) (List.take_append_drop n (d.kinds.drop d.position))
  simp only [List.map_append, List.sum_append, List.drop_drop] at hsplit
  simp only [ringDues]
  show ((d.kinds.drop (d.position + n)).map w.ring).sum + _ = _
  omega

/-- The listener takes an event off the ring, which is then to be offered to all, or passes over some that it has
missed. -/
theorem dues_receive (h : d.step .receive = some d') :
    ∃ k, d'.dues w + w.ring k ≤ d.dues w + (d.audience.length * w.offer k + w.last) := by
  have hdrop : ∀ {k later}, d.kinds.drop d.position = k :: later →
      ∀ n, 0 < n → w.ring k ≤ (((d.kinds.drop d.position).take n).map w.ring).sum := by
    intro k later hcons n hn
    obtain ⟨n, rfl⟩ := Nat.exists_eq_add_of_lt hn
    simp [hcons]
  obtain ⟨-, hnone, hcases⟩ := receive_cases h
  have hlt : d.position < d.kinds.length := by
    rw [kinds, List.length_map]
    rcases hcases with ⟨e, -, hget, -⟩ | ⟨n, -, hpos, hlength, -⟩
    · exact (List.getElem?_eq_some_iff.mp hget).1
    · omega
  have hcons := List.drop_eq_getElem_cons hlt
  refine ⟨d.kinds[d.position], ?_⟩
  rcases hcases with ⟨e, -, hget, rfl⟩ | ⟨n, -, hpos, -, rfl⟩
  · have hkind : d.kinds[d.position] = e.kind := by
      obtain ⟨_, rfl⟩ := List.getElem?_eq_some_iff.mp hget
      simp [kinds]
    have hskip := d.ringDues_skip w 1
    have hfirst := hdrop hcons 1 Nat.one_pos
    simp only [dues, offerDues, hnone, hkind, Option.elim_none, Option.elim_some, Nat.sub_zero] at hfirst ⊢
    show ({ d with position := d.position + 1 } : Delivery).ringDues w + _ + _ + _ ≤ _
    omega
  · have hskip := d.ringDues_skip w n
    have hfirst := hdrop hcons n hpos
    simp only [dues] at hskip ⊢
    show ({ d with position := d.position + n } : Delivery).ringDues w + d.offerDues w + _ + _ ≤ _
    omega

theorem dues_hasOffered {e : Event} {i : Nat} (ho : d.offering = some (e, i)) :
    ({ d with offering := none } : Delivery).dues w + w.last ≤ d.dues w := by
  simp only [dues, offerDues, ho, Option.elim_none, Option.elim_some]
  show d.ringDues w + 0 + Audience.dues w d.audience + w.last ≤ _
  omega

/-- What a subscriber has is not done when it dies. -/
theorem dues_die {i : Nat} {s s' : Subscriber} (hs : d.audience[i]? = some s) (hdie : s.die = some s') :
    ({ d with audience := d.audience.set i s' } : Delivery).dues w + s.dues w ≤ d.dues w := by
  have hnothing : s'.dues w = 0 := by
    obtain ⟨e, -, rfl⟩ := Subscriber.die_eq_some hdie
    rfl
  have hset := Audience.dues_set w hs s'
  simp only [dues, offerDues, List.length_set]
  show d.ringDues w + d.offerDues w + _ + _ ≤ d.ringDues w + d.offerDues w + _
  omega

/-- One offer is paid for with every offer that is made. -/
theorem offerDues_after {deed : Nat × Deed} (hdeed : d.deed? m = some deed)
    (hlength : d'.audience.length = d.audience.length) (hoffering : d'.offering = d.offeringAfter m) :
    d'.offerDues w + deed.2.price w = d.offerDues w := by
  cases m with
  | offer =>
    obtain ⟨⟨e, i⟩, ho, hsome⟩ := Option.bind_eq_some_iff.mp hdeed
    split at hsome
    · rename_i hi
      cases hsome
      have hleft : d.audience.length - i = d.audience.length - (i + 1) + 1 := by omega
      simp only [offerDues, hoffering, offeringAfter, ho, Option.map_some, Option.elim_some, Deed.price, hlength,
        hleft, Nat.add_mul, Nat.one_mul]
      omega
    · cases hsome
  | take i | finish i handling =>
    cases hdeed
    simp only [offerDues, hoffering, offeringAfter, hlength, Deed.price, Nat.add_zero]
  | publish | stop | receive | turn | close | die => cases hdeed

/-- What happens to a subscriber changes what it has to do, and adds what is published. -/
theorem dues_serve {deed : Nat × Deed} {audience : Audience} {published : List Event}
    (hdeed : d.deed? m = some deed) (hstep : d.audience.step deed = some (audience, published)) :
    ∃ s s', d.audience[deed.1]? = some s ∧ s.act deed.2 = some (s', published) ∧
      ({ d.publishAll published with audience, offering := d.offeringAfter m } : Delivery).dues w +
          s.dues w + deed.2.price w ≤
        d.dues w + s'.dues w + ((published.map Event.kind).map w.ring).sum := by
  obtain ⟨s, s', hs, hact, rfl⟩ := Audience.step_iff.mp hstep
  refine ⟨s, s', hs, hact, ?_⟩
  have hposition : (d.publishAll published).position = d.position := by rw [publishAll_eq]
  generalize hafter : ({ d.publishAll published with
    audience := d.audience.set deed.1 s', offering := d.offeringAfter m } : Delivery) = after
  have hring : after.ringDues w ≤ d.ringDues w + ((published.map Event.kind).map w.ring).sum := by
    subst hafter
    exact ringDues_le w (kinds_publishAll d published) hposition
  have hoffer : after.offerDues w + deed.2.price w = d.offerDues w := by
    subst hafter
    exact offerDues_after w hdeed List.length_set rfl
  have hset : Audience.dues w after.audience + s.dues w = Audience.dues w d.audience + s'.dues w := by
    subst hafter
    exact Audience.dues_set w hs s'
  simp only [dues]
  omega

end

/-! ### Steps and runs -/

section
variable {d d' : Delivery} {m : Move} {moves rest : List Move}

theorem outside_cons (m : Move) (rest : List Move) : outside (m :: rest) = outside [m] ++ outside rest :=
  List.filterMap_append (l := [m])

theorem reports_of_append {more : List EventKind} (hkinds : d'.kinds = d.kinds ++ more) :
    d'.reports = d.reports + more.countP EventKind.isReport := by
  rw [reports, hkinds, List.countP_append]
  rfl

theorem relapses_of_deed {deed : Nat × Deed} {s : Subscriber} (hdeed : d.deed? m = some deed)
    (hs : d.audience[deed.1]? = some s) : Turn.relapses ⟨d, m⟩ = s.relapses deed.2 := by
  simp only [Turn.relapses, hdeed, Option.any_some, hs]

/-- With one step there are no more reports and reports to come than before, except for what comes of an event from
outside or of a crash over a report. -/
theorem reports_step (h : d.step m = some d') {n : Nat} (hn : d.audience.length = n) :
    d'.reports + d'.dues (.reports n) ≤ d.reports + d.dues (.reports n) +
      (((outside [m]).map Event.kind).countP EventKind.isReport + n * (n + 1) * (outside [m]).length) +
      (n + 1) * (Turn.relapses ⟨d, m⟩).toNat := by
  cases rule_of_step h with
  | @publishes e =>
    have hreports := reports_of_append (kinds_publish d e)
    have hdues := dues_publish (d := d) (.reports n) e
    have htoll := Nat.mul_le_mul_left n (Tariff.toll_le n e.kind)
    simp only [Tariff.reports] at hdues ⊢
    simp only [outside, List.filterMap_cons, List.filterMap_nil, List.map_cons, List.map_nil, List.length_singleton]
    omega
  | receives | lags =>
    obtain ⟨k, hdues⟩ := dues_receive (.reports n) h
    simp only [hn, Tariff.reports] at hdues ⊢
    show d.reports + _ ≤ _
    omega
  | @serves _ deed audience published hdeed hstep =>
    obtain ⟨s, s', hs, hact, hdues⟩ := dues_serve (.reports n) hdeed hstep
    have hcourse := Subscriber.course_of_act hact
    have hpaid := hcourse.reports_le n
    have hcount : (published.map Event.kind).countP EventKind.isReport = published.length := by
      rw [List.countP_map, List.countP_eq_length]
      exact hcourse.isReport
    have hreports := reports_of_append (kinds_publishAll d published)
    rw [relapses_of_deed hdeed hs]
    show (d.publishAll published).reports + _ ≤ _
    omega
  | hasOffered ho =>
    have hdues := dues_hasOffered (.reports n) ho
    show d.reports + _ ≤ _
    omega
  | dies hs hdie =>
    have hdues := dues_die (.reports n) hs hdie
    show d.reports + _ ≤ _
    omega
  | stops | drains | hasDrained | closes =>
    show d.reports + d.dues (.reports n) ≤ _
    omega

/-- In a run there are no more reports and reports to come than at first, except for what comes of the events from
outside and of crashes over reports. -/
theorem reports_run (h : d.run moves = some d') {n : Nat} (hn : d.audience.length = n) :
    d'.reports + d'.dues (.reports n) ≤ d.reports + d.dues (.reports n) +
      (((outside moves).map Event.kind).countP EventKind.isReport + n * (n + 1) * (outside moves).length) +
      (n + 1) * relapses (d.trace moves) := by
  induction moves generalizing d with
  | nil =>
    cases h
    omega
  | cons m rest ih =>
    obtain ⟨mid, hstep, hrest⟩ := run_cons_iff.mp h
    have hfirst := reports_step hstep hn
    have hlater := ih hrest ((length_step hstep).trans hn)
    have hrelapses : relapses (d.trace (m :: rest)) = relapses (mid.trace rest) + (Turn.relapses ⟨d, m⟩).toNat := by
      rw [trace_cons hstep, relapses, List.countP_cons]
      cases Turn.relapses ⟨d, m⟩ <;> rfl
    rw [outside_cons, List.map_append, List.countP_append, List.length_append, hrelapses, Nat.mul_add (n * (n + 1)),
      Nat.mul_add (n + 1)]
    omega

/-- With one step of the listener or of a subscriber there is less to do, except for what is published. -/
theorem work_step (h : d.step m = some d') {n : Nat} (hn : d.audience.length = n) :
    m.isOwn.toNat + d'.dues (.work n) + d'.listening.ahead + (3 * n + 2) * d.kinds.length ≤
      d.dues (.work n) + d.listening.ahead + (3 * n + 2) * d'.kinds.length := by
  cases rule_of_step h with
  | @publishes e =>
    have hdues := dues_publish (d := d) (.work n) e
    rw [kinds_publish, List.length_append, Nat.mul_add]
    simp only [Tariff.work] at hdues ⊢
    show 0 + _ + d.listening.ahead + _ ≤ _
    simp only [List.length_singleton]
    omega
  | receives | lags =>
    obtain ⟨k, hdues⟩ := dues_receive (.work n) h
    simp only [hn, Tariff.work] at hdues ⊢
    show 1 + _ + d.listening.ahead + _ ≤ _ + (3 * n + 2) * d.kinds.length
    omega
  | @serves _ deed audience published hdeed hstep =>
    obtain ⟨s, s', hs, hact, hdues⟩ := dues_serve (.work n) hdeed hstep
    have hless := (Subscriber.course_of_act hact).work_lt n
    have hown := Bool.toNat_le m.isOwn
    have hsum : ((published.map Event.kind).map (Tariff.work n).ring).sum = (3 * n + 2) * published.length := by
      simp only [Tariff.work, List.map_map, Function.comp_def, List.map_const', List.sum_replicate_nat]
      exact Nat.mul_comm _ _
    have hahead : (d.publishAll published).listening.ahead = d.listening.ahead := by rw [publishAll_eq]
    show _ + _ + (d.publishAll published).listening.ahead + _ ≤
      _ + (3 * n + 2) * (d.publishAll published).kinds.length
    rw [hahead, kinds_publishAll, List.length_append, List.length_map, Nat.mul_add]
    omega
  | hasOffered ho =>
    have hdues := dues_hasOffered (.work n) ho
    simp only [Tariff.work] at hdues ⊢
    show 1 + _ + d.listening.ahead + _ ≤ _ + (3 * n + 2) * d.kinds.length
    omega
  | @dies i s s' hs hdie =>
    have hdues := dues_die (.work n) hs hdie
    have hbusy : 1 ≤ s.dues (.work n) := by
      obtain ⟨e, hhand, -⟩ := Subscriber.die_eq_some hdie
      simp [Subscriber.dues, hhand, Tariff.work]
    show 1 + _ + d.listening.ahead + _ ≤ _ + (3 * n + 2) * d.kinds.length
    omega
  | stops =>
    show 0 + d.dues (.work n) + d.listening.ahead + _ ≤ _ + (3 * n + 2) * d.kinds.length
    omega
  | drains hlistening | hasDrained _ hlistening | closes hlistening =>
    show 1 + d.dues (.work n) + Listening.ahead _ + _ ≤ _ + (3 * n + 2) * d.kinds.length
    simp only [hlistening, Listening.ahead]
    omega

/-- In a run the listener and the subscribers make no more moves than there was to do, except for what is
published. -/
theorem work_run (h : d.run moves = some d') {n : Nat} (hn : d.audience.length = n) :
    moves.countP Move.isOwn + d'.dues (.work n) + d'.listening.ahead + (3 * n + 2) * d.kinds.length ≤
      d.dues (.work n) + d.listening.ahead + (3 * n + 2) * d'.kinds.length := by
  induction moves generalizing d with
  | nil =>
    cases h
    simp
  | cons m rest ih =>
    obtain ⟨mid, hstep, hrest⟩ := run_cons_iff.mp h
    have hfirst := work_step hstep hn
    have hlater := ih hrest ((length_step hstep).trans hn)
    have hcount : (m :: rest).countP Move.isOwn = rest.countP Move.isOwn + m.isOwn.toNat := by
      rw [List.countP_cons]
      cases m.isOwn <;> rfl
    omega

/-- What is not a report comes from outside. -/
theorem others_step (h : d.step m = some d') : d'.kinds.countP (!·.isReport) =
    d.kinds.countP (!·.isReport) + ((outside [m]).map Event.kind).countP (!·.isReport) := by
  cases rule_of_step h with
  | @publishes e =>
    rw [kinds_publish, List.countP_append]
    rfl
  | @serves _ deed audience published hdeed hstep =>
    obtain ⟨s, s', -, hact, -⟩ := Audience.step_iff.mp hstep
    have hnone : (published.map Event.kind).countP (!·.isReport) = 0 := by
      rw [List.countP_map, List.countP_eq_zero]
      intro e he
      simp [(Subscriber.course_of_act hact).isReport e he]
    have houtside : outside [m] = [] := by
      cases m with
      | publish e => cases hdeed
      | _ => rfl
    show (d.publishAll published).kinds.countP _ = _
    rw [kinds_publishAll, List.countP_append, hnone, houtside]
    rfl
  | _ => rfl

theorem others_run (h : d.run moves = some d') : d'.kinds.countP (!·.isReport) =
    d.kinds.countP (!·.isReport) + ((outside moves).map Event.kind).countP (!·.isReport) := by
  induction moves generalizing d with
  | nil =>
    cases h
    rfl
  | cons m rest ih =>
    obtain ⟨mid, hstep, hrest⟩ := run_cons_iff.mp h
    rw [ih hrest, others_step hstep, outside_cons m rest, List.map_append, List.countP_append, Nat.add_assoc]

/-! ### Habits -/

/-- Whether a turn agrees with what the subscribers make of events, if one does it with an event. -/
def Turn.follows (habit : Nat → Event → Handling) (t : Turn) : Bool :=
  match t.move with
  | .finish i h => ((t.before.audience[i]?).bind (·.hand)).all fun e => habit i e = h
  | _ => true

/-- There is a bound on the reports that come of some events from outside, whoever goes on when, with subscribers of
some names, capacities and habits. -/
def Bounded (ring : Ring) (nextSeq : Nat) (l : List (String × Nat)) (habit : Nat → Event → Handling)
    (events : List Event) : Prop :=
  let start := subscribed ring nextSeq (Audience.seated l)
  ∃ bound, ∀ moves d, outside moves = events → start.run moves = some d →
    (start.trace moves).all (Turn.follows habit) = true → d.reports ≤ bound

theorem exists_of_relapses {t : Turn} (h : t.relapses = true) :
    ∃ i message e, t.move = .finish i (.crashed message) ∧ (t.before.audience[i]?).bind (·.hand) = some e ∧
      e.kind.isReport = true := by
  obtain ⟨⟨i, deed⟩, hdeed, hcrash⟩ := (Option.any_eq_true _ _).mp h
  obtain ⟨s, hs, hover⟩ := (Option.any_eq_true _ _).mp hcrash
  obtain ⟨message, e, hfinish, hhand, hreport⟩ := Subscriber.exists_of_relapses hover
  simp only at hs hfinish
  refine ⟨i, message, e, ?_, by rw [hs, Option.bind_some, hhand], hreport⟩
  -- only the end of a handling does this to a subscriber
  unfold deed? at hdeed
  split at hdeed
  · obtain ⟨o, -, hoffer⟩ := Option.bind_eq_some_iff.mp hdeed
    split at hoffer
    · simp [hfinish] at hoffer
    · cases hoffer
  · simp [hfinish] at hdeed
  · rename_i hmove
    cases hdeed
    cases hfinish
    exact hmove
  · cases hdeed

/-- Who does not crash over reports does not relapse. -/
theorem relapses_eq_zero {habit : Nat → Event → Handling}
    (hcalm : ∀ i e, e.kind.isReport = true → habit i e = .done) {turns : List Turn}
    (hfollows : turns.all (Turn.follows habit) = true) : relapses turns = 0 := by
  rw [relapses, List.countP_eq_zero]
  intro t ht hrelapses
  obtain ⟨i, message, e, hmove, hhand, hreport⟩ := exists_of_relapses hrelapses
  have hturn := List.all_eq_true.mp hfollows t ht
  simp [Turn.follows, hmove, hhand, hcalm i e hreport] at hturn

end

theorem length_kinds (l : List EventKind) : l.length = l.countP EventKind.isReport + l.countP (!·.isReport) := by
  rw [List.length_eq_countP_add_countP EventKind.isReport]
  simp

/-- Nothing is to be done in a delivery that has just begun. -/
theorem dues_subscribed (w : Tariff) (ring : Ring) (nextSeq : Nat) (l : List (String × Nat)) :
    (subscribed ring nextSeq (Audience.seated l)).dues w = 0 := by
  have hposition : (subscribed ring nextSeq (Audience.seated l)).position = ring.history.length :=
    ring.sent_eq_length
  have hring : (subscribed ring nextSeq (Audience.seated l)).ringDues w = 0 := by
    have hdrop : (ring.history.map Event.kind).drop ring.history.length = [] :=
      List.drop_eq_nil_of_le (Nat.le_of_eq (List.length_map _))
    rw [ringDues, hposition]
    exact congrArg (fun l => (l.map w.ring).sum) hdrop
  have haudience : Audience.dues w (Audience.seated l) = 0 := by
    simp only [Audience.dues, Audience.seated, List.map_map, List.sum_eq_zero_iff_forall_eq_nat]
    intro k hk
    obtain ⟨p, -, rfl⟩ := List.mem_map.mp hk
    rfl
  rw [dues, hring]
  exact (Nat.zero_add _).trans haudience

/-- However the capacities are, and whoever goes on when, the number of reports is bounded by the number of events
from outside and of crashes over reports, and so is the number of moves of the listener and the subscribers. All else
that is published comes from outside. So, if nobody crashes over a report, some events from outside do not keep the
subscribers busy forever. -/
theorem reports_bounded_by_relapses (ring : Ring) (nextSeq : Nat) (l : List (String × Nat)) :
    let start := subscribed ring nextSeq (Audience.seated l)
    let n := l.length
    (∀ moves d, start.run moves = some d →
      let events := (outside moves).map Event.kind
      let caused := n * (n + 1) * events.length + (n + 1) * relapses (start.trace moves)
      d.reports ≤ start.reports + events.countP EventKind.isReport + caused ∧
      d.kinds.countP (!·.isReport) = start.kinds.countP (!·.isReport) + events.countP (!·.isReport) ∧
      moves.countP Move.isOwn ≤ (3 * n + 2) * (events.length + caused) + 3) ∧
    (∀ habit : Nat → Event → Handling, (∀ i e, e.kind.isReport = true → habit i e = .done) →
      ∀ events, Bounded ring nextSeq l habit events) := by
  intro start n
  have hn : start.audience.length = n := List.length_map _
  have hreports : ∀ moves d, start.run moves = some d →
      d.reports ≤ start.reports + ((outside moves).map Event.kind).countP EventKind.isReport +
        (n * (n + 1) * (outside moves).length + (n + 1) * relapses (start.trace moves)) := by
    intro moves d hrun
    have hbound := reports_run hrun hn
    rw [dues_subscribed] at hbound
    omega
  refine ⟨?_, ?_⟩
  · intro moves d hrun events caused
    have hfew : d.reports ≤ start.reports + events.countP EventKind.isReport + caused := by
      have hlength : events.length = (outside moves).length := List.length_map _
      simp only [caused, hlength]
      exact hreports moves d hrun
    have hothers : d.kinds.countP (!·.isReport) =
        start.kinds.countP (!·.isReport) + events.countP (!·.isReport) := others_run hrun
    have hwork := work_run hrun hn
    rw [dues_subscribed] at hwork
    refine ⟨hfew, hothers, ?_⟩
    -- all that is published is from outside or caused, so the ring gets no longer than that
    have hkinds : d.kinds.length ≤ start.kinds.length + (events.length + caused) := by
      have hall := length_kinds d.kinds
      have hbefore := length_kinds start.kinds
      have hevents := length_kinds events
      simp only [reports] at hfew
      omega
    have hmoves := Nat.mul_le_mul_left (3 * n + 2) hkinds
    rw [Nat.mul_add] at hmoves
    have hahead : start.listening.ahead = 3 := rfl
    omega
  · intro habit hcalm events
    refine ⟨start.reports + (events.map Event.kind).countP EventKind.isReport + n * (n + 1) * events.length, ?_⟩
    rintro moves d rfl hrun hfollows
    have hfew := hreports moves d hrun
    rw [relapses_eq_zero hcalm hfollows] at hfew
    omega

/-- One of the subscribers crashes over events of some kinds. -/
def crashesOver (k : Nat) (kinds : List EventKind) (i : Nat) (e : Event) : Handling :=
  if i == k && kinds.contains e.kind then .crashed "boom" else .done

/-- The moves with which an event that was taken is offered to some subscribers, and some of them handle it. -/
def serving (n : Nat) (handlings : List (Nat × Handling)) : List Move :=
  List.replicate (n + 1) .offer ++ handlings.flatMap fun p => [.take p.1, .finish p.1 p.2]

/-- A subscriber crashes over an event from outside and handles the report of this: there is one report, and there
can never be more than a certain number. -/
theorem reports_bounded_by_relapses_first_crash :
    let l := [("ActiveTracker", 2048), ("LogWriter", 1024), ("boom", 1024)]
    let start := subscribed { size := 64 } 0 (Audience.seated l)
    let moves := [.publish { kind := .readStarting }, .receive] ++
      serving 3 [(0, .done), (1, .done), (2, .crashed "boom")] ++
      .receive :: serving 3 [(0, .done), (1, .done), (2, .done)]
    (∃ d, start.run moves = some d ∧ d.reports = 1 ∧ d.reports ≤ 3 * 4 ∧
      moves.countP Move.isOwn = 22 ∧ moves.countP Move.isOwn ≤ 11 * (1 + 3 * 4) + 3) ∧
    Bounded { size := 64 } 0 l (crashesOver 2 [.readStarting]) [{ kind := .readStarting }] := by
  intro l start moves
  obtain ⟨hevery, hcalm⟩ := reports_bounded_by_relapses { size := 64 } 0 l
  have hreports : (start.run moves).map reports = some 1 := by decide +kernel
  have hnone : relapses (start.trace moves) = 0 := by decide +kernel
  obtain ⟨d, hrun, hone⟩ := Option.map_eq_some_iff.mp hreports
  obtain ⟨hfew, -, hmoves⟩ := hevery moves d hrun
  rw [hnone] at hfew hmoves
  refine ⟨⟨d, hrun, hone, hfew, by decide +kernel, hmoves⟩, hcalm _ ?_ _⟩
  intro i e hreport
  have hother : e.kind ≠ .readStarting := by
    intro heq
    rw [heq] at hreport
    cases hreport
  simp [crashesOver, hother]

/-! ### Without a bound -/

section
variable {ring : Ring} {nextSeq : Nat} {l : List (String × Nat)} {habit : Nat → Event → Handling}

/-- If the subscribers come back to where they were without an event from outside, and have reported something, there
is no bound. -/
theorem not_bounded_of_cycle (Ready : Delivery → Prop) {first : List Move} {d₀ : Delivery}
    (hfirst : (subscribed ring nextSeq (Audience.seated l)).run first = some d₀)
    (hfollows : ((subscribed ring nextSeq (Audience.seated l)).trace first).all (Turn.follows habit) = true)
    (hready : Ready d₀)
    (hcycle : ∀ d, Ready d → ∃ cycle d', d.run cycle = some d' ∧ outside cycle = [] ∧
      (d.trace cycle).all (Turn.follows habit) = true ∧ Ready d' ∧ d.reports < d'.reports) :
    ¬ Bounded ring nextSeq l habit (outside first) := by
  rintro ⟨bound, hbound⟩
  have hrounds : ∀ k, ∃ moves d, outside moves = outside first ∧
      (subscribed ring nextSeq (Audience.seated l)).run moves = some d ∧
      ((subscribed ring nextSeq (Audience.seated l)).trace moves).all (Turn.follows habit) = true ∧
      Ready d ∧ k ≤ d.reports := by
    intro k
    induction k with
    | zero => exact ⟨first, d₀, rfl, hfirst, hfollows, hready, Nat.zero_le _⟩
    | succ k ih =>
      obtain ⟨moves, d, houtside, hrun, hall, hd, hk⟩ := ih
      obtain ⟨cycle, d', hagain, hnone, hmore, hd', hlt⟩ := hcycle d hd
      refine ⟨moves ++ cycle, d', ?_, run_append_iff.mpr ⟨d, hrun, hagain⟩, ?_, hd', by omega⟩
      · rw [outside, List.filterMap_append]
        exact (congrArg₂ (· ++ ·) houtside hnone).trans (List.append_nil _)
      · rw [trace_append hrun, List.all_append, hall, hmore]
        rfl
  obtain ⟨moves, d, houtside, hrun, hall, -, hk⟩ := hrounds (bound + 1)
  have hle := hbound moves d houtside hrun hall
  omega

end

/-- The listener takes the last event of the ring. -/
theorem step_receive_last {d : Delivery} {h : List Event} {e : Event} (hreceives : d.receives = true)
    (hnone : d.offering = none) (hhistory : d.ring.history = h ++ [e]) (hposition : d.position = h.length)
    (hsize : 0 < d.ring.size) :
    d.step .receive = some { d with position := d.position + 1, offering := some (e, 0) } := by
  have hget : d.ring.history[d.position]? = some e := by simp [hhistory, hposition]
  have hheld : ¬ d.position < d.ring.history.length - d.ring.size := by
    simp [hhistory, hposition]
    omega
  have hgot : d.ring.receive d.position = (.event e, d.position + 1) := by
    rw [Ring.receive_eq, if_neg hheld, hget]
  simp [step, hreceives, hnone, hgot]

/-- The listener has all but one event, which is of some kind, and nobody else has anything to do with the ring. -/
structure Waiting (audience : Audience) (kind : EventKind) (d : Delivery) : Prop where
  eq : d = { ring := d.ring, nextSeq := d.nextSeq, position := d.position, audience }
  held : 0 < d.ring.size
  last : ∃ h e, d.ring.history = h ++ [e] ∧ d.position = h.length ∧ e.kind = kind

/-- When the listener has taken an event of some kind, these moves can be made, and end where they began but for a
report. -/
structure Answers (habit : Nat → Event → Handling) (audience : Audience) (kind : EventKind) (moves : List Move)
    (report : Event) : Prop where
  own : outside moves = []
  isReport : report.kind.isReport = true
  run (ring : Ring) (nextSeq position : Nat) (e : Event) : e.kind = kind →
    ({ ring, nextSeq, position, offering := some (e, 0), audience } : Delivery).run moves =
      some (publish { ring, nextSeq, position, audience } report)
  follows (ring : Ring) (nextSeq position : Nat) (e : Event) : e.kind = kind →
    (trace { ring, nextSeq, position, offering := some (e, 0), audience } moves).all (Turn.follows habit) = true

section
variable {habit : Nat → Event → Handling} {audience : Audience} {kind : EventKind} {moves : List Move}
  {report : Event}

/-- The listener takes the event that waits, and the report takes its place. -/
theorem Answers.round (ha : Answers habit audience kind moves report) {d : Delivery}
    (hd : Waiting audience kind d) :
    ∃ d', d.run (.receive :: moves) = some d' ∧
      (d.trace (.receive :: moves)).all (Turn.follows habit) = true ∧
      Waiting audience report.kind d' ∧ d'.reports = d.reports + 1 := by
  obtain ⟨heq, hheld, h, e, hhistory, hposition, hkind⟩ := hd
  have hstep : d.step .receive = some
      { ring := d.ring, nextSeq := d.nextSeq, position := d.position + 1, offering := some (e, 0), audience } := by
    rw [step_receive_last (by rw [heq]; rfl) (by rw [heq]) hhistory hposition hheld]
    rw [heq]
  refine ⟨_, run_cons_iff.mpr ⟨_, hstep, ha.run _ _ _ e hkind⟩, ?_, ⟨rfl, hheld, ?_⟩, ?_⟩
  · rw [trace_cons hstep, List.all_cons, ha.follows _ _ _ e hkind]
    rfl
  · refine ⟨h ++ [e], { report with seq := d.nextSeq }, ?_, ?_, rfl⟩
    · rw [← hhistory]
      exact Ring.history_publish _ _
    · show d.position + 1 = _
      rw [List.length_append, hposition]
      rfl
  · rw [reports_of_append (kinds_publish _ report), List.countP_singleton, ha.isReport]
    rfl

/-- Two kinds of reports that lead to each other go on forever. -/
theorem not_bounded_of_answers {ring : Ring} {nextSeq : Nat} {l : List (String × Nat)} {first back : List Move}
    {reply : Event} {d₀ : Delivery} (hfirst : (subscribed ring nextSeq (Audience.seated l)).run first = some d₀)
    (hfollows : ((subscribed ring nextSeq (Audience.seated l)).trace first).all (Turn.follows habit) = true)
    (hready : Waiting audience kind d₀) (ha : Answers habit audience kind moves report)
    (hback : Answers habit audience report.kind back reply) (hreply : reply.kind = kind) :
    ¬ Bounded ring nextSeq l habit (outside first) := by
  apply not_bounded_of_cycle (Waiting audience kind) hfirst hfollows hready
  intro d hd
  obtain ⟨mid, hrun, hall, hmid, hcount⟩ := ha.round hd
  obtain ⟨d', hrun', hall', hd', hcount'⟩ := hback.round hmid
  refine ⟨(.receive :: moves) ++ (.receive :: back), d', run_append_iff.mpr ⟨mid, hrun, hrun'⟩, ?_, ?_,
    hreply ▸ hd', by omega⟩
  · rw [outside, List.filterMap_append]
    exact congrArg₂ (· ++ ·) ha.own hback.own
  · rw [trace_append hrun, List.all_append, hall, hall']
    rfl

end

/-- A subscriber that crashes over reports of crashes reports its own crashes forever. So does one that crashes over
reports of missed events, if another one has its queue full: this one misses the report of the crash. -/
theorem relapsing_subscribers_unbounded :
    ¬ Bounded { size := 64 } 0 [("ActiveTracker", 2048), ("LogWriter", 1024), ("boom", 1024)]
        (crashesOver 2 [.readStarting, .subscriberPanicked]) [{ kind := .readStarting }] ∧
      ¬ Bounded { size := 64 } 0 [("ActiveTracker", 2048), ("LogWriter", 1024), ("slow", 1), ("boom", 1024)]
        (crashesOver 3 [.subscriberOverflow]) [{ kind := .readStarting }, { kind := .feedStarting }] := by
  refine ⟨?_, ?_⟩
  · let crashing := serving 3 [(0, .done), (1, .done), (2, .crashed "boom")]
    have hcrash : Answers (crashesOver 2 [.readStarting, .subscriberPanicked])
        (Audience.seated [("ActiveTracker", 2048), ("LogWriter", 1024), ("boom", 1024)]) .subscriberPanicked
        crashing (Event.subscriberCrash "boom" "boom") := by
      refine ⟨rfl, rfl, fun _ _ _ _ _ => rfl, ?_⟩
      rintro ring nextSeq position ⟨kind⟩ rfl
      rfl
    show ¬ Bounded _ _ _ _ (outside (.publish { kind := .readStarting } :: .receive :: crashing))
    exact not_bounded_of_answers rfl rfl ⟨rfl, Nat.succ_pos _, [_], _, rfl, rfl, rfl⟩ hcrash hcrash rfl
  · let handling := serving 4 [(0, .done), (1, .done), (3, .done)]
    let crashing := serving 4 [(0, .done), (1, .done), (3, .crashed "boom")]
    let audience : Audience := [
      { name := "ActiveTracker", capacity := 2048 }, { name := "LogWriter", capacity := 1024 },
      { name := "slow", capacity := 1, queue := [{ kind := .readStarting }] }, { name := "boom", capacity := 1024 }]
    have hcrash : Answers (crashesOver 3 [.subscriberOverflow]) audience .subscriberOverflow crashing
        (Event.subscriberCrash "boom" "boom") := by
      refine ⟨rfl, rfl, ?_, ?_⟩
      · rintro ring nextSeq position ⟨kind⟩ rfl
        rfl
      · rintro ring nextSeq position ⟨kind⟩ rfl
        rfl
    have hmiss : Answers (crashesOver 3 [.subscriberOverflow]) audience .subscriberPanicked handling
        (Event.overflow "slow" "full") := by
      refine ⟨rfl, rfl, ?_, ?_⟩
      · rintro ring nextSeq position ⟨kind⟩ rfl
        rfl
      · rintro ring nextSeq position ⟨kind⟩ rfl
        rfl
    show ¬ Bounded _ _ _ _ (outside ([.publish { kind := .readStarting }, .receive] ++ handling ++
      [.publish { kind := .feedStarting }, .receive] ++ handling))
    exact not_bounded_of_answers rfl rfl ⟨rfl, Nat.succ_pos _, [_, _], _, rfl, rfl, rfl⟩ hcrash hmiss rfl

end Delivery

end Intake
