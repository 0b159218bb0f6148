import Intake.Proofs.Audience
import Mathlib.Algebra.GroupWithZero.Nat
import Mathlib.Data.List.Basic
/-!
# What the listener makes of the ring

The listener of a read takes events off the ring while others publish, the subscribers among them. It may fall
behind, also while it takes what is left at the end. Here it is shown that every event is accounted for all the
same: from the position at which it began to listen, it passes over the history event by event, and where it has
fallen behind it passes over as many as it is told that it has missed (`Passes`).

`passes_run` says so for every run. `unoffered_run` says that each event it takes is offered to all subscribers, one
after the other, before the next one is taken. When it closes the queues it has found the ring empty
(`exists_drained`), so that nothing published before is left, and it takes nothing after that (`silent_run`). The
main statement is `listener_accounts_for_all`.
-/

namespace Intake

namespace Reception

/-- The event that was taken. -/
def event? : Reception → Option Event
  | .event e => some e
  | _ => none

/-- The number of events that are gone. -/
def missed : Reception → Nat
  | .lagged n => n
  | _ => 0

end Reception

/-- A receiver finds nothing when it has all, gets the event at its position, or is told how many events it has
missed: those from its position to the oldest event held. -/
theorem Ring.receive_cases (r : Ring) (p : Nat) :
    (r.receive p = (.empty, p) ∧ r.history.length ≤ p) ∨
      (∃ e, r.receive p = (.event e, p + 1) ∧ r.history[p]? = some e) ∨
      ∃ n, r.receive p = (.lagged n, p + n) ∧ 0 < n ∧ p + n + r.size = r.history.length := by
  rw [receive_eq]
  by_cases hbehind : p < r.history.length - r.size
  · have hnext : p + (r.history.length - r.size - p) = r.history.length - r.size := by omega
    rw [if_pos hbehind]
    refine Or.inr (Or.inr ⟨_, by rw [hnext], by omega, by omega⟩)
  · rw [if_neg hbehind]
    rcases hget : r.history[p]? with _ | e
    · exact Or.inl ⟨rfl, List.getElem?_eq_none_iff.mp hget⟩
    · exact Or.inr (Or.inl ⟨e, rfl, rfl⟩)

namespace Delivery

/-! ### Turns -/

/-- A move, and the delivery it is made in. -/
structure Turn where
  before : Delivery
  move : Move

/-- The moves of a run, as far as they can be made. -/
def trace (d : Delivery) : List Move → List Turn
  | [] => []
  | m :: rest => ⟨d, m⟩ :: (d.step m).elim [] fun d' => d'.trace rest

/-- What the listener gets from the ring. -/
def Turn.reception? (t : Turn) : Option Reception :=
  match t.move with
  | .receive => some (t.before.ring.receive t.before.position).1
  | _ => none

/-- What the listener gets from the ring in some turns, in order. -/
def receptions (turns : List Turn) : List Reception := turns.filterMap Turn.reception?

/-- The events among it. -/
def forwarded (turns : List Turn) : List Event := (receptions turns).filterMap Reception.event?

/-- The number of events that it is told to have missed. -/
def missed (turns : List Turn) : Nat := ((receptions turns).map Reception.missed).sum

/-- What happens to the subscribers in some turns. -/
def deeds (turns : List Turn) : List (Nat × Subscriber.Deed) :=
  turns.filterMap fun t => t.before.deed? t.move

/-- The offers that are still to be made of the event that is being offered. -/
def unoffered (d : Delivery) : List (Nat × Event) :=
  d.offering.elim [] fun o => ((List.range d.audience.length).drop o.2).map (·, o.1)

/-- The listener goes over a history from one position to another: it gets the event at its position, or it is told
how many events it has missed. -/
inductive Passes (h : List Event) : Nat → List Reception → Nat → Prop
  | rests (p : Nat) : Passes h p [] p
  | takes {p q : Nat} {e : Event} {later : List Reception} : h[p]? = some e → Passes h (p + 1) later q →
      Passes h p (.event e :: later) q
  | skips {p q n : Nat} {later : List Reception} : p + n ≤ h.length → Passes h (p + n) later q →
      Passes h p (.lagged n :: later) q

section
variable {h : List Event} {p q : Nat} {rs : List Reception}

/-- Every event that is passed is taken or counted as missed. -/
theorem Passes.count (hp : Passes h p rs q) :
    p + (rs.filterMap Reception.event?).length + (rs.map Reception.missed).sum = q := by
  induction hp with
  | rests => rfl
  | takes _ _ ih =>
    simp only [List.filterMap_cons, Reception.event?, List.length_cons, List.map_cons, Reception.missed,
      List.sum_cons]
    omega
  | skips _ _ ih =>
    simp only [List.filterMap_cons, Reception.event?, List.map_cons, Reception.missed, List.sum_cons]
    omega

/-- The events that are taken are some of those between the positions, in the same order. -/
theorem Passes.sublist (hp : Passes h p rs q) :
    (rs.filterMap Reception.event?).Sublist ((h.take q).drop p) := by
  induction hp with
  | rests => exact List.nil_sublist _
  | @takes p q e later hget hlater ih =>
    have hcount := hlater.count
    obtain ⟨hlt, rfl⟩ := List.getElem?_eq_some_iff.mp hget
    have hlt' : p < (h.take q).length := by
      rw [List.length_take]
      omega
    rw [List.drop_eq_getElem_cons hlt', List.getElem_take]
    exact ih.cons_cons _
  | @skips p q n later _ _ ih =>
    apply ih.trans
    rw [← List.drop_drop]
    exact List.drop_sublist n _

/-- The listener does not get ahead of what is published. -/
theorem Passes.le_length (hp : Passes h p rs q) (hle : p ≤ h.length) : q ≤ h.length := by
  induction hp with
  | rests => exact hle
  | takes hget _ ih => exact ih (List.getElem?_eq_some_iff.mp hget).1
  | skips hn _ ih => exact ih hn

end

section
variable {d mid d' : Delivery} {m : Move} {moves rest : List Move}

theorem run_cons_iff : d.run (m :: rest) = some d' ↔
    ∃ mid, d.step m = some mid ∧ mid.run rest = some d' := by
  simp only [run, List.foldlM_cons, Option.bind_eq_bind, Option.bind_eq_some_iff]

theorem run_append_iff {first : List Move} : d.run (first ++ rest) = some d' ↔
    ∃ mid, d.run first = some mid ∧ mid.run rest = some d' := by
  simp only [run, List.foldlM_append, Option.bind_eq_bind, Option.bind_eq_some_iff]

theorem trace_cons (h : d.step m = some mid) (rest : List Move) :
    d.trace (m :: rest) = ⟨d, m⟩ :: mid.trace rest := by
  rw [trace, h]
  rfl

theorem trace_append {first : List Move} (h : d.run first = some mid) (rest : List Move) :
    d.trace (first ++ rest) = d.trace first ++ mid.trace rest := by
  induction first generalizing d with
  | nil =>
    cases h
    rfl
  | cons m first ih =>
    obtain ⟨next, hstep, hfirst⟩ := run_cons_iff.mp h
    rw [List.cons_append, trace_cons hstep, trace_cons hstep, ih hfirst]
    rfl

/-! ### What a step does -/

/-- What the listener does when it takes from the ring. -/
theorem receive_cases (h : d.step .receive = some d') : d.receives = true ∧ d.offering = none ∧
    ((∃ e, (d.ring.receive d.position).1 = .event e ∧ d.ring.history[d.position]? = some e ∧
        d' = { d with position := d.position + 1, offering := some (e, 0) }) ∨
      ∃ n, (d.ring.receive d.position).1 = .lagged n ∧ 0 < n ∧
        d.position + n + d.ring.size = d.ring.history.length ∧
        d' = { d with position := d.position + n }) := by
  simp only [step] at h
  split at h
  · rename_i hready
    rw [Bool.and_eq_true, Option.isNone_iff_eq_none] at hready
    refine ⟨hready.1, hready.2, ?_⟩
    rcases d.ring.receive_cases d.position with ⟨hgot, -⟩ | ⟨e, hgot, hget⟩ | ⟨n, hgot, hpos, hlength⟩
    · simp [hgot] at h
    · simp only [hgot, Option.some.injEq] at h
      exact Or.inl ⟨e, by rw [hgot], hget, h.symm⟩
    · simp only [hgot, Option.some.injEq] at h
      exact Or.inr ⟨n, by rw [hgot], hpos, hlength, h.symm⟩
  · cases h

/-- Events stay where they are in the history. -/
theorem history_step (h : d.step m = some d') : d.ring.history <+: d'.ring.history := by
  cases rule_of_step h with
  | publishes =>
    rw [publish, Ring.history_publish]
    exact List.prefix_append _ _
  | @serves _ _ _ published =>
    obtain ⟨more, hmore, -⟩ := history_publishAll_map Event.kind (fun _ _ => rfl) d published
    exact ⟨more, hmore.symm⟩
  | _ => exact List.prefix_refl _

theorem history_run (h : d.run moves = some d') : d.ring.history <+: d'.ring.history := by
  induction moves generalizing d with
  | nil =>
    cases h
    exact List.prefix_refl _
  | cons m rest ih =>
    obtain ⟨mid, hstep, hrest⟩ := run_cons_iff.mp h
    exact (history_step hstep).trans (ih hrest)

/-- Nobody joins the audience or leaves it. -/
theorem length_step (h : d.step m = some d') : d'.audience.length = d.audience.length := by
  cases rule_of_step h with
  | serves _ hstep =>
    obtain ⟨s, s', -, -, hset⟩ := Audience.step_iff.mp hstep
    rw [hset]
    exact List.length_set
  | dies => exact List.length_set
  | _ => rfl

/-- The position changes only when the listener takes from the ring. -/
theorem position_step (h : d.step m = some d') (hm : m ≠ .receive) : d'.position = d.position := by
  cases rule_of_step h with
  | receives | lags => exact absurd rfl hm
  | @serves _ _ _ published =>
    show (d.publishAll published).position = d.position
    rw [publishAll_eq]
  | _ => rfl

/-! ### Passing over the history -/

theorem reception?_of_ne (d : Delivery) (hm : m ≠ .receive) : Turn.reception? ⟨d, m⟩ = none := by
  cases m with
  | receive => exact absurd rfl hm
  | _ => rfl

/-- With one step the listener goes over what it gets. -/
theorem passes_step (h : d.step m = some d') {history : List Event} (hearlier : d.ring.history <+: history)
    {later : List Reception} {q : Nat} (hlater : Passes history d'.position later q) :
    Passes history d.position ((Turn.reception? ⟨d, m⟩).toList ++ later) q := by
  by_cases hm : m = .receive
  · subst hm
    obtain ⟨-, -, ⟨e, hgot, hget, rfl⟩ | ⟨n, hgot, -, hlength, rfl⟩⟩ := receive_cases h
    · simp only [Turn.reception?, hgot, Option.toList_some, List.singleton_append]
      obtain ⟨more, rfl⟩ := hearlier
      refine .takes ?_ hlater
      rw [List.getElem?_append_left (List.getElem?_eq_some_iff.mp hget).1]
      exact hget
    · simp only [Turn.reception?, hgot, Option.toList_some, List.singleton_append]
      refine .skips ?_ hlater
      have hle := hearlier.length_le
      omega
  · rw [reception?_of_ne d hm, Option.toList_none, List.nil_append, ← position_step h hm]
    exact hlater

theorem receptions_cons (t : Turn) (turns : List Turn) :
    receptions (t :: turns) = t.reception?.toList ++ receptions turns := by
  rw [receptions, List.filterMap_cons]
  cases t.reception? <;> rfl

/-- In a run the listener goes over the history, from the position that it has at first to the one that it has at
last. -/
theorem passes_run (h : d.run moves = some d') :
    Passes d'.ring.history d.position (receptions (d.trace moves)) d'.position := by
  induction moves generalizing d with
  | nil =>
    cases h
    exact .rests _
  | cons m rest ih =>
    obtain ⟨mid, hstep, hrest⟩ := run_cons_iff.mp h
    rw [trace_cons hstep, receptions_cons]
    exact passes_step hstep (history_run h) (ih hrest)

/-! ### Offering what is taken -/

theorem deeds_cons (t : Turn) (turns : List Turn) :
    deeds (t :: turns) = (t.before.deed? t.move).toList ++ deeds turns := by
  rw [deeds, List.filterMap_cons]
  cases t.before.deed? t.move <;> rfl

theorem offers_append (first later : List (Nat × Subscriber.Deed)) :
    Audience.offers (first ++ later) = Audience.offers first ++ Audience.offers later :=
  List.filterMap_append

theorem emissions_append (n : Nat) (first later : List Event) :
    Audience.emissions n (first ++ later) = Audience.emissions n first ++ Audience.emissions n later :=
  List.flatMap_append

theorem forwarded_cons (t : Turn) (turns : List Turn) :
    forwarded (t :: turns) = (t.reception?.bind Reception.event?).toList ++ forwarded turns := by
  rw [forwarded, receptions_cons, List.filterMap_append]
  rcases t.reception? with _ | r
  · rfl
  · cases r <;> rfl

/-- The offers that are left of an event to be offered to the next subscriber. -/
theorem unoffered_of_lt {e : Event} {i : Nat} (ho : d.offering = some (e, i)) (hi : i < d.audience.length) :
    d.unoffered = (i, e) :: ((List.range d.audience.length).drop (i + 1)).map (·, e) := by
  have hlt : i < (List.range d.audience.length).length := by rwa [List.length_range]
  simp only [unoffered, ho, Option.elim_some, List.drop_eq_getElem_cons hlt, List.getElem_range, List.map_cons]

/-- With one step, what was still to be offered and what is taken is what is offered and what is then still to be
offered. -/
theorem unoffered_step (h : d.step m = some d') :
    d.unoffered ++ Audience.emissions d.audience.length ((Turn.reception? ⟨d, m⟩).bind Reception.event?).toList =
      Audience.offers (d.deed? m).toList ++ d'.unoffered := by
  by_cases hm : m = .receive
  · subst hm
    obtain ⟨-, hnone, ⟨e, hgot, -, rfl⟩ | ⟨n, hgot, -, -, rfl⟩⟩ := receive_cases h
    · simp [unoffered, hnone, Turn.reception?, hgot, Reception.event?, Audience.emissions, deed?, Audience.offers]
    · simp [unoffered, hnone, Turn.reception?, hgot, Reception.event?, Audience.emissions, deed?, Audience.offers]
  rw [reception?_of_ne d hm, Option.bind_none, Option.toList_none]
  simp only [Audience.emissions, List.flatMap_nil, List.append_nil]
  have hlength := length_step h
  cases rule_of_step h with
  | receives | lags => exact absurd rfl hm
  | serves hdeed hstep =>
    cases m with
    | offer =>
      obtain ⟨⟨e, i⟩, ho, hsome⟩ := Option.bind_eq_some_iff.mp hdeed
      split at hsome
      · rename_i hi
        cases hsome
        rw [unoffered_of_lt ho hi, hdeed]
        simp only [unoffered, offeringAfter, ho, Option.map_some, Option.elim_some, hlength]
        rfl
      · cases hsome
    | take i | finish i handling =>
      cases hdeed
      simp only [unoffered, offeringAfter, hlength]
      rfl
    | publish | stop | receive | turn | close | die => cases hdeed
  | @hasOffered e i ho hi =>
    have hdone : (List.range d.audience.length).drop i = [] := by
      rw [List.drop_eq_nil_iff, List.length_range]
      omega
    simp only [unoffered, ho, Option.elim_some, hdone, deed?, Option.bind_some, if_neg hi]
    rfl
  | dies => simp only [unoffered, hlength]; rfl
  | publishes | stops | drains | hasDrained | closes => rfl

/-- In a run, what was still to be offered and what is taken is what is offered and what is then still to be
offered. -/
theorem unoffered_run (h : d.run moves = some d') :
    d.unoffered ++ Audience.emissions d.audience.length (forwarded (d.trace moves)) =
      Audience.offers (deeds (d.trace moves)) ++ d'.unoffered := by
  induction moves generalizing d with
  | nil =>
    cases h
    exact List.append_nil _
  | cons m rest ih =>
    obtain ⟨mid, hstep, hrest⟩ := run_cons_iff.mp h
    rw [trace_cons hstep, forwarded_cons, deeds_cons, emissions_append, offers_append, ← List.append_assoc,
      unoffered_step hstep, List.append_assoc, List.append_assoc, ← length_step hstep, ih hrest]

/-! ### Closing -/

/-- The listener goes on to another stage only when it finds the ring empty or all subscribers idle. -/
theorem listening_step (h : d.step m = some d') (hturn : m ≠ .turn) (hclose : m ≠ .close) :
    d'.listening = d.listening := by
  cases rule_of_step h with
  | drains | hasDrained => exact absurd rfl hturn
  | closes => exact absurd rfl hclose
  | @serves _ _ _ published =>
    show (d.publishAll published).listening = d.listening
    rw [publishAll_eq]
  | _ => rfl

/-- The listener goes on from receiving when it is stopped, and is stopped for good. -/
theorem stopping_of_rule (h : Rule d m d') (hd : d.listening ≠ .receiving → d.stopping = true) :
    (d'.stopping = true → d.stopping = true ∨ m = .stop) ∧
      (d'.listening ≠ .receiving → d'.stopping = true) := by
  cases h with
  | stops => exact ⟨fun _ => .inr rfl, fun _ => rfl⟩
  | publishes | receives | lags | hasOffered | dies => exact ⟨.inl, hd⟩
  | serves => rw [publishAll_eq]; exact ⟨.inl, hd⟩
  | drains _ hstopping => exact ⟨.inl, fun _ => hstopping⟩
  | hasDrained _ hlistening =>
    refine ⟨.inl, fun _ => hd ?_⟩
    rw [hlistening]
    nofun
  | closes hlistening =>
    refine ⟨.inl, fun _ => hd ?_⟩
    rw [hlistening]
    nofun

theorem stopping_run (h : d.run moves = some d') (hd : d.listening ≠ .receiving → d.stopping = true) :
    (d'.stopping = true → d.stopping = true ∨ .stop ∈ moves) ∧
      (d'.listening ≠ .receiving → d'.stopping = true) := by
  induction moves generalizing d with
  | nil =>
    cases h
    exact ⟨.inl, hd⟩
  | cons m rest ih =>
    obtain ⟨mid, hstep, hrest⟩ := run_cons_iff.mp h
    obtain ⟨hfirst, hmid⟩ := stopping_of_rule (rule_of_step hstep) hd
    obtain ⟨hlater, hlast⟩ := ih hrest hmid
    refine ⟨fun hstopping => ?_, hlast⟩
    rcases hlater hstopping with hbefore | hmem
    · rcases hfirst hbefore with hstopped | rfl
      · exact Or.inl hstopped
      · exact Or.inr List.mem_cons_self
    · exact Or.inr (List.mem_cons_of_mem _ hmem)

theorem receives_congr (h : d'.listening = d.listening) : d'.receives = d.receives := by
  rw [receives, receives, h]

/-- The listener closes the queues with the step in which it finds that nothing is left on the ring. -/
theorem drained_of_step (h : d.step m = some d') (hopen : d.receives = true) (hclosed : d'.receives = false) :
    m = .turn ∧ d.listening = .draining ∧ d.offering = none ∧ d.ring.history.length ≤ d.position ∧
      d' = { d with listening := .closing } := by
  have hturn : m = .turn ∨ m = .close := by
    by_contra hother
    obtain ⟨hturn, hclose⟩ := not_or.mp hother
    rw [receives_congr (listening_step h hturn hclose), hopen] at hclosed
    cases hclosed
  rcases hturn with rfl | rfl
  · cases rule_of_step h with
    | drains => cases hclosed
    | hasDrained hoffering hlistening hlength => exact ⟨rfl, hlistening, hoffering, hlength, rfl⟩
    | serves hdeed => cases hdeed
  · cases rule_of_step h with
    | closes hlistening =>
      rw [receives, hlistening] at hopen
      cases hopen
    | serves hdeed => cases hdeed

/-- A listener that has closed the queues has come to the end of the ring before. -/
theorem exists_drained (h : d.run moves = some d') (hopen : d.receives = true) (hclosed : d'.receives = false) :
    ∃ first rest drained, moves = first ++ .turn :: rest ∧ d.run first = some drained ∧
      drained.step .turn = some { drained with listening := .closing } ∧
      { drained with listening := .closing }.run rest = some d' ∧
      drained.listening = .draining ∧ drained.offering = none ∧
      drained.ring.history.length ≤ drained.position := by
  induction moves generalizing d with
  | nil =>
    cases h
    rw [hopen] at hclosed
    cases hclosed
  | cons m rest ih =>
    obtain ⟨mid, hstep, hrest⟩ := run_cons_iff.mp h
    rcases hmid : mid.receives with _ | _
    · obtain ⟨rfl, hlistening, hoffering, hlength, rfl⟩ := drained_of_step hstep hopen hmid
      exact ⟨[], rest, d, rfl, rfl, hstep, hrest, hlistening, hoffering, hlength⟩
    · obtain ⟨first, later, drained, rfl, hfirst, hdrained⟩ := ih hrest hmid
      exact ⟨m :: first, later, drained, rfl, run_cons_iff.mpr ⟨mid, hstep, hfirst⟩, hdrained⟩

/-- After that the listener takes nothing and offers nothing. -/
theorem silent_step (h : d.step m = some d') (hclosed : d.receives = false) (hidle : d.offering = none) :
    m ≠ .receive ∧ d'.receives = false ∧ d'.offering = none := by
  have hm : m ≠ .receive := by
    rintro rfl
    rw [(receive_cases h).1] at hclosed
    cases hclosed
  refine ⟨hm, ?_⟩
  cases rule_of_step h with
  | receives | lags => exact absurd rfl hm
  | @serves _ _ _ published =>
    refine ⟨?_, ?_⟩
    · rw [← hclosed, publishAll_eq]
      rfl
    · cases m with
      | offer => simp only [offeringAfter, hidle, Option.map_none]
      | _ => exact hidle
  | hasOffered => exact ⟨hclosed, rfl⟩
  | drains hlistening =>
    rw [receives, hlistening] at hclosed
    cases hclosed
  | hasDrained _ hlistening =>
    rw [receives, hlistening] at hclosed
    cases hclosed
  | closes => exact ⟨rfl, hidle⟩
  | publishes | stops | dies => exact ⟨hclosed, hidle⟩

theorem silent_run (h : d.run moves = some d') (hclosed : d.receives = false) (hidle : d.offering = none) :
    receptions (d.trace moves) = [] ∧ d'.offering = none := by
  induction moves generalizing d with
  | nil =>
    cases h
    exact ⟨rfl, hidle⟩
  | cons m rest ih =>
    obtain ⟨mid, hstep, hrest⟩ := run_cons_iff.mp h
    obtain ⟨hm, hclosed', hidle'⟩ := silent_step hstep hclosed hidle
    obtain ⟨hnone, hlast⟩ := ih hrest hclosed' hidle'
    refine ⟨?_, hlast⟩
    rw [trace_cons hstep, receptions_cons, reception?_of_ne d hm, hnone]
    rfl

end

/-! ### The statement -/

/-- A delivery whose listener is to take what is published from now on. -/
def subscribed (ring : Ring) (nextSeq : Nat) (audience : Audience) : Delivery where
  ring
  nextSeq
  position := ring.subscribe
  audience

/-- What the listener has made of a history from one position to another. -/
structure Accounts (h : List Event) (p : Nat) (turns : List Turn) (q : Nat) : Prop where
  /-- Every event between the positions was taken once, or counted once as missed, in the order of the history. -/
  passes : Passes h p (receptions turns) q
  order : (forwarded turns).Sublist ((h.take q).drop p)
  count : (forwarded turns).length + missed turns = q - p
  /-- If nothing was missed, all was taken. -/
  complete : missed turns = 0 → forwarded turns = (h.take q).drop p

theorem Passes.accounts {h : List Event} {p q : Nat} {turns : List Turn} (hp : Passes h p (receptions turns) q)
    (hle : p ≤ h.length) : Accounts h p turns q where
  passes := hp
  order := hp.sublist
  count := by
    have hcount := hp.count
    rw [forwarded, missed]
    omega
  complete := by
    intro hnone
    apply hp.sublist.eq_of_length
    have hcount := hp.count
    have hlast := hp.le_length hle
    rw [missed] at hnone
    rw [List.length_drop, List.length_take]
    omega

section
variable {d d' : Delivery} {moves : List Move}

theorem position_le_run (h : d.run moves = some d') (hd : d.position ≤ d.ring.history.length) :
    d'.position ≤ d'.ring.history.length :=
  (passes_run h).le_length (Nat.le_trans hd (history_run h).length_le)

theorem accounts_run (h : d.run moves = some d') (hd : d.position ≤ d.ring.history.length) :
    Accounts d'.ring.history d.position (d.trace moves) d'.position :=
  (passes_run h).accounts (Nat.le_trans hd (history_run h).length_le)

/-- Nothing is to be had at the end of the ring. -/
theorem receive_of_length_le (h : d.ring.history.length ≤ d.position) :
    d.ring.receive d.position = (.empty, d.position) := by
  rcases d.ring.receive_cases d.position with ⟨hempty, -⟩ | ⟨e, -, hget⟩ | ⟨n, -, hpos, hlength⟩
  · exact hempty
  · have hlt := (List.getElem?_eq_some_iff.mp hget).1
    omega
  · omega

/-- The number of events that the listener is told to have missed is just how far the oldest event held is away. -/
theorem Turn.lagged_eq {t : Turn} {n : Nat} (h : t.reception? = some (.lagged n)) :
    0 < n ∧ t.before.position + n + t.before.ring.size = t.before.ring.history.length := by
  unfold Turn.reception? at h
  split at h
  · rcases t.before.ring.receive_cases t.before.position with
      ⟨hgot, -⟩ | ⟨e, hgot, -⟩ | ⟨k, hgot, hpos, hlength⟩
    · rw [hgot] at h
      cases h
    · rw [hgot] at h
      cases h
    · rw [hgot] at h
      cases h
      exact ⟨hpos, hlength⟩
  · cases h

/-- Offers are made as long as something is being offered, so all is offered when nothing is. -/
theorem offers_run (h : d.run moves = some d') (hd : d.offering = none) :
    Audience.offers (deeds (d.trace moves)) ++ d'.unoffered =
      Audience.emissions d.audience.length (forwarded (d.trace moves)) := by
  rw [← unoffered_run h, unoffered, hd]
  rfl

theorem unoffered_of_none (hd : d.offering = none) : d.unoffered = [] := by
  rw [unoffered, hd]
  rfl

end

/-- Whatever others publish meanwhile, the listener accounts for all events from the one at which it began: each is
taken once, or counted once as missed, in order. What it is told to have missed is just what has fallen out of the
ring. Each event it takes is offered to all subscribers before the next. When it has closed the queues, it was told
to stop, and has come to the end of the ring; all that was published until then, before it was told to stop or
after, by others or because of its own offers, is accounted for, from any earlier moment on, and has been offered;
and it takes and offers nothing after that. -/
theorem listener_accounts_for_all (ring : Ring) (nextSeq : Nat) (audience : Audience) {moves : List Move}
    {d : Delivery} (hrun : (subscribed ring nextSeq audience).run moves = some d) :
    let start := subscribed ring nextSeq audience
    Accounts d.ring.history ring.history.length (start.trace moves) d.position ∧
    Audience.offers (deeds (start.trace moves)) ++ d.unoffered =
      Audience.emissions audience.length (forwarded (start.trace moves)) ∧
    (∀ t ∈ start.trace moves, ∀ n, t.reception? = some (.lagged n) →
      0 < n ∧ t.before.position + n + t.before.ring.size = t.before.ring.history.length) ∧
    (d.listening = .closing ∨ d.listening = .done → ∃ first rest drained, moves = first ++ .turn :: rest ∧
      start.run first = some drained ∧ .stop ∈ first ∧ drained.listening = .draining ∧
      drained.ring.receive drained.position = (.empty, drained.position) ∧
      Accounts drained.ring.history ring.history.length (start.trace first) drained.ring.history.length ∧
      Audience.offers (deeds (start.trace first)) =
        Audience.emissions audience.length (forwarded (start.trace first)) ∧
      (∀ earlier later mid, first = earlier ++ later → start.run earlier = some mid →
        mid.ring.history <+: drained.ring.history ∧
        Accounts drained.ring.history mid.position (mid.trace later) drained.ring.history.length) ∧
      receptions (start.trace moves) = receptions (start.trace first) ∧
      Audience.offers (deeds (start.trace moves)) = Audience.offers (deeds (start.trace first))) := by
  intro start
  have hposition : start.position = ring.history.length := ring.sent_eq_length
  have hle : start.position ≤ start.ring.history.length := Nat.le_of_eq hposition
  refine ⟨hposition ▸ accounts_run hrun hle, offers_run hrun rfl, fun t _ n hn => t.lagged_eq hn, ?_⟩
  intro hover
  have hclosed : d.receives = false := by
    rcases hover with hclosing | hdone
    · rw [receives, hclosing]
    · rw [receives, hdone]
  obtain ⟨first, rest, drained, rfl, hfirst, hturn, hrest, hdraining, hidle, hlength⟩ :=
    exists_drained hrun rfl hclosed
  obtain ⟨hnone, hlast⟩ := silent_run hrest rfl hidle
  have hend : drained.position = drained.ring.history.length :=
    Nat.le_antisymm (position_le_run hfirst hle) hlength
  have hstopped : drained.stopping = true :=
    (stopping_run hfirst fun h => absurd rfl h).2 (by rw [hdraining]; nofun)
  -- after the drain there are no receptions, and so no offers either
  have hreceptions : receptions (start.trace (first ++ .turn :: rest)) = receptions (start.trace first) := by
    rw [trace_append hfirst, trace_cons hturn, receptions, List.filterMap_append]
    exact (congrArg _ hnone).trans (List.append_nil _)
  have hoffers : Audience.offers (deeds (start.trace first)) =
      Audience.emissions audience.length (forwarded (start.trace first)) := by
    have hall := offers_run hfirst rfl
    rwa [unoffered_of_none hidle, List.append_nil] at hall
  refine ⟨first, rest, drained, rfl, hfirst, ?_, hdraining, receive_of_length_le hlength, ?_, hoffers, ?_,
    hreceptions, ?_⟩
  · exact ((stopping_run hfirst fun h => absurd rfl h).1 hstopped).resolve_left Bool.false_ne_true
  · rw [← hposition, ← hend]
    exact accounts_run hfirst hle
  · rintro earlier later mid rfl hmid
    obtain ⟨mid', hmid', hlater⟩ := run_append_iff.mp hfirst
    rw [hmid] at hmid'
    cases hmid'
    rw [← hend]
    exact ⟨history_run hlater, accounts_run hlater (position_le_run hmid hle)⟩
  · have hall := offers_run hrun rfl
    rw [unoffered_of_none hlast, List.append_nil, forwarded, hreceptions] at hall
    exact hall.trans hoffers.symm

/-- On a ring of two the listener misses one of three events. A subscriber with room for one event misses the second
that is taken, and a third that is published after the stop; both reports of this are taken too. -/
theorem listener_accounts_for_all_late_overflow :
    let start :=
      subscribed (({ size := 2 } : Ring).publish { kind := .readStarting }) 1 (Audience.seated [("slow", 1)])
    let forward := [Move.receive, .offer, .offer]
    let moves := [Move.publish { kind := .feedStarting }, .publish { kind := .creatorStarting },
      .publish { kind := .feedCompleted }, .receive] ++ forward ++ forward ++ forward ++ [.stop, .turn] ++
      [.publish { kind := .readCompleted }] ++ forward ++ forward ++ [.turn]
    ∃ d, start.run moves = some d ∧ d.listening = .closing ∧ missed (start.trace moves) = 1 ∧
      (forwarded (start.trace moves)).map Event.kind =
        [.creatorStarting, .feedCompleted, .subscriberOverflow, .readCompleted, .subscriberOverflow] ∧
      ∃ first rest drained, moves = first ++ .turn :: rest ∧ start.run first = some drained ∧
        (forwarded (start.trace first)).length + missed (start.trace first) =
          drained.ring.history.length - 1 := by
  intro start forward moves
  have hlistening : (start.run moves).map (·.listening) = some .closing := by decide +kernel
  obtain ⟨d, hrun, hclosing⟩ := Option.map_eq_some_iff.mp hlistening
  refine ⟨d, hrun, hclosing, by decide +kernel, by decide +kernel, ?_⟩
  obtain ⟨first, rest, drained, hmoves, hfirst, -, -, -, haccounts, -⟩ :=
    (listener_accounts_for_all _ _ _ hrun).2.2.2 (.inl hclosing)
  exact ⟨first, rest, drained, hmoves, hfirst, haccounts.count⟩

end Delivery

end Intake
