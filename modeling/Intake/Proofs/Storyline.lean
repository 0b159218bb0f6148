import Intake.Proofs.Closing
import Intake.Proofs.Isolation
/-!
# The messages of one stream

Any feed that hands out writes the states of all streams that are pending, its own and those of others,
while the traces of a stream come from its own feed or, if that crashed, from the supervisor. All the same
the messages of a stream are in order: it is said to start, then come its states, and then it is said how it
ended.

The reason is in the phases of its feed (`Timely`). Something is pending for the stream only while its feed
is in the middle of a round and has not handed out itself. A state of it that somebody has in hand is
written before the feed gets the lock, and so before the round is over. `Timely.step` says that every step
keeps this, and `Narrated` what it comes to for the messages of a whole run. The main statement is
`stream_messages_in_order`.

Nothing may be pending for the stream when the read begins (`Handed`). If a factory resets the stream and its
creator fails, the reset is left pending when the read is over, and in the next read another feed hands it out
before the stream is said to start, though nobody resets anything in that read
(`state_before_start_in_next_read`).
-/

namespace Intake

/-- A state of one stream by itself. -/
def StateMessage.IsOf (id : StreamId) : StateMessage → Prop
  | .stream other _ _ => other = id
  | .global .. => False

instance StateMessage.decidableIsOf (id : StreamId) : DecidablePred (StateMessage.IsOf id)
  | .stream other _ _ => inferInstanceAs (Decidable (other = id))
  | .global .. => inferInstanceAs (Decidable False)

/-- The states of one stream by itself. -/
def StateMessage.only (id : StreamId) (ms : List StateMessage) : List StateMessage :=
  ms.filter fun m => m.IsOf id

open StateMessage (only)

section
variable {id : StreamId} {m : StateMessage}

theorem StateMessage.only_append (first later : List StateMessage) :
    only id (first ++ later) = only id first ++ only id later :=
  List.filter_append ..

theorem StateMessage.only_cons_pos (hof : m.IsOf id) (rest : List StateMessage) :
    only id (m :: rest) = m :: only id rest :=
  List.filter_cons_of_pos (decide_eq_true hof)

theorem StateMessage.only_cons_neg (hof : ¬ m.IsOf id) (rest : List StateMessage) :
    only id (m :: rest) = only id rest :=
  List.filter_cons_of_neg (by simpa using hof)

end

/-- A message that gives a state of one stream by itself. -/
def Message.IsStateOf (id : StreamId) : Message → Prop
  | .state m => m.IsOf id
  | _ => False

namespace Ledger

/-- Something is pending in a slot. -/
def Pending (l : Ledger) (key : SlotKey) : Prop :=
  ∃ slot, l.slots.find? key = some slot ∧ slot.pending = true

/-- Nothing is pending any more in a slot that was visited. -/
theorem Pending.of_visit {l : Ledger} {d : Draft} {v : Visit} {key : SlotKey}
    (h : (l.visit d v).1.Pending key) : v.key? ≠ some key ∧ l.Pending key := by
  obtain ⟨slot', hslot', hp⟩ := h
  rw [find?_visit] at hslot'
  split at hslot'
  · obtain ⟨slot, -, rfl⟩ := Option.map_eq_some_iff.mp hslot'
    rw [Slot.pending_swap] at hp
    cases hp
  · rename_i hne
    exact ⟨hne, slot', hslot', hp⟩

/-- Reading a slot finishes no message. -/
theorem Draft.messages_addCurrent (d : Draft) (state : Option Value) (key : SlotKey) :
    (d.addCurrent state key).messages = d.messages := by
  cases key <;> rfl

/-- The message of the global feed is no state of a stream by itself. -/
theorem Draft.only_wrap (id : StreamId) (d : Draft) : only id d.wrap.messages = only id d.messages := by
  have hof : ¬ StateMessage.IsOf id (.global (.ofOption d.shared) d.states d.records) := nofun
  simp only [wrap]
  split
  · rw [StateMessage.only_append, StateMessage.only_cons_neg hof]
    exact List.append_nil _
  · rfl

/-- What the slot of another handed out makes no state of the stream. -/
theorem Draft.only_add {v : Visit} {id : StreamId} (d : Draft) (r : Slot.Report) (h : v ≠ .alone id) :
    only id (d.add v r).messages = only id d.messages := by
  cases v with
  | shared | member _ | wrap | look _ => rfl
  | alone other =>
    have hof : ¬ StateMessage.IsOf id (.stream other (.ofOption r.state) r.records) := by
      rintro rfl
      exact h rfl
    simp only [add, addAlone, StateMessage.only_append, StateMessage.only_cons_neg hof]
    exact List.append_nil _

/-- A visit adds a state of a stream by itself only when something was pending for it. -/
theorem only_visit_of_idle {l : Ledger} {id : StreamId} {v : Visit} (d : Draft)
    (h : v = .alone id → ¬ l.Pending (.stream id)) :
    only id (l.visit d v).2.messages = only id d.messages := by
  rcases hv : v.key? with _ | key
  · cases v with
    | shared | member _ | alone _ => cases hv
    | look key => exact congrArg (only id) (Draft.messages_addCurrent d _ key)
    | wrap => exact d.only_wrap id
  · rcases hs : l.slots.find? key with _ | slot
    · rw [(Desk.visit_of_none hv hs d).1]
    · rw [(Desk.visit_of_some hv hs d).1]
      rcases hr : slot.swap.2 with _ | report
      · rfl
      · have hp : slot.pending = true := by rw [← Slot.isSome_swap, hr]; rfl
        refine d.only_add report ?_
        rintro rfl
        cases hv
        exact h rfl ⟨slot, hs, hp⟩

/-- A state of a stream by itself is gathered only when something was pending for it. -/
theorem mem_messages_visit {l : Ledger} {d : Draft} {v : Visit} {id : StreamId} {m : StateMessage}
    (hm : m ∈ (l.visit d v).2.messages) (hof : m.IsOf id) :
    m ∈ d.messages ∨ l.Pending (.stream id) := by
  rw [or_iff_not_imp_right]
  intro hidle
  have honly : m ∈ only id (l.visit d v).2.messages := List.mem_filter.mpr ⟨hm, decide_eq_true hof⟩
  rw [only_visit_of_idle d fun _ => hidle] at honly
  exact List.mem_of_mem_filter honly

end Ledger

namespace Read

/-! ### Lines -/

/-- The message about a stream that an effect writes: a trace of it, or a state of it by itself. -/
def Effect.line? (id : StreamId) : Effect → Option Message
  | .write (.trace t) => if t.stream = id then some (.trace t) else none
  | .write (.state (.stream other state records)) =>
    if other = id then some (.state (.stream other state records)) else none
  | _ => none

/-- The messages about a stream among effects, in order. -/
def lines (id : StreamId) (effects : List Effect) : List Message := effects.filterMap (Effect.line? id)

theorem lines_append (id : StreamId) (first later : List Effect) :
    lines id (first ++ later) = lines id first ++ lines id later :=
  List.filterMap_append

/-- Without states the messages about a stream are its traces. -/
theorem lines_of_states_eq_nil (id : StreamId) {effects : List Effect} (h : states effects = []) :
    lines id effects = (Board.verdicts id (traces effects)).map fun v => .trace ⟨id, v⟩ := by
  induction effects with
  | nil => rfl
  | cons e rest ih =>
    have hrest : states rest = [] :=
      List.filterMap_eq_nil_iff.mpr fun x hx =>
        List.filterMap_eq_nil_iff.mp h x (List.mem_cons_of_mem _ hx)
    have hlines : lines id (e :: rest) = lines id [e] ++ lines id rest := lines_append id [e] rest
    have htraces : traces (e :: rest) = traces [e] ++ traces rest := traces_append [e] rest
    rw [hlines, htraces, Board.verdicts_append, List.map_append, ih hrest, List.append_left_inj]
    rcases e with _ | (_ | m | t) | _ | _
    · rfl
    · rfl
    · cases h
    · by_cases hid : t.stream = id
      · subst hid
        simp [lines, Effect.line?, traces, Effect.trace?, Board.verdicts]
      · simp [lines, Effect.line?, traces, Effect.trace?, Board.verdicts, hid]
    · rfl
    · rfl

/-- Messages about a stream, as they come with the verdicts on it: the first verdict before all states, and
the other verdicts after them. -/
def Recounts (id : StreamId) : List Verdict → List Message → Prop
  | [], ls => ls = []
  | first :: rest, ls => ∃ states, (∀ m ∈ states, m.IsStateOf id) ∧
      ls = .trace ⟨id, first⟩ :: (states ++ rest.map fun v => .trace ⟨id, v⟩)

section
variable {id : StreamId} {vs : List Verdict} {ls : List Message}

/-- More verdicts are recounted by more trace lines. -/
theorem Recounts.append (h : Recounts id vs ls) (more : List Verdict) :
    Recounts id (vs ++ more) (ls ++ more.map fun v => .trace ⟨id, v⟩) := by
  rcases vs with _ | ⟨first, rest⟩
  · rw [show ls = [] from h]
    rcases more with _ | ⟨first, rest⟩
    · rfl
    · exact ⟨[], fun m hm => absurd hm List.not_mem_nil, rfl⟩
  · obtain ⟨states, hstates, rfl⟩ := h
    rw [List.cons_append]
    refine ⟨states, hstates, ?_⟩
    rw [List.map_append, List.cons_append, List.append_assoc]

/-- A state is in its place between the first verdict and the next. -/
theorem Recounts.snoc {first : Verdict} (h : Recounts id [first] ls) {m : Message} (hm : m.IsStateOf id) :
    Recounts id [first] (ls ++ [m]) := by
  obtain ⟨states, hstates, rfl⟩ := h
  refine ⟨states ++ [m], fun x hx => ?_, by simp⟩
  rcases List.mem_append.mp hx with hold | hnew
  · exact hstates x hold
  · rw [List.mem_singleton.mp hnew]
    exact hm

end

namespace FeedTask

/-! ### The phases of a feed -/

/-- The feed is in the middle of a round and has not handed out what it has for its stream. -/
def Phase.Owes (id : StreamId) : Phase → Prop
  | .reading _ => True
  | .locking _ => True
  | .visiting left _ _ => ∃ v ∈ left, v.key? = some (.stream id)
  | _ => False

/-- The partitions of a round have begun, and what they did is not all written. -/
def Phase.inRound : Phase → Bool
  | .reading _ => true
  | .locking _ => true
  | .visiting .. => true
  | .writing .. => true
  | _ => false

/-- The states that a feed has in hand. -/
def Phase.messages : Phase → List StateMessage
  | .visiting _ draft _ => draft.messages
  | .writing left _ _ => left
  | _ => []

/-- The feed has said in this round that a stream starts, if it is a round in which it does. -/
def Phase.PastStart (id : StreamId) : Phase → Prop
  | .starting left => id ∉ left
  | .opening => True
  | .creating => True
  | .releasing _ => True
  | .notifying _ => True
  | .created _ => True
  | p => p.inRound = true

/-- The feed has said that a stream starts. -/
def HasBegun (id : StreamId) (t : FeedTask) : Prop := t.round ≠ 1 ∨ t.phase.PastStart id

theorem Phase.Owes.inRound {id : StreamId} {p : Phase} (h : p.Owes id) : p.inRound = true := by
  cases p with
  | reading | locking | visiting => rfl
  | _ => cases h

theorem Phase.pastStart_of_inRound {p : Phase} (id : StreamId) (h : p.inRound = true) :
    p.PastStart id := by
  cases p with
  | reading | locking | visiting | writing => rfl
  | _ => cases h

/-- A message is held only by a task that has a job at the desk. -/
theorem Phase.job?_of_messages {p : Phase} {m : StateMessage} (h : m ∈ p.messages) :
    p.job?.isSome = true := by
  cases p with
  | visiting | writing => rfl
  | _ => cases h

theorem Phase.saying?_of_inRound {p : Phase} (h : p.inRound = true) : p.saying? = none := by
  cases p with
  | reading | locking | visiting | writing => rfl
  | _ => cases h

section
variable {v : View} {t : FeedTask} {s : Shared} {a : Act} {next : Next} {id : StreamId}

/-- A step writes no state, or one that the feed had in hand. -/
theorem Rule.states_cases (h : Rule v t s a next) :
    states next.effects = [] ∨ ∃ m ∈ t.phase.messages, next.effects = [.write (.state m)] := by
  cases h with
  | @writes message rest count next hp =>
    refine Or.inr ⟨message, ?_, rfl⟩
    rw [hp]
    exact List.mem_cons_self
  | @saysStarting id rest hp => exact Or.inl (states_tell t s .starting id)
  | @saysComplete id rest hp => exact Or.inl (states_tell t s .complete id)
  | @saysStopped n e id rest hp => exact Or.inl (states_tell t s n id)
  | @unlocks count next hp =>
    left
    show states (if count = 0 then [] else _) = []
    split <;> rfl
  | _ => exact Or.inl rfl

/-- A feed that has something pending for its stream owes it, in whatever phase it comes to. -/
theorem Rule.owes (h : Rule v t s a next)
    (hplan : ∃ visit ∈ s.ledger.plan, visit.key? = some (.stream id))
    (ho : s.ledger.Pending (.stream id) → t.phase.Owes id)
    (hp' : next.shared.ledger.Pending (.stream id)) : next.task.phase.Owes id := by
  cases h with
  | findsNothing | starts | applies | closes | joins => trivial
  | locks => exact hplan
  | visits hp =>
    obtain ⟨hne, hbefore⟩ := Ledger.Pending.of_visit hp'
    have howes := ho hbefore
    rw [hp] at howes
    obtain ⟨visit, hmem, hkey⟩ := howes
    rcases List.mem_cons.mp hmem with rfl | hrest
    · exact absurd hkey hne
    · exact ⟨visit, List.mem_append_right _ hrest, hkey⟩
  | @hasVisited draft next hp =>
    have howes := ho hp'
    rw [hp] at howes
    obtain ⟨visit, hmem, -⟩ := howes
    cases hmem
  | @unlocks count next hp =>
    have hsame : (t.afterRound { s with locked := false } next).shared.ledger = s.ledger := by
      cases next <;> rfl
    have howes := ho (hsame ▸ hp')
    rw [hp] at howes
    cases howes
  | _ hp =>
    have howes := ho hp'
    rw [hp] at howes
    cases howes

/-- A state of a stream that a feed has in hand it had before, or it has just found it pending. -/
theorem Rule.messages (h : Rule v t s a next) {m : StateMessage} (hm : m ∈ next.task.phase.messages)
    (hof : m.IsOf id) : m ∈ t.phase.messages ∨ s.ledger.Pending (.stream id) := by
  cases h with
  | visits hp =>
    rw [hp]
    exact Ledger.mem_messages_visit hm hof
  | hasVisited hp =>
    rw [hp]
    exact Or.inl hm
  | writes hp =>
    rw [hp]
    exact Or.inl (List.mem_cons_of_mem _ hm)
  | @unlocks count next hp => cases next <;> cases hm
  | _ => cases hm

/-- A round is over when all states are written. -/
theorem Rule.inRound (h : Rule v t s a next) (hr : t.phase.inRound = true) :
    next.task.phase.inRound = true ∨ ∃ count e, t.phase = .writing [] count e := by
  cases h with
  | applies | closes | joins | locks | visits | hasVisited | writes => exact Or.inl rfl
  | unlocks hp => exact Or.inr ⟨_, _, hp⟩
  | _ hp =>
    rw [hp] at hr
    cases hr

/-- A feed that has said that its stream starts had done so before, or does it with this step. -/
theorem Rule.hasBegun (h : Rule v t s a next) (hid : id ∈ t.feed.ids) (hb : next.task.HasBegun id) :
    t.HasBegun id ∨ ∃ n, t.touch? a = some ⟨t.feed.key, n, id⟩ := by
  -- in a later round nothing is to be said
  by_cases hround : t.round = 1
  case neg => exact Or.inl (Or.inl hround)
  cases h with
  | acquires hp =>
    rcases hb with hlater | hpast
    · exact absurd hround hlater
    · change id ∉ (if t.round = 1 then t.feed.ids else []) at hpast
      rw [if_pos hround] at hpast
      exact absurd hid hpast
  | @saysStarting other rest hp =>
    rcases hb with hlater | hpast
    · exact absurd hround hlater
    · by_cases hsame : id = other
      · right
        refine ⟨.starting, ?_⟩
        simp only [touch?, hp, Phase.notice?, Option.map_some, hsame]
      · left
        right
        rw [hp]
        exact fun hmem => (List.mem_cons.mp hmem).elim hsame hpast
  | hasStarted hp =>
    left
    right
    rw [hp]
    exact List.not_mem_nil
  | opens hp | creates hp | createFails hp | quits hp | releases hp | notifies hp | findsNothing hp
  | starts hp | applies hp | closes hp | joins hp | locks hp | visits hp | hasVisited hp | writes hp
  | unlocks hp | createCrashes hp | notifiesFailure hp =>
    left
    right
    rw [hp]
    trivial
  | _ hp =>
    rcases hb with hlater | hpast
    · exact absurd hround hlater
    · cases hpast

end

end FeedTask

namespace System

/-! ### What the phases of a feed say of its stream -/

/-- What is pending for the stream of a feed, and the states of it that anybody has in hand, belong to a
round of that feed; and when the feed is in a round, its stream has been said to start. -/
structure Timely (i : Nat) (id : StreamId) (h : List Board.Touch) (s : System) : Prop where
  owed : ∀ t, s.feeds[i]? = some t → s.shared.ledger.Pending (.stream id) → t.phase.Owes id
  held : ∀ (k : Nat) (u t : FeedTask), s.feeds[k]? = some u → s.feeds[i]? = some t →
    ∀ m ∈ u.phase.messages, m.IsOf id → t.phase.inRound = true
  begun : ∀ t, s.feeds[i]? = some t → t.HasBegun id → Board.Touched id h

/-- Nothing is owed for a stream before the read begins, if its slot is not pending. -/
theorem timely_start (settings : Settings) (factories : Nat) {l : Ledger} (i : Nat) {id : StreamId}
    (hidle : ¬ l.Pending (.stream id)) : Timely i id [] (start settings factories l) := by
  have hasleep : ∀ (k : Nat) (t : FeedTask), (start settings factories l).feeds[k]? = some t →
      t.phase = .asleep ∧ t.round = 1 := by
    intro k t ht
    simp only [start, List.getElem?_map] at ht
    obtain ⟨feed, -, rfl⟩ := Option.map_eq_some_iff.mp ht
    exact ⟨rfl, rfl⟩
  refine ⟨fun t _ hp => absurd hp hidle, fun k u t hu _ m hm => ?_, fun t ht hb => ?_⟩
  · rw [(hasleep k u hu).1] at hm
    cases hm
  · rcases hb with hlater | hpast
    · exact absurd (hasleep i t ht).2 hlater
    · rw [(hasleep i t ht).1] at hpast
      cases hpast

section
variable {feeds : List Feed} {i : Nat} {stream : Stream} {s s' : System} {move : Move}
  {effects : List Effect} {past : List Board.Touch}

/-- What is pending for a stream after a step of anybody but its feed was pending before. -/
theorem pending_of_other (h : s.step move = some (s', effects)) (ha : Attended feeds s)
    (hi : feeds[i]? = some (.stream stream)) (hne : ∀ a, move ≠ .feed i a)
    (hreset : move ≠ .reset (.stream stream.id))
    (hp : s'.shared.ledger.Pending (.stream stream.id)) :
    s.shared.ledger.Pending (.stream stream.id) := by
  obtain ⟨slot', hslot', hpending⟩ := hp
  rw [step_ledger h] at hslot'
  rcases hop : s.op? move with _ | op
  · rw [hop] at hslot'
    exact ⟨slot', hslot', hpending⟩
  · rw [hop, Option.elim_some, Ledger.find?_apply] at hslot'
    split at hslot'
    · rename_i hkey
      obtain rfl := op?_of_other ha.orderly ha.keys hi hne hreset hop hkey
      obtain ⟨slot, -, rfl⟩ := Option.map_eq_some_iff.mp hslot'
      rw [Ledger.Op.onSlot, Slot.pending_swap] at hpending
      cases hpending
    · exact ⟨slot', hslot', hpending⟩

/-- No two feeds are handing out. -/
theorem Mirrors.eq_of_job {d : Desk} {holder : Option Nat} (hm : Mirrors s d holder) {k : Nat}
    {t u : FeedTask} (ht : s.feeds[i]? = some t) (hu : s.feeds[k]? = some u)
    (htjob : t.phase.job?.isSome = true) (hujob : u.phase.job?.isSome = true) : k = i := by
  have hholds : ∀ (j : Nat) (x : FeedTask), s.feeds[j]? = some x → x.phase.job?.isSome = true →
      holder = some j := by
    intro j x hx hjob
    by_contra hno
    rw [hm.job j x hx, if_neg hno] at hjob
    cases hjob
  have hsame := (hholds k u hu hujob).symm.trans (hholds i t ht htjob)
  exact Option.some.inj hsame

/-- A step of a read keeps what is owed for a stream in time. -/
theorem Timely.owed_step (hs : Timely i stream.id past s) (ha : Attended feeds s)
    (hi : feeds[i]? = some (.stream stream)) (hlisted : stream ∈ s.shared.ledger.streams)
    (hreset : move = .reset (.stream stream.id) →
      ∀ t, s.feeds[i]? = some t → ∃ r, t.phase = .reading r)
    (h : s.step move = some (s', effects)) {t' : FeedTask}
    (ht' : s'.feeds[i]? = some t') (hp : s'.shared.ledger.Pending (.stream stream.id)) :
    t'.phase.Owes stream.id := by
  by_cases hown : ∃ a, move = .feed i a
  · obtain ⟨a, rfl⟩ := hown
    obtain ⟨t, next, ht, hr, rfl, -⟩ := step_feed h
    rw [List.getElem?_set_self (List.getElem?_eq_some_iff.mp ht).1] at ht'
    cases ht'
    exact hr.owes (Ledger.exists_visit_of_mem hlisted) (hs.owed t ht) hp
  · have hne : ∀ a, move ≠ .feed i a := fun a hm => hown ⟨a, hm⟩
    obtain ⟨t, ht⟩ := exists_before h ht'
    rw [(phase_of_other h hne ht ht').1]
    by_cases hm : move = .reset (.stream stream.id)
    · obtain ⟨r, hr⟩ := hreset hm t ht
      rw [hr]
      trivial
    · exact hs.owed t ht (pending_of_other h ha hi hne hm hp)

/-- Before a step after which somebody has a state of the stream in hand, its feed is in a round. -/
theorem Timely.inRound_of_messages (hs : Timely i stream.id past s)
    (h : s.step move = some (s', effects)) {k : Nat} {u' t : FeedTask} (hu' : s'.feeds[k]? = some u')
    (ht : s.feeds[i]? = some t) {m : StateMessage} (hm : m ∈ u'.phase.messages) (hof : m.IsOf stream.id) :
    t.phase.inRound = true := by
  by_cases hmover : ∃ a, move = .feed k a
  · obtain ⟨a, rfl⟩ := hmover
    obtain ⟨u, next, hu, hr, rfl, -⟩ := step_feed h
    rw [List.getElem?_set_self (List.getElem?_eq_some_iff.mp hu).1] at hu'
    cases hu'
    rcases hr.messages hm hof with hold | hpending
    · exact hs.held k u t hu ht m hold hof
    · exact (hs.owed t ht hpending).inRound
  · obtain ⟨u, hu⟩ := exists_before h hu'
    rw [(phase_of_other h (fun a hc => hmover ⟨a, hc⟩) hu hu').1] at hm
    exact hs.held k u t hu ht m hm hof

/-- A step of a read keeps the messages that are held for a stream in time. -/
theorem Timely.held_step (hs : Timely i stream.id past s) {d : Desk} {holder : Option Nat}
    (hmirrors : Mirrors s d holder) (h : s.step move = some (s', effects)) {k : Nat} {u' t' : FeedTask}
    (hu' : s'.feeds[k]? = some u') (ht' : s'.feeds[i]? = some t') {m : StateMessage}
    (hm : m ∈ u'.phase.messages) (hof : m.IsOf stream.id) : t'.phase.inRound = true := by
  obtain ⟨t, ht⟩ := exists_before h ht'
  have hround := hs.inRound_of_messages h hu' ht hm hof
  by_cases hown : ∃ a, move = .feed i a
  · obtain ⟨a, rfl⟩ := hown
    obtain ⟨t, next, ht₁, hr, rfl, -⟩ := step_feed h
    rw [ht] at ht₁; cases ht₁
    have hlt := (List.getElem?_eq_some_iff.mp ht).1
    rw [List.getElem?_set_self hlt] at ht'
    cases ht'
    rcases hr.inRound hround with hstill | ⟨count, e, hp⟩
    · exact hstill
    · -- the feed gives back the lock, so nobody has anything in hand
      have hki : k = i := by
        by_contra hk
        rw [List.getElem?_set_ne (Ne.symm hk)] at hu'
        exact hk (hmirrors.eq_of_job ht hu' (by rw [hp]; rfl) (FeedTask.Phase.job?_of_messages hm))
      subst hki
      rw [List.getElem?_set_self hlt] at hu'
      cases hu'
      rcases hr.messages hm hof with hold | hpending
      · rw [hp] at hold
        cases hold
      · have howes := hs.owed t ht hpending
        rw [hp] at howes
        cases howes
  · rw [(phase_of_other h (fun a hc => hown ⟨a, hc⟩) ht ht').1]
    exact hround

/-- A feed that has begun has touched its stream. -/
theorem Timely.begun_step (hs : Timely i stream.id past s) (ha : Attended feeds s)
    (hi : feeds[i]? = some (.stream stream)) (h : s.step move = some (s', effects)) {t' : FeedTask}
    (ht' : s'.feeds[i]? = some t') (hb : t'.HasBegun stream.id) :
    Board.Touched stream.id (past ++ (s.touch? move).toList) := by
  have hold : Board.Touched stream.id past → Board.Touched stream.id (past ++ (s.touch? move).toList) := by
    rintro ⟨x, hx, hid⟩
    exact ⟨x, List.mem_append_left _ hx, hid⟩
  by_cases hown : ∃ a, move = .feed i a
  · obtain ⟨a, rfl⟩ := hown
    obtain ⟨t, next, ht, hr, rfl, -⟩ := step_feed h
    rw [List.getElem?_set_self (List.getElem?_eq_some_iff.mp ht).1] at ht'
    cases ht'
    have hid : stream.id ∈ t.feed.ids := by
      have hfeed := ha.orderly.feed_eq i t ht
      rw [hi, Option.some.injEq] at hfeed
      rw [← hfeed]
      exact List.mem_cons_self
    rcases hr.hasBegun hid hb with hbefore | ⟨n, htouch⟩
    · exact hold (hs.begun t ht hbefore)
    · refine ⟨⟨t.feed.key, n, stream.id⟩, List.mem_append_right _ ?_, rfl⟩
      rw [touch?, ht, Option.bind_some, htouch]
      exact List.mem_cons_self
  · obtain ⟨t, ht⟩ := exists_before h ht'
    obtain ⟨hphase, hround⟩ := phase_of_other h (fun a hc => hown ⟨a, hc⟩) ht ht'
    unfold FeedTask.HasBegun at hb
    rw [hphase, hround] at hb
    exact hold (hs.begun t ht hb)

/-- Every step keeps it, whoever makes it, unless it resets the stream when its feed is not reading. -/
theorem Timely.step (hs : Timely i stream.id past s) (ha : Attended feeds s)
    (hi : feeds[i]? = some (.stream stream)) (hlisted : stream ∈ s.shared.ledger.streams) {d : Desk}
    {holder : Option Nat} (hmirrors : Mirrors s d holder)
    (hreset : move = .reset (.stream stream.id) →
      ∀ t, s.feeds[i]? = some t → ∃ r, t.phase = .reading r)
    (h : s.step move = some (s', effects)) :
    Timely i stream.id (past ++ (s.touch? move).toList) s' where
  owed := fun _ ht' hp => hs.owed_step ha hi hlisted hreset h ht' hp
  held := fun _ _ _ hu' ht' _ hm hof => hs.held_step hmirrors h hu' ht' hm hof
  begun := fun _ ht' hb => hs.begun_step ha hi h ht' hb

end

/-! ### The messages of a stream along a run -/

/-- A step keeps what the board knows. -/
theorem follows_step {feeds : List Feed} {s s' : System} {move : Move} {effects : List Effect}
    {past : List Board.Touch} {before : List Trace} (hf : Board.Follows feeds past s.shared.board before)
    (h : s.step move = some (s', effects)) :
    Board.Follows feeds (past ++ (s.touch? move).toList) s'.shared.board (before ++ traces effects) := by
  have hboard := step_board h
  rcases htouch : s.touch? move with _ | x
  · rw [htouch] at hboard
    obtain ⟨hb, ht⟩ := Prod.mk.inj hboard
    rw [hb, ht, Option.toList_none, List.append_nil, List.append_nil]
    exact hf
  · rw [htouch, Option.toList_some, Board.run_singleton] at hboard
    have hnext := (hf.touch x).1
    rw [← hboard] at hnext
    exact hnext

/-- Only a feed writes states. -/
theorem states_of_other {s s' : System} {move : Move} {effects : List Effect}
    (h : s.step move = some (s', effects)) (hmove : ∀ k a, move ≠ .feed k a) : states effects = [] := by
  cases move with
  | feed k a => exact absurd rfl (hmove k a)
  | partition k j a =>
    obtain ⟨t, p, next, releases, -, -, hr, -, rfl⟩ := step_partition h
    exact hr.states_eq
  | supervise => exact (supervision_of_supervise h).states_eq
  | cancel | reset _ | record _ =>
    cases h
    rfl

/-- A step writes no state, or one that a feed had in hand. -/
theorem states_step {s s' : System} {move : Move} {effects : List Effect}
    (h : s.step move = some (s', effects)) :
    states effects = [] ∨ ∃ (k : Nat) (u : FeedTask), s.feeds[k]? = some u ∧
      ∃ m ∈ u.phase.messages, effects = [.write (.state m)] := by
  by_cases hmover : ∃ k a, move = .feed k a
  · obtain ⟨k, a, rfl⟩ := hmover
    obtain ⟨u, next, hu, hr, -, rfl⟩ := step_feed h
    exact hr.states_cases.imp_right fun hm => ⟨k, u, hu, hm⟩
  · exact Or.inl (states_of_other h fun k a hm => hmover ⟨k, a, hm⟩)

/-- After some steps of a read the messages of the stream of a feed are in order, and everything is in its
place for them to stay so. -/
structure Narrated (feeds : List Feed) (i : Nat) (stream : Stream) (past : List Step) (s : System) :
    Prop where
  tasks : s.feeds.map (·.feed) = feeds
  attended : Attended feeds s
  heralded : Heralded (touches past) s
  follows : Board.Follows feeds (touches past) s.shared.board (traces (past.flatMap (·.effects)))
  mirrored : ∃ d holder, Mirrors s d holder
  listed : stream ∈ s.shared.ledger.streams
  timely : Timely i stream.id (touches past) s
  recounts : Recounts stream.id (Board.verdicts stream.id (traces (past.flatMap (·.effects))))
    (lines stream.id (past.flatMap (·.effects)))

section
variable {feeds : List Feed} {i : Nat} {stream : Stream} {past : List Step} {s : System}

theorem isRead_of_getElem? (hi : feeds[i]? = some (.stream stream)) : Board.IsRead feeds stream.id :=
  ⟨_, List.mem_of_getElem? hi, List.mem_cons_self⟩

/-- The feed of the stream has its task at every moment. -/
theorem Narrated.exists_task (hn : Narrated feeds i stream past s)
    (hi : feeds[i]? = some (.stream stream)) :
    ∃ t, s.feeds[i]? = some t ∧ t.feed = .stream stream := by
  rw [← hn.tasks, List.getElem?_map] at hi
  exact Option.map_eq_some_iff.mp hi

/-- While the feed is in a round its stream has started and is not over. -/
theorem Narrated.verdicts_of_inRound (hn : Narrated feeds i stream past s)
    (hi : feeds[i]? = some (.stream stream)) {t : FeedTask} (ht : s.feeds[i]? = some t)
    (hfeed : t.feed = .stream stream) (hround : t.phase.inRound = true) :
    Board.verdicts stream.id (traces (past.flatMap (·.effects))) = [.started] := by
  have htouched : Board.Touched stream.id (touches past) :=
    hn.timely.begun t ht (Or.inr (FeedTask.Phase.pastStart_of_inRound _ hround))
  have hopen : ¬ Board.Over feeds stream.id (touches past) := by
    intro hover
    obtain ⟨x, hx, -, hkey, hstop⟩ := hover _ (List.mem_of_getElem? hi) List.mem_cons_self
    have halive : ∀ message, t.phase ≠ .crashed message := by
      intro message hp
      rw [hp] at hround
      cases hround
    have htold := hn.heralded.told i t ht
    rw [saying?_of_alive halive, FeedTask.Phase.saying?_of_inRound hround, hfeed] at htold
    -- the feed has said nothing of its end
    have hmem : x ∈ Board.stopsOf (Feed.stream stream).key (touches past) :=
      List.mem_filter.mpr ⟨hx, decide_eq_true ⟨hkey, hstop⟩⟩
    rw [show Board.stopsOf _ (touches past) = [] from htold] at hmem
    cases hmem
  obtain ⟨e, -, hknows⟩ := hn.follows.known stream.id (isRead_of_getElem? hi)
  have hstage := hknows.stage
  generalize e.standing = standing, Board.verdicts stream.id _ = vs at hstage ⊢
  cases hstage with
  | pending hno => exact absurd htouched hno
  | running => rfl
  | @done before after x hsplit _ hclosed =>
    rw [hsplit, ← List.singleton_append, ← List.append_assoc] at hopen
    exact absurd (hclosed.append after) hopen

/-- Every step keeps the messages of the stream in order. -/
theorem Narrated.recounts_step (hn : Narrated feeds i stream past s)
    (hi : feeds[i]? = some (.stream stream)) {move : Move} {effects : List Effect} {s' : System}
    (h : s.step move = some (s', effects)) :
    Recounts stream.id
      (Board.verdicts stream.id (traces (past.flatMap (·.effects) ++ effects)))
      (lines stream.id (past.flatMap (·.effects) ++ effects)) := by
  rw [traces_append, Board.verdicts_append, lines_append]
  rcases states_step h with hnone | ⟨k, u, hu, m, hm, rfl⟩
  · rw [lines_of_states_eq_nil stream.id hnone]
    exact hn.recounts.append _
  · have hquiet : Board.verdicts stream.id (traces [Effect.write (.state m)]) = [] := rfl
    rw [hquiet, List.append_nil]
    by_cases hof : m.IsOf stream.id
    · obtain ⟨t, ht, hfeed⟩ := hn.exists_task hi
      have hvs := hn.verdicts_of_inRound hi ht hfeed (hn.timely.held k u t hu ht m hm hof)
      have hrecounts := hn.recounts
      rw [hvs] at hrecounts ⊢
      have hline : lines stream.id [Effect.write (.state m)] = [.state m] := by
        cases m with
        | stream other state records =>
          rw [show other = stream.id from hof]
          simp [lines, Effect.line?]
        | global => cases hof
      rw [hline]
      exact hrecounts.snoc hof
    · have hline : lines stream.id [Effect.write (.state m)] = [] := by
        cases m with
        | stream other state records =>
          have hother : other ≠ stream.id := hof
          simp [lines, Effect.line?, hother]
        | global => rfl
      rw [hline, List.append_nil]
      exact hn.recounts

/-- What was written of a stream stays a story in every step of a read. -/
theorem Narrated.step (hn : Narrated feeds i stream past s) (hi : feeds[i]? = some (.stream stream))
    {move : Move} {effects : List Effect} {s' : System}
    (hreset : move = .reset (.stream stream.id) →
      ∀ t, s.feeds[i]? = some t → ∃ r, t.phase = .reading r)
    (h : s.step move = some (s', effects)) :
    Narrated feeds i stream (past ++ [⟨s, move, effects, s'⟩]) s' := by
  obtain ⟨d, holder, hmirrors⟩ := hn.mirrored
  have heffects : (past ++ [(⟨s, move, effects, s'⟩ : Step)]).flatMap (·.effects) =
      past.flatMap (·.effects) ++ effects := by
    rw [List.flatMap_append, List.flatMap_singleton]
  constructor
  case tasks => exact (map_feed_step h).trans hn.tasks
  case attended => exact hn.attended.step h
  case heralded =>
    rw [touches_snoc]
    exact hn.heralded.step hn.attended h
  case follows =>
    rw [touches_snoc, heffects, traces_append]
    exact follows_step hn.follows h
  case mirrored =>
    obtain ⟨-, d', holder', -, -, hnext, -⟩ := hmirrors.step h
    exact ⟨d', holder', hnext⟩
  case listed =>
    rw [streams_step h]
    exact hn.listed
  case timely =>
    rw [touches_snoc]
    exact hn.timely.step hn.attended hi hn.listed hmirrors hreset h
  case recounts =>
    rw [heffects]
    exact hn.recounts_step hi h

end

/-- A read begins with nothing written of any stream. -/
theorem narrated_start (settings : Settings) (factories : Nat) {l : Ledger} {i : Nat} {stream : Stream}
    (hkeys : (l.feeds.map Feed.key).Nodup) (hlisted : stream ∈ l.streams)
    (hidle : ¬ l.Pending (.stream stream.id)) :
    Narrated l.feeds i stream [] (start settings factories l) where
  tasks := map_feed_start settings factories l
  attended := attended_start settings factories hkeys
  heralded := heralded_start settings factories l
  follows := Board.follows_make l.feeds
  mirrored := ⟨_, _, mirrors_start settings factories l⟩
  listed := hlisted
  timely := timely_start settings factories i hidle
  recounts := rfl

/-- In some steps a stream is reset only while its feed reads partitions: by the readers of a round, that
is, and not by those who make them. -/
def ResetsWhileReading (id : StreamId) (steps : List Step) : Prop :=
  ∀ st ∈ steps, st.move = .reset (.stream id) →
    ∀ t ∈ st.before.feeds, t.feed.key = .stream id → ∃ r, t.phase = .reading r

/-- A stream that is not reset is not reset at a wrong moment. -/
theorem resetsWhileReading_of_not_mem {id : StreamId} {s : System} {moves : List Move}
    (h : Move.reset (.stream id) ∉ moves) : ResetsWhileReading id (s.trace moves) :=
  fun _ hst hm => absurd (hm ▸ move_mem_of_mem_trace hst) h

/-- What is written of a stream is a story in every run. -/
theorem Narrated.run {feeds : List Feed} {i : Nat} {stream : Stream} {s s' : System} {moves : List Move}
    {effects : List Effect} (hn : Narrated feeds i stream [] s) (hi : feeds[i]? = some (.stream stream))
    (h : s.run moves = some (s', effects)) (hreset : ResetsWhileReading stream.id (s.trace moves)) :
    Narrated feeds i stream (s.trace moves) s' := by
  refine run_induction (P := Narrated feeds i stream) h hn fun past st hmem hst hpast => ?_
  refine hpast.step hi (fun hm t ht => hreset st hmem hm t (List.mem_of_getElem? ht) ?_) hst
  have hfeed := hpast.attended.orderly.feed_eq i t ht
  rw [hi] at hfeed
  rw [← Option.some.inj hfeed]
  rfl

/-! ### Ledgers between reads -/

/-- A ledger that was made and then used in any way, and in which nothing is pending for a stream. -/
structure Handed (id : StreamId) (l : Ledger) : Prop where
  used : ∃ global streams ops, l = Ledger.used global streams ops
  idle : ¬ l.Pending (.stream id)

/-- A listed stream is read by a feed of its own. -/
theorem exists_feed_of_mem {l : Ledger} {stream : Stream} (h : stream ∈ l.streams) :
    ∃ i : Nat, l.feeds[i]? = some (Feed.stream stream) := by
  apply List.mem_iff_getElem?.mp
  exact List.mem_append_right _ (List.mem_map_of_mem h)

/-- When a read is over, nothing is pending for a stream. -/
theorem Narrated.not_pending {feeds : List Feed} {i : Nat} {stream : Stream} {past : List Step}
    {s : System} (hn : Narrated feeds i stream past s) (hi : feeds[i]? = some (.stream stream))
    (hover : s.result?.isSome = true) : ¬ s.shared.ledger.Pending (.stream stream.id) := by
  intro hpending
  obtain ⟨t, ht, hfeed⟩ := hn.exists_task hi
  have hfinished := hn.attended.orderly.finished_of_result? hover ht (by rw [hfeed]; rfl)
  have hround := (hn.timely.owed t ht hpending).inRound
  revert hfinished hround
  unfold FeedTask.finished
  cases t.phase <;> nofun

section
variable {id : StreamId} {l : Ledger}

/-- Nothing is pending in a ledger that was just made. -/
theorem Handed.make (global : Option (Global × Option Value)) (streams : List (Stream × Option Value)) :
    Handed id (.make global streams) := by
  refine ⟨⟨global, streams, [], rfl⟩, ?_⟩
  rintro ⟨slot, hslot, hp⟩
  obtain ⟨initial, rfl⟩ := Ledger.fresh_make global streams _ slot hslot
  cases hp

theorem Handed.nodup_keys (hl : Handed id l) : (l.feeds.map Feed.key).Nodup := by
  obtain ⟨global, streams, ops, rfl⟩ := hl.used
  exact Ledger.nodup_keys_used global streams ops

/-- A read hands its ledger on, unless it leaves something pending. -/
theorem Handed.run (hl : Handed id l) {settings : Settings} {factories : Nat} {moves : List Move} {s' : System}
    {effects : List Effect} (hrun : (start settings factories l).run moves = some (s', effects))
    (hidle : ¬ s'.shared.ledger.Pending (.stream id)) : Handed id s'.shared.ledger := by
  obtain ⟨global, streams, ops, rfl⟩ := hl.used
  have hledger := ledger_eq_trace hrun
  exact ⟨⟨global, streams, _, hledger.trans (Ledger.used_append global streams ops _).symm⟩, hidle⟩

end

/-! ### The statement -/

/-- The stream is said to start, and then come states of it. -/
def Opened (id : StreamId) (ls : List Message) : Prop :=
  ∃ states, (∀ m ∈ states, m.IsStateOf id) ∧ ls = .trace ⟨id, .started⟩ :: states

/-- The stream is said to start, then come states of it, and last it is said how it ended. -/
def Closed (id : StreamId) (ls : List Message) : Prop :=
  ∃ states verdict, (∀ m ∈ states, m.IsStateOf id) ∧ verdict ≠ Verdict.started ∧
    ls = .trace ⟨id, .started⟩ :: (states ++ [.trace ⟨id, verdict⟩])

/-- If nothing is pending at the start for a stream that has a feed of its own, its messages are in order at any
time: first that it starts, then states of it by whatever feed they are handed out, and last how it ended. When
the read is over, all of this has been written, and nothing is pending for the stream, so that the next read finds
it as this one did. -/
theorem stream_messages_in_order (settings : Settings) (factories : Nat) {l : Ledger} {stream : Stream}
    (hl : Handed stream.id l) (hlisted : stream ∈ l.streams) {moves : List Move} {s' : System}
    {effects : List Effect} (hrun : (start settings factories l).run moves = some (s', effects))
    (hreset : ResetsWhileReading stream.id ((start settings factories l).trace moves)) :
    (lines stream.id effects = [] ∨ Opened stream.id (lines stream.id effects) ∨
      Closed stream.id (lines stream.id effects)) ∧
    (s'.result?.isSome = true → Closed stream.id (lines stream.id effects) ∧
      Handed stream.id s'.shared.ledger) := by
  obtain ⟨i, hi⟩ := exists_feed_of_mem hlisted
  have hn := (narrated_start settings factories (i := i) hl.nodup_keys hlisted hl.idle).run hi hrun hreset
  obtain ⟨e, -, hknows⟩ := hn.follows.known stream.id (isRead_of_getElem? hi)
  have hrecounts := hn.recounts
  have hstage := hknows.stage
  rw [← effects_eq_trace hrun] at hrecounts hstage
  refine ⟨?_, fun hover => ?_⟩
  · generalize e.standing = standing, Board.verdicts stream.id (traces effects) = vs at hstage hrecounts
    cases hstage with
    | pending => exact Or.inl hrecounts
    | running =>
      obtain ⟨states, hstates, hlines⟩ := hrecounts
      rw [List.map_nil, List.append_nil] at hlines
      exact Or.inr (Or.inl ⟨states, hstates, hlines⟩)
    | @done before after x =>
      obtain ⟨states, hstates, hlines⟩ := hrecounts
      refine Or.inr (Or.inr ⟨states, _, hstates, ?_, hlines⟩)
      unfold Board.final
      split <;> nofun
  · have hsettled := hn.attended.settled hn.heralded (unseen_of_result? hover).2.1 hn.tasks
    obtain ⟨verdict, hvs, hwell, hill⟩ := hsettled.verdicts_eq hn.attended.orderly hn.attended.keys
      (isRead_of_getElem? hi) hstage
    rw [hvs] at hrecounts
    obtain ⟨states, hstates, hlines⟩ := hrecounts
    refine ⟨⟨states, verdict, hstates, ?_, hlines⟩, hl.run hrun (hn.not_pending hi hover)⟩
    by_cases hw : s'.EndsWell stream.id
    · rw [hwell hw]
      nofun
    · rw [hill hw]
      nofun

/-- The first feed crashes after the second one has handed out its state, and the supervisor says that its
stream failed. -/
def crashAfterHandOut : List Move :=
  handOutBetween ++ [.feed 0 (.made (.crashed "lost")), .feed 1 .go, .feed 1 .go, .feed 1 .go] ++
    List.replicate 8 .supervise

/-- The state comes from another feed and the last trace from the supervisor, and they are in order. -/
theorem stream_messages_in_order_users :
    ∃ s' effects, (start {} 1 (.make none twoStreams)).run crashAfterHandOut = some (s', effects) ∧
      s'.result?.isSome = true ∧
      lines ⟨"users", none⟩ effects =
        [ .trace ⟨⟨"users", none⟩, .started⟩, .state (.stream ⟨"users", none⟩ (.bool true) 3)
        , .trace ⟨⟨"users", none⟩, .incomplete⟩ ] ∧
      Closed ⟨"users", none⟩ (lines ⟨"users", none⟩ effects) := by
  have hrun : (start {} 1 (.make none twoStreams)).run crashAfterHandOut = some (_, _) := rfl
  have hreset : Move.reset (.stream ⟨"users", none⟩) ∉ crashAfterHandOut := by
    simp [crashAfterHandOut, handOutBetween]
  have hlisted : { id := ⟨"users", none⟩ } ∈ (Ledger.make none twoStreams).streams :=
    List.mem_cons_self
  exact ⟨_, _, hrun, rfl, rfl,
    (stream_messages_in_order {} 1 (.make none twoStreams) hlisted hrun
      (resetsWhileReading_of_not_mem hreset)).2 rfl |>.1⟩

/-- A feed comes to read partitions. -/
def comesToRead (i : Nat) (readers : List Bool) : List Move :=
  [ .feed i .go, .feed i (.made .creator), .feed i .go, .feed i (.probe .ready), .feed i .go, .feed i .go
  , .feed i .go, .feed i (.created (.readers readers)), .feed i .go, .feed i .go, .feed i .go ]

/-- The factory of a feed resets its stream, and then its creator fails. -/
def resetsAndFails (i : Nat) (id : StreamId) : List Move :=
  [ .feed i .go, .reset (.stream id), .feed i (.made .creator), .feed i .go, .feed i (.probe .ready)
  , .feed i .go, .feed i .go, .feed i .go, .feed i (.created (.failed (.reported "boom"))), .feed i .go
  , .feed i .go, .feed i .go, .feed i .go, .feed i .go ]

/-- Both factories reset their streams and both creators fail, so nobody hands out. -/
def resetsAndReadsNothing : List Move :=
  .supervise :: resetsAndFails 0 ⟨"users", none⟩ ++ resetsAndFails 1 ⟨"orders", none⟩ ++
    List.replicate 6 .supervise

/-- Both feeds find nothing to read, and the second one hands out before the first one starts. -/
def secondHandsOutFirst : List Move :=
  .supervise :: comesToRead 1 [] ++ List.replicate 10 (.feed 1 .go) ++
    comesToRead 0 [] ++ List.replicate 8 (.feed 0 .go) ++ List.replicate 6 .supervise

/-- A reset that one read has left pending is handed out in the next one, in which nothing is reset, by whatever
feed comes first: a state of the stream is written before the stream is said to start. -/
theorem state_before_start_in_next_read :
    ∃ first before s' effects,
      (start {} 1 (.make none twoStreams)).run resetsAndReadsNothing = some (first, before) ∧
      first.result?.isSome = true ∧
      { id := ⟨"users", none⟩ } ∈ first.shared.ledger.streams ∧
      first.shared.ledger.isMember ⟨"users", none⟩ = false ∧
      (start {} 1 first.shared.ledger).run secondHandsOutFirst = some (s', effects) ∧
      s'.result? = some (.ok ()) ∧ (∀ key, Move.reset key ∉ secondHandsOutFirst) ∧
      lines ⟨"users", none⟩ effects =
        [ .state (.stream ⟨"users", none⟩ .null 0), .trace ⟨⟨"users", none⟩, .started⟩
        , .trace ⟨⟨"users", none⟩, .complete⟩ ] ∧
      ¬ Closed ⟨"users", none⟩ (lines ⟨"users", none⟩ effects) := by
  refine ⟨_, _, _, _, rfl, rfl, List.mem_cons_self, rfl, rfl, rfl, ?_, rfl, ?_⟩
  · simp [secondHandsOutFirst, comesToRead]
  · rintro ⟨states, verdict, -, -, hlines⟩
    cases hlines

end System

end Read

end Intake
