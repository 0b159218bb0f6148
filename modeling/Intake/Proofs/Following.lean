import Intake.Proofs.Serial
/-!
# A task follows the serial reading

The task of a stream feed shares its slot with everybody who hands out: at any time others may swap it.
What they cannot do is set it. So a slot is `Quiet` between rounds, and within a round and until it has
been handed out it `Settles` in the state that was applied last, whether somebody has swapped it meanwhile
or not; both are kept by swaps.

`FeedTask.Stands` says for every phase of a task where it stands in the serial reading of its round: which
notes of the round have been made, what is in its slot, and which creator is in force. `Stands.step` says
that a step of the task that agrees with the conduct keeps it, or brings the task to the next round.
-/

namespace Intake

/-! ### Slots under swaps -/

namespace Slot

/-- The slot is in a state and has nothing pending. -/
structure Quiet (slot : Slot) (state : Option Value) : Prop where
  pending : slot.pending = false
  current : slot.current = state
  latest : slot.latest = state

/-- The slot is in a state, or will be with the next swap. -/
structure Settles (slot : Slot) (state : Option Value) : Prop where
  latest : slot.latest = state
  current : slot.pending = false → slot.current = state

variable {slot : Slot} {state : Option Value}

/-- A slot is quiet when it starts. -/
theorem quiet_start (initial : Option Value) : (start initial).Quiet initial := ⟨rfl, rfl, rfl⟩

theorem Quiet.settles (h : slot.Quiet state) : slot.Settles state := ⟨h.latest, fun _ => h.current⟩

/-- A slot that has settled is quiet unless it is pending. -/
theorem Settles.quiet (h : slot.Settles state) (hp : slot.pending = false) : slot.Quiet state :=
  ⟨hp, h.current hp, h.latest⟩

/-- A slot settles on the state it was set to. -/
theorem settles_set (slot : Slot) (v : Value) (records : Nat) :
    (slot.set v records).Settles (some v) := ⟨rfl, nofun⟩

/-- After a swap a slot is not pending. -/
theorem pending_swap (slot : Slot) : slot.swap.1.pending = false := by
  unfold swap
  split
  · rfl
  · exact Bool.eq_false_iff.mpr ‹_›

/-- A swap does not unsettle a slot. -/
theorem Settles.swap (h : slot.Settles state) : slot.swap.1.Settles state := by
  unfold Slot.swap
  split
  · exact ⟨h.latest, fun _ => h.latest⟩
  · exact h

theorem Quiet.swap (h : slot.Quiet state) : slot.swap.1.Quiet state :=
  h.settles.swap.quiet slot.pending_swap

end Slot

namespace Read

/-- The note of an operation on a slot. -/
def Op.note? (key : SlotKey) : Ledger.Op → Option Note
  | .set k state records => if k = key then some (.applied state records) else none
  | _ => none

namespace FeedTask

/-! ### What is heard and noted -/

/-- What is noted of an act of a task by itself. -/
def note? (t : FeedTask) (l : Ledger) : Act → Option Note
  | .made _ =>
    match t.phase with
    | .making k => some (.asked t.round k (l.current t.feed))
    | _ => none
  | .go =>
    match t.phase with
    | .created readers => some (.opened t.round readers)
    | _ => none
  | _ => none

/-- What is noted of an act of a task that has a slot. -/
def notes (t : FeedTask) (l : Ledger) (key : SlotKey) (a : Act) : List Note :=
  (t.note? l a).toList ++ ((t.op? l a).bind (Op.note? key)).toList

/-- An act agrees with a conduct, given the creator in force. -/
def Hears (conduct : Conduct) (plan : Option Creation) (t : FeedTask) (l : Ledger) : Act → Prop
  | .made a => ∀ k, t.phase = .making k → a = (conduct k (l.current t.feed)).made
  | a => ∀ c, plan = some c → c.Allows a

/-- The creator in force after an act. -/
def planAfter (conduct : Conduct) (plan : Option Creation) (t : FeedTask) (l : Ledger) :
    Act → Option Creation
  | .made .creator =>
    match t.phase with
    | .making k => (conduct k (l.current t.feed)).creation?
    | _ => plan
  | _ => plan

/-- Whether nothing is noted of a task in a phase. -/
def Phase.isSilent : Phase → Bool
  | .making _ => false
  | .created _ => false
  | .reading _ => false
  | _ => true

/-- In a silent phase nothing is noted. -/
theorem notes_of_silent {t : FeedTask} (h : t.phase.isSilent = true) (l : Ledger) (key : SlotKey)
    (a : Act) : t.notes l key a = [] := by
  have hnote : t.note? l a = none := by
    unfold note?
    split
    · split
      · rename_i hp
        rw [hp] at h; cases h
      · rfl
    · split
      · rename_i hp
        rw [hp] at h; cases h
      · rfl
    · rfl
  have hop : (t.op? l a).bind (Op.note? key) = none := by
    unfold op?
    split
    · split
      · rename_i hp
        rw [hp] at h; cases h
      · rename_i visit _ _ _ _
        cases visit <;> rfl
      · rfl
    · rfl
  rw [notes, hnote, hop]
  rfl

/-- In a silent phase the creator in force stays as it is. -/
theorem planAfter_of_silent {t : FeedTask} (h : t.phase.isSilent = true) (conduct : Conduct)
    (plan : Option Creation) (l : Ledger) (a : Act) : t.planAfter conduct plan l a = plan := by
  unfold planAfter
  split
  · split
    · rename_i hp
      rw [hp] at h; cases h
    · rfl
  · rfl

/-! ### Where a task stands -/

/-- The factories have been asked, and the creator in force is the one that was found. -/
structure Found (conduct : Conduct) (factories number : Nat) (state : Option Value)
    (plan : Option Creation) (part : List Note) (c : Creation) : Prop where
  plan_eq : plan = some c
  asked : serialAsk conduct number state factories 0 = (part, some (.ok c))

/-- What the creator of a round answers, once it has its resources. -/
def Answers (t : FeedTask) (c : Creation) : Except Fault (List Bool) → Prop
  | .ok l => ∃ readers, c = .makes readers ∧ readers.map Prod.fst = l
  | .error e => ∃ e', c = .fails e' ∧ e = .creation t.label t.round e'

/-- The notes of a round so far, while its partitions are read. -/
def readSoFar (t : FeedTask) (asked : List Note) (readers : List (Bool × Fate)) (applied : Nat) :
    List Note :=
  asked ++ .opened t.round (readers.map Prod.fst) ::
    applications ((leading ((readers.map Prod.snd).map (Fate.result t.label))).take applied)

/-- The next checkpoint is read after those before it. -/
theorem readSoFar_succ (t : FeedTask) (asked : List Note) {readers : List (Bool × Fate)}
    {applied : Nat} {c : Checkpoint}
    (h : (leading ((readers.map Prod.snd).map (Fate.result t.label)))[applied]? = some c) :
    t.readSoFar asked readers (applied + 1) =
      t.readSoFar asked readers applied ++ [.applied c.state c.records] := by
  simp only [readSoFar, List.take_add_one, h, Option.toList_some, applications, List.map_append,
    List.map_cons, List.map_nil, List.append_assoc, List.cons_append]

/-! ### The limits of the readers -/

theorem map_unlimited_partitions (readers : List Bool) :
    (partitions readers).map (·.unlimited) = readers := by
  refine List.ext_getElem? fun j => ?_
  rw [partitions, List.getElem?_map, List.getElem?_mapIdx]
  cases readers[j]? <;> rfl

theorem map_unlimited_set {parts : List Partition} {j : Nat} {p q : Partition}
    (hp : parts[j]? = some p) (hq : q.unlimited = p.unlimited) :
    (parts.set j q).map (·.unlimited) = parts.map (·.unlimited) := by
  refine List.ext_getElem? fun k => ?_
  rw [List.getElem?_map, List.getElem?_map, List.getElem?_set]
  split
  · rename_i hjk
    subst hjk
    rw [hp, if_pos (List.getElem?_eq_some_iff.mp hp).1, Option.map_some, hq]
    rfl
  · rfl

theorem map_unlimited_haltParts (parts : List Partition) (indices : List Nat) :
    (haltParts parts indices).map (·.unlimited) = parts.map (·.unlimited) := by
  refine List.ext_getElem? fun j => ?_
  rw [List.getElem?_map, List.getElem?_map, getElem?_haltParts, Option.map_map]
  refine congrArg (Option.map · _) (funext fun p => ?_)
  simp only [Function.comp_apply]
  split <;> rfl

theorem map_unlimited_join {t t' : FeedTask} {v : View} {r r' : Round} {j : Nat}
    (h : t.join v r j = some (t', r')) :
    t'.parts.map (·.unlimited) = t.parts.map (·.unlimited) := by
  obtain ⟨p, e, hp, -, rfl, -⟩ := eq_taken_of_join h
  rw [taken, map_unlimited_haltParts]
  exact map_unlimited_set hp rfl

/-- Where a task in a phase stands in the serial reading of its round: `state` is that of the feed at the
beginning of the round, `plan` the creator in force, `part` what has been noted in the round, and `slot`
is the slot of the feed. -/
def Stands (conduct : Conduct) (factories : Nat) (key : SlotKey) (state : Option Value)
    (plan : Option Creation) (part : List Note) (slot : Slot) (t : FeedTask) : Phase → Prop
  | .asleep => slot.Quiet state ∧ part = []
  | .making k => slot.Quiet state ∧ ∃ left, k + left = factories ∧
      serialAsk conduct t.round state factories 0 =
        (part ++ (serialAsk conduct t.round state left k).1,
          (serialAsk conduct t.round state left k).2)
  | .acquiring _ => slot.Quiet state ∧ ∃ c, Found conduct factories t.round state plan part c
  | .starting _ | .opening | .creating =>
    slot.Quiet state ∧ ∃ c, Found conduct factories t.round state plan part c ∧ c.granted = true
  | .releasing r | .notifying r =>
    slot.Quiet state ∧ ∃ c, Found conduct factories t.round state plan part c ∧ t.Answers c r
  | .created l => slot.Quiet state ∧ ∃ readers,
      Found conduct factories t.round state plan part (.makes readers) ∧ readers.map Prod.fst = l
  | .reading r => slot.Settles (stateAfter state part) ∧ ∃ asked readers,
      Found conduct factories t.round state plan asked (.makes readers) ∧ readers ≠ [] ∧
      part = t.readSoFar asked readers r.applied ∧
      t.parts.map (·.unlimited) = readers.map Prod.fst ∧ Reads (readers.map Prod.snd) t r
  | .locking next => slot.Settles (stateAfter state part) ∧
      serialRound conduct factories t.label t.round state =
        (part, next.course (stateAfter state part))
  | .visiting left _ next => slot.Settles (stateAfter state part) ∧
      (slot.pending = true → ∃ visit ∈ left, visit.key? = some key) ∧
      serialRound conduct factories t.label t.round state =
        (part, next.course (stateAfter state part))
  | .writing _ _ next => slot.Quiet (stateAfter state part) ∧
      serialRound conduct factories t.label t.round state =
        (part, next.course (stateAfter state part))
  | .completing _ | .completed =>
    serialRound conduct factories t.label t.round state = (part, .ended (.ok ()))
  | .failing e | .stopping _ e _ =>
    serialRound conduct factories t.label t.round state = (part, .ended (.error e))
  | .done r => serialRound conduct factories t.label t.round state = (part, .ended r)
  | .crashed message =>
    serialRound conduct factories t.label t.round state = (part, .crashed message)

section
variable {conduct : Conduct} {factories : Nat} {key : SlotKey} {state : Option Value}
  {plan : Option Creation} {part : List Note} {slot : Slot} {t : FeedTask}

/-- A swap of the slot by somebody else is of no account. -/
theorem Stands.swap {phase : Phase}
    (h : t.Stands conduct factories key state plan part slot phase) :
    t.Stands conduct factories key state plan part slot.swap.1 phase := by
  cases phase with
  | asleep | making | acquiring | starting | opening | creating | releasing | notifying | created
  | writing =>
    exact ⟨h.1.swap, h.2⟩
  | reading | locking => exact ⟨h.1.swap, h.2⟩
  | visiting left draft next =>
    refine ⟨h.1.swap, fun hp => ?_, h.2.2⟩
    rw [slot.pending_swap] at hp
    cases hp
  | _ => exact h

/-- Nor is who stopped the task. -/
theorem Stands.congr {phase : Phase}
    (h : t.Stands conduct factories key state plan part slot phase) (halted : Bool)
    (cause : Option Fault) :
    FeedTask.Stands conduct factories key state plan part slot { t with halted, cause } phase := by
  cases phase with
  | reading r =>
    obtain ⟨hq, asked, readers, hf, hne, hpart, hlimits, hreads⟩ := h
    exact ⟨hq, asked, readers, hf, hne, hpart, hlimits, hreads.congr rfl rfl rfl⟩
  | _ => exact h

/-- A step of one of its partitions. -/
theorem Stands.step_part {v : View} {phase : Phase}
    (h : t.Stands conduct factories key state plan part slot phase) (hv : t.cancelledIn v = false)
    {j : Nat} {p : Partition} {a : Act} {next : Partition.Next} (hp : t.parts[j]? = some p)
    (hr : Partition.Rule (t.partView v j p) p a next)
    (ha : ∀ c, plan = some c → ∀ f, c.fates[j]? = some f → p.halted = false → f.Allows p.phase a)
    (releases : Nat) :
    FeedTask.Stands conduct factories key state plan part slot
      { t with parts := t.parts.set j next.task, releases } phase := by
  cases phase with
  | reading r =>
    obtain ⟨hq, asked, readers, hf, hne, hpart, hlimits, hreads⟩ := h
    refine ⟨hq, asked, readers, hf, hne, hpart, ?_, ?_⟩
    · rw [map_unlimited_set hp hr.frame.2.2]
      exact hlimits
    · exact hreads.part hv hp hr (ha _ hf.plan_eq) releases
  | _ => exact h

/-- What a step of a task comes to: it goes on in its round, or begins the next one. -/
def Advances (conduct : Conduct) (factories : Nat) (key : SlotKey) (state : Option Value)
    (plan : Option Creation) (part : List Note) (t : FeedTask) (next : Next) : Prop :=
  ∃ slot', next.shared.ledger.slots.find? key = some slot' ∧
    ((next.task.round = t.round ∧
        next.task.Stands conduct factories key state plan part slot' next.task.phase) ∨
      (next.task.round = t.round + 1 ∧ ∃ state',
        serialRound conduct factories t.label t.round state = (part, .onward state') ∧
        next.task.Stands conduct factories key state' plan [] slot' next.task.phase))

/-- Without cancellation a failure of the creator is wrapped with its place. -/
theorem creationFault_eq {v : View} (hv : t.cancelledIn v = false) (e : Fault) :
    t.creationFault v e = .creation t.label t.round e := by
  unfold creationFault
  rw [hv]
  cases e <;> rfl

/-- A step of which nothing is noted. -/
theorem Stands.step_silent {v : View} {s : Shared} {a : Act} {next : Next}
    (h : t.Stands conduct factories key state plan part slot t.phase) (hr : Rule v t s a next)
    (hsilent : t.phase.isSilent = true) (hv : t.cancelledIn v = false) (hcause : t.cause = none)
    (hscope : s.ledger.scope? t.feed = some key) (hslot : s.ledger.slots.find? key = some slot)
    (hplan : ∃ visit ∈ s.ledger.plan, visit.key? = some key)
    (hears : t.Hears conduct plan s.ledger a) :
    Advances conduct factories key state plan part t next := by
  cases hr with
  | begins hp hk =>
    rw [hp] at h
    obtain ⟨hq, rfl⟩ := h
    exact ⟨slot, hslot, Or.inl ⟨rfl, hq, factories, Nat.zero_add _, rfl⟩⟩
  | beginsUntracked hp hk =>
    rw [hscope] at hk
    cases hk
  | exhausts hp _ | isDeclined hp _ | makes hp _ | makeCrashes hp _ =>
    rw [hp] at hsilent; cases hsilent
  | findsNothing hp | starts hp _ | applies hp _ | closes hp _ _ | joins hp _ _ _ =>
    rw [hp] at hsilent; cases hsilent
  | acquireMoves hp hm hs | acquireRetries hp hm hs =>
    rw [hp] at h
    exact ⟨slot, hslot, Or.inl ⟨rfl, h⟩⟩
  | acquires hp hm hs =>
    rw [hp] at h
    obtain ⟨hq, c, hf⟩ := h
    obtain rfl := Acquisition.eq_ready_of_acquired hs
    obtain rfl := Act.eq_probe hm
    exact ⟨slot, hslot, Or.inl ⟨rfl, hq, c, hf, hears c hf.plan_eq⟩⟩
  | @acquireFails p a move e hp hm hs =>
    rw [hp] at h
    obtain ⟨hq, c, hf⟩ := h
    rw [hv] at hs
    obtain rfl := Acquisition.eq_failed_of_failed hs
    obtain rfl := Act.eq_probe hm
    obtain rfl : c = .denied e := hears c hf.plan_eq
    refine ⟨slot, hslot, Or.inl ⟨rfl, ?_⟩⟩
    rw [creationFault_eq hv]
    exact serialRound_of_silent hf.asked rfl
  | @acquireCrashes p a move message hp hm hs =>
    rw [hp] at h
    obtain ⟨hq, c, hf⟩ := h
    obtain rfl := Acquisition.eq_crashed_of_crashed hs
    obtain rfl := Act.eq_probe hm
    obtain rfl : c = .lost message := hears c hf.plan_eq
    refine ⟨slot, hslot, Or.inl ⟨rfl, ?_⟩⟩
    exact serialRound_of_silent hf.asked rfl
  | saysStarting hp | hasStarted hp | opens hp =>
    rw [hp] at h
    exact ⟨slot, hslot, Or.inl ⟨rfl, h⟩⟩
  | creates hp =>
    rw [hp] at h
    obtain ⟨hq, c, hf, -⟩ := h
    exact ⟨slot, hslot, Or.inl ⟨rfl, hq, c, hf, hears c hf.plan_eq⟩⟩
  | @createFails e hp =>
    rw [hp] at h
    obtain ⟨hq, c, hf, -⟩ := h
    exact ⟨slot, hslot, Or.inl ⟨rfl, hq, c, hf, e, hears c hf.plan_eq, rfl⟩⟩
  | @createCrashes message hp =>
    rw [hp] at h
    obtain ⟨hq, c, hf, -⟩ := h
    obtain rfl : c = .crashes message := hears c hf.plan_eq
    refine ⟨slot, hslot, Or.inl ⟨rfl, ?_⟩⟩
    exact serialRound_of_silent hf.asked rfl
  | quits hp hc =>
    rw [hv] at hc
    cases hc
  | releases hp =>
    rw [hp] at h
    exact ⟨slot, hslot, Or.inl ⟨rfl, h⟩⟩
  | notifies hp =>
    rw [hp] at h
    obtain ⟨hq, c, hf, readers, rfl, hl⟩ := h
    exact ⟨slot, hslot, Or.inl ⟨rfl, hq, readers, hf, hl⟩⟩
  | notifiesFailure hp =>
    rw [hp] at h
    obtain ⟨hq, c, hf, e', rfl, rfl⟩ := h
    refine ⟨slot, hslot, Or.inl ⟨rfl, ?_⟩⟩
    exact serialRound_of_silent hf.asked rfl
  | locks hp _ =>
    rw [hp] at h
    exact ⟨slot, hslot, Or.inl ⟨rfl, h.1, fun _ => hplan, h.2⟩⟩
  | @visits visit rest draft next hp =>
    rw [hp] at h
    obtain ⟨hs, hleft, hround⟩ := h
    have hfind := s.ledger.find?_visit draft visit key
    rw [hslot] at hfind
    by_cases hk : visit.key? = some key
    · rw [if_pos hk] at hfind
      refine ⟨slot.swap.1, hfind, Or.inl ⟨rfl, hs.swap, fun hpend => ?_, hround⟩⟩
      rw [slot.pending_swap] at hpend
      cases hpend
    · rw [if_neg hk] at hfind
      refine ⟨slot, hfind, Or.inl ⟨rfl, hs, fun hpend => ?_, hround⟩⟩
      obtain ⟨other, hmem, hother⟩ := hleft hpend
      rcases List.mem_cons.mp hmem with rfl | hmem
      · exact absurd hother hk
      · exact ⟨other, List.mem_append_right _ hmem, hother⟩
  | hasVisited hp =>
    rw [hp] at h
    obtain ⟨hs, hleft, hround⟩ := h
    have hquiet : slot.pending = false := by
      rw [Bool.eq_false_iff]
      intro hpend
      obtain ⟨visit, hmem, -⟩ := hleft hpend
      cases hmem
    exact ⟨slot, hslot, Or.inl ⟨rfl, hs.quiet hquiet, hround⟩⟩
  | writes hp =>
    rw [hp] at h
    exact ⟨slot, hslot, Or.inl ⟨rfl, h⟩⟩
  | @unlocks count next hp =>
    rw [hp] at h
    obtain ⟨hq, hround⟩ := h
    cases next with
    | last => exact ⟨slot, hslot, Or.inl ⟨rfl, hround⟩⟩
    | more =>
      exact ⟨slot, hslot, Or.inr ⟨rfl, _, hround, hq, factories, Nat.zero_add _, rfl⟩⟩
    | failed e => exact ⟨slot, hslot, Or.inl ⟨rfl, hround⟩⟩
  | saysComplete hp | hasCompleted hp | finishes hp | saysStopped hp | hasStopped hp =>
    rw [hp] at h
    exact ⟨slot, hslot, Or.inl ⟨rfl, h⟩⟩
  | stops hp _ =>
    rw [hp] at h
    exact ⟨slot, hslot, Or.inl ⟨rfl, h⟩⟩
  | stopsForCause hp hc =>
    rw [hcause] at hc
    cases hc

/-! ### Steps of which something is noted -/

/-- The current state of a feed is that of the slot in its scope. -/
theorem current_of_scope? {l : Ledger} {feed : Feed} (hscope : l.scope? feed = some key)
    (hslot : l.slots.find? key = some slot) : l.current feed = slot.current := by
  rw [Ledger.current, hscope, Option.bind_some, Ledger.currentAt, hslot, Option.bind_some]

/-- What a factory answers tells what the serial reading has next. -/
theorem Stands.step_making {v : View} {s : Shared} {a : Act} {next : Next} {k : Nat}
    (h : t.Stands conduct factories key state plan part slot (.making k)) (hr : Rule v t s a next)
    (hphase : t.phase = .making k) (hfactories : v.factories = factories)
    (hscope : s.ledger.scope? t.feed = some key) (hslot : s.ledger.slots.find? key = some slot)
    (hears : t.Hears conduct plan s.ledger a) :
    Advances conduct factories key state (t.planAfter conduct plan s.ledger a)
      (part ++ t.notes s.ledger key a) t next := by
  obtain ⟨hq, left, hleft, hask⟩ := h
  have hcurrent : s.ledger.current t.feed = state :=
    (current_of_scope? hscope hslot).trans hq.current
  have hnotes : ∀ m, t.notes s.ledger key (.made m) = [.asked t.round k state] := by
    intro m
    simp [notes, note?, op?, hphase, hcurrent]
  have hmade : ∀ m, a = .made m → m = (conduct k state).made := by
    rintro m rfl
    rw [← hcurrent]
    exact hears k hphase
  -- when a factory is asked there is one left
  have hone : k < v.factories → ∃ n, left = n + 1 := fun hk => ⟨left - 1, by omega⟩
  cases hr with
  | exhausts hp hk =>
    rw [hphase] at hp; cases hp
    obtain rfl : left = 0 := by omega
    have hnone : t.notes s.ledger key .go = [] := by simp [notes, note?, op?, hphase]
    rw [hnone]
    exact ⟨slot, hslot, Or.inl ⟨rfl, serialRound_of_none hask⟩⟩
  | isDeclined hp hk =>
    rw [hphase] at hp; cases hp
    obtain ⟨left, rfl⟩ := hone hk
    refine ⟨slot, hslot, Or.inl ⟨rfl, hq, left, by omega, ?_⟩⟩
    rw [hnotes]
    refine hask.trans ?_
    simp only [serialAsk, Offer.eq_none_of_made (hmade _ rfl), List.append_assoc,
      List.singleton_append]
    rfl
  | makes hp hk =>
    rw [hphase] at hp; cases hp
    obtain ⟨left, rfl⟩ := hone hk
    obtain ⟨c, hc⟩ := Offer.eq_ok_of_made (hmade _ rfl)
    refine ⟨slot, hslot, Or.inl ⟨rfl, hq, c, ?_, ?_⟩⟩
    · simp only [planAfter, hphase, hcurrent, hc, Offer.creation?]
    · rw [hnotes]
      refine hask.trans ?_
      simp only [serialAsk, hc]
  | makeCrashes hp hk =>
    rw [hphase] at hp; cases hp
    obtain ⟨left, rfl⟩ := hone hk
    refine ⟨slot, hslot, Or.inl ⟨rfl, serialRound_of_error ?_⟩⟩
    rw [hnotes]
    refine hask.trans ?_
    simp only [serialAsk, Offer.eq_error_of_made (hmade _ rfl)]
  | _ hp => rw [hphase] at hp; cases hp

/-- Asking the factories does not change the state. -/
theorem Found.stateAfter_eq {number : Nat} {c : Creation}
    (h : Found conduct factories number state plan part c) : stateAfter state part = state :=
  stateAfter_of_asked (by rw [h.asked])

/-- The readers of a round are announced. -/
theorem Stands.step_created {v : View} {s : Shared} {a : Act} {next : Next} {l : List Bool}
    (h : t.Stands conduct factories key state plan part slot (.created l)) (hr : Rule v t s a next)
    (hphase : t.phase = .created l) (hslot : s.ledger.slots.find? key = some slot) :
    Advances conduct factories key state (t.planAfter conduct plan s.ledger a)
      (part ++ t.notes s.ledger key a) t next := by
  obtain ⟨hq, readers, hf, hl⟩ := h
  have hnotes : t.notes s.ledger key .go = [.opened t.round l] := by
    simp [notes, note?, op?, hphase]
  have hstate : stateAfter state (part ++ [.opened t.round l]) = state := by
    rw [stateAfter_append, hf.stateAfter_eq, stateAfter_opened]
  cases hr with
  | findsNothing hp =>
    rw [hphase] at hp; cases hp
    obtain rfl : readers = [] := List.map_eq_nil_iff.mp hl
    rw [hnotes]
    refine ⟨slot, hslot, Or.inl ⟨rfl, ?_, ?_⟩⟩
    · rw [hstate]
      exact hq.settles
    · exact serialRound_of_ok hf.asked
  | starts hp hne =>
    rw [hphase] at hp; cases hp
    rw [hnotes]
    have hlen : l.length = (readers.map Prod.snd).length := by rw [← hl]; simp
    refine ⟨slot, hslot, Or.inl ⟨rfl, ?_, part, readers, hf, ?_, ?_, ?_, ?_⟩⟩
    · rw [hstate]
      exact hq.settles
    · rintro rfl
      exact hne hl.symm
    · rw [← hl]
      rfl
    · exact (map_unlimited_partitions l).trans hl.symm
    · exact reads_start hlen rfl
  | _ hp => rw [hphase] at hp; cases hp

/-- The partitions of a round are read. -/
theorem Stands.step_reading {v : View} {s : Shared} {a : Act} {next : Next} {r : Round}
    (h : t.Stands conduct factories key state plan part slot (.reading r)) (hr : Rule v t s a next)
    (hphase : t.phase = .reading r) (hv : t.cancelledIn v = false)
    (hscope : s.ledger.scope? t.feed = some key) (hslot : s.ledger.slots.find? key = some slot) :
    Advances conduct factories key state (t.planAfter conduct plan s.ledger a)
      (part ++ t.notes s.ledger key a) t next := by
  obtain ⟨hs, asked, readers, hf, hne, hpart, hlimits, hreads⟩ := h
  rcases hr.of_reading hphase with ⟨c, rfl, hn, rfl⟩ | ⟨rfl, hn, hc, rfl⟩ |
    ⟨j, t', r', rfl, hn, hfull, hj, rfl⟩
  · -- the next checkpoint is applied
    have hnotes : t.notes s.ledger key .go = [.applied c.state c.records] := by
      simp [notes, note?, op?, Op.note?, hphase, hn, hscope]
    have hfind : (t.applyCheckpoint s c).ledger.slots.find? key =
        some (slot.set c.state c.records) := by
      simp only [applyCheckpoint, hscope, Ledger.set, Table.find?_adjust, if_true, hslot,
        Option.map_some]
    rw [hnotes]
    refine ⟨_, hfind, Or.inl ⟨rfl, ?_, asked, readers, hf, hne, ?_, hlimits,
      (hreads.applyNext hn).congr rfl rfl rfl⟩⟩
    · rw [stateAfter_append, stateAfter_applied]
      exact slot.settles_set c.state c.records
    · rw [hpart]
      exact (t.readSoFar_succ asked (hreads.faithful.leading_of_next? hn)).symm
  · -- the round is closed
    have hnotes : t.notes s.ledger key .go = [] := by simp [notes, note?, op?, hphase, hn]
    obtain ⟨happlied, hend⟩ := hreads.roundEnd_eq hv hn hc
    rw [hnotes, List.append_nil]
    refine ⟨slot, hslot, Or.inl ⟨rfl, hs, (serialRound_of_ok hf.asked).trans ?_⟩⟩
    have hall : part = asked ++ .opened t.round (readers.map Prod.fst) ::
        applications (leading ((readers.map Prod.snd).map (Fate.result t.label))) := by
      rw [hpart, readSoFar, happlied, List.take_length]
    have hstate : stateAfter state part = stateAfter state (.opened t.round (readers.map Prod.fst) ::
        applications (leading ((readers.map Prod.snd).map (Fate.result t.label)))) := by
      rw [hall, stateAfter_append, hf.stateAfter_eq]
    have hempty : readers.isEmpty = false := by
      rw [Bool.eq_false_iff]
      exact fun he => hne (List.isEmpty_iff.mp he)
    rw [hend, hstate]
    simp only [Creation.serial, hempty, Bool.false_eq_true, if_false]
    rw [hall]
    rfl
  · -- the end of a partition is taken
    have hnotes : t.notes s.ledger key (.join j) = [] := rfl
    obtain ⟨hreads', happlied⟩ := hreads.join hv hj
    have hlimits' := (map_unlimited_join hj).trans hlimits
    obtain ⟨parts, rfl⟩ := join_frame hj
    rw [hnotes, List.append_nil]
    refine ⟨slot, hslot, Or.inl ⟨rfl, hs, asked, readers, hf, hne, ?_, hlimits',
      hreads'.congr rfl rfl rfl⟩⟩
    rw [happlied]
    exact hpart

/-- A step of a task that agrees with the conduct. -/
theorem Stands.step {v : View} {s : Shared} {a : Act} {next : Next}
    (h : t.Stands conduct factories key state plan part slot t.phase) (hr : Rule v t s a next)
    (hv : t.cancelledIn v = false) (hcause : t.cause = none) (hfactories : v.factories = factories)
    (hscope : s.ledger.scope? t.feed = some key) (hslot : s.ledger.slots.find? key = some slot)
    (hplan : ∃ visit ∈ s.ledger.plan, visit.key? = some key)
    (hears : t.Hears conduct plan s.ledger a) :
    Advances conduct factories key state (t.planAfter conduct plan s.ledger a)
      (part ++ t.notes s.ledger key a) t next := by
  by_cases hsilent : t.phase.isSilent = true
  · rw [notes_of_silent hsilent, planAfter_of_silent hsilent, List.append_nil]
    exact h.step_silent hr hsilent hv hcause hscope hslot hplan hears
  · rcases hphase : t.phase with _ | k | _ | _ | _ | _ | _ | _ | l | r | _
    case making =>
      rw [hphase] at h
      exact h.step_making hr hphase hfactories hscope hslot hears
    case created =>
      rw [hphase] at h
      exact h.step_created hr hphase hslot
    case reading =>
      rw [hphase] at h
      exact h.step_reading hr hphase hv hscope hslot
    all_goals
      rw [hphase] at hsilent
      exact absurd rfl hsilent

/-- What a task has noted in its round is the beginning of what the serial reading notes there. -/
theorem Stands.isPrefix {phase : Phase}
    (h : t.Stands conduct factories key state plan part slot phase) :
    part <+: (serialRound conduct factories t.label t.round state).1 := by
  cases phase with
  | asleep =>
    rw [h.2]
    exact List.nil_prefix
  | making k =>
    obtain ⟨-, left, -, hask⟩ := h
    refine List.IsPrefix.trans ?_ serialAsk_isPrefix
    rw [hask]
    exact List.prefix_append _ _
  | acquiring =>
    obtain ⟨-, c, hf⟩ := h
    rw [serialRound_of_ok hf.asked]
    exact List.prefix_append _ _
  | starting | opening | creating | releasing | notifying =>
    obtain ⟨-, c, hf, -⟩ := h
    rw [serialRound_of_ok hf.asked]
    exact List.prefix_append _ _
  | created =>
    obtain ⟨-, readers, hf, -⟩ := h
    rw [serialRound_of_ok hf.asked]
    exact List.prefix_append _ _
  | reading r =>
    obtain ⟨-, asked, readers, hf, -, rfl, -, -⟩ := h
    rw [serialRound_of_ok hf.asked]
    refine (List.prefix_append_right_inj asked).mpr (List.cons_prefix_cons.mpr ⟨rfl, ?_⟩)
    exact (List.take_prefix _ _).map _
  | visiting =>
    rw [h.2.2]
  | locking | writing =>
    rw [h.2]
  | _ =>
    rw [show serialRound _ _ _ _ _ = _ from h]

/-- Between rounds a feed is in the state that was applied last. -/
theorem Stands.current_of_making {k : Nat}
    (h : t.Stands conduct factories key state plan part slot (.making k)) :
    slot.current = stateAfter state part := by
  obtain ⟨hq, left, -, hask⟩ := h
  rw [hq.current, stateAfter_of_asked (by rw [hask]; exact List.prefix_append _ _)]

end

end FeedTask

end Read

end Intake
