import Intake.Proofs.Enrolment
import Intake.Proofs.Following
import Intake.Proofs.Supervision
/-!
# A stream feed among other feeds

In a read of many feeds the task of a stream feed makes its steps between those of all others, and others
swap its slot whenever they hand out. None of this shows in what the feed does: `Follows` says that its
log is that of the serial reading of the feed as far as it has come. `Follows.step` says that every step
of the read keeps it, whoever makes it, if the connector honours its conduct towards this one feed;
what other feeds and their connectors do is not restricted at all. `Follows.run` says so of whole runs, and
`Follows.matches` what it means for the log and the end of the feed.
-/

namespace Intake.Read.System

/-! ### The log of a feed and the conduct towards it -/

/-- What a step adds to the log of the feed of an index, whose slot is given: what the feed does itself,
and what anybody applies to the slot. -/
def Step.notes (i : Nat) (key : SlotKey) (st : Step) : List Note :=
  (match st.move with
    | .feed k a =>
      if k = i then ((st.before.feeds[i]?).bind (·.note? st.before.shared.ledger a)).toList else []
    | _ => [])
  ++ (st.op?.bind (Op.note? key)).toList

/-- The log of a feed along some steps. -/
def log (i : Nat) (key : SlotKey) (steps : List Step) : List Note := steps.flatMap (·.notes i key)

/-- In a step the connector honours its conduct towards the feed of an index, given the creator in
force. -/
structure Step.Honours (conduct : Conduct) (i : Nat) (plan : Option Creation) (st : Step) : Prop where
  hears : ∀ a t, st.move = .feed i a → st.before.feeds[i]? = some t →
    t.Hears conduct plan st.before.shared.ledger a
  agrees : ∀ c, plan = some c → st.Agrees i c.fates

/-- The creator in force for the feed of an index after a step. -/
def Step.planAfter (conduct : Conduct) (i : Nat) (plan : Option Creation) (st : Step) :
    Option Creation :=
  match st.move with
  | .feed k a =>
    if k = i then
      (st.before.feeds[i]?).elim plan (·.planAfter conduct plan st.before.shared.ledger a)
    else plan
  | _ => plan

/-- Along some steps the connector honours its conduct towards the feed of an index. -/
def Honours (conduct : Conduct) (i : Nat) : Option Creation → List Step → Prop
  | _, [] => True
  | plan, st :: rest =>
    st.Honours conduct i plan ∧ Honours conduct i (st.planAfter conduct i plan) rest

/-- The creator in force for the feed of an index after some steps. -/
def planAlong (conduct : Conduct) (i : Nat) (plan : Option Creation) (steps : List Step) :
    Option Creation :=
  steps.foldl (fun plan st => st.planAfter conduct i plan) plan

theorem honours_append {conduct : Conduct} {i : Nat} {plan : Option Creation}
    {first later : List Step} :
    Honours conduct i plan (first ++ later) ↔
      Honours conduct i plan first ∧ Honours conduct i (planAlong conduct i plan first) later := by
  induction first generalizing plan with
  | nil => exact ⟨fun h => ⟨trivial, h⟩, fun h => h.2⟩
  | cons st rest ih =>
    rw [List.cons_append, Honours, Honours, ih, and_assoc]
    rfl

section
variable {conduct : Conduct} {i : Nat} {key : SlotKey} {plan : Option Creation} {s s' : System}
  {move : Move} {effects : List Effect}

theorem notes_of_own {a : Act} {t : FeedTask} (ht : s.feeds[i]? = some t) :
    Step.notes i key ⟨s, .feed i a, effects, s'⟩ = t.notes s.shared.ledger key a := by
  simp only [Step.notes, if_true, ht, Option.bind_some, Step.op?, op?, FeedTask.notes]

theorem planAfter_of_own {a : Act} {t : FeedTask} (ht : s.feeds[i]? = some t) :
    Step.planAfter conduct i plan ⟨s, .feed i a, effects, s'⟩ =
      t.planAfter conduct plan s.shared.ledger a := by
  simp only [Step.planAfter, if_true, ht, Option.elim_some]

theorem planAfter_of_ne (h : ∀ a, move ≠ .feed i a) :
    Step.planAfter conduct i plan ⟨s, move, effects, s'⟩ = plan := by
  unfold Step.planAfter
  split
  · rename_i k a hm
    rw [if_neg]
    rintro rfl
    exact h a hm
  · rfl

theorem notes_of_ne (h : ∀ a, move ≠ .feed i a) :
    Step.notes i key ⟨s, move, effects, s'⟩ = ((s.op? move).bind (Op.note? key)).toList := by
  unfold Step.notes
  split
  · rename_i k a hm
    rw [if_neg]
    · rfl
    · rintro rfl
      exact h a hm
  · rfl

/-- A step that neither the feed of an index nor a partition of it makes. -/
theorem Step.honours_of_ne (hfeed : ∀ a, move ≠ .feed i a) (hpart : ∀ j a, move ≠ .partition i j a) :
    Step.Honours conduct i plan ⟨s, move, effects, s'⟩ :=
  ⟨fun a _ hm => absurd hm (hfeed a), fun _ _ j a _ _ _ hm => absurd hm (hpart j a)⟩

/-- A step of the feed itself. -/
theorem Step.honours_of_own {a : Act} {t : FeedTask} (ht : s.feeds[i]? = some t)
    (hears : t.Hears conduct plan s.shared.ledger a) :
    Step.Honours conduct i plan ⟨s, .feed i a, effects, s'⟩ := by
  refine ⟨?_, ?_⟩
  · rintro b u ⟨⟩ hu
    rw [show s.feeds[i]? = some u from hu] at ht; cases ht
    exact hears
  · rintro c - j b u p f ⟨⟩

/-- A step of a partition of the feed. -/
theorem Step.honours_of_partition {j : Nat} {a : Act} {t : FeedTask} {p : Partition}
    (ht : s.feeds[i]? = some t) (hp : t.parts[j]? = some p)
    (hallows : ∀ c f, plan = some c → c.fates[j]? = some f → f.Allows p.phase a) :
    Step.Honours conduct i plan ⟨s, .partition i j a, effects, s'⟩ := by
  refine ⟨?_, ?_⟩
  · rintro b u ⟨⟩
  · rintro c hc k b u q f ⟨⟩ hu hq hf -
    rw [show s.feeds[i]? = some u from hu] at ht; cases ht
    rw [hp] at hq; cases hq
    exact hallows c f hc hf

end

/-! ### What others do to a slot -/

section
variable {feeds : List Feed} {i : Nat} {stream : Stream} {s s' : System} {move : Move}
  {effects : List Effect}

theorem streams_step (h : s.step move = some (s', effects)) :
    s'.shared.ledger.streams = s.shared.ledger.streams := by
  rw [step_ledger h]
  rcases s.op? move with _ | op
  · rfl
  · exact Ledger.streams_apply _ op

/-- Nobody but a stream feed has its slot. -/
theorem scope?_ne (ho : Orderly feeds s) (hnodup : (feeds.map Feed.key).Nodup)
    (hi : feeds[i]? = some (.stream stream)) {k : Nat} (hk : k ≠ i) {t : FeedTask}
    (ht : s.feeds[k]? = some t) : s.shared.ledger.scope? t.feed ≠ some (.stream stream.id) := by
  have hfeed := ho.feed_eq k t ht
  rcases hf : t.feed with other | g
  · intro hs
    simp only [Ledger.scope?, Ledger.streamScope?] at hs
    split at hs
    · have hid : other.id = stream.id := SlotKey.stream.inj (Option.some.inj hs)
      -- two feeds of one key would be one feed
      have hki : (feeds.map Feed.key)[k]? = (feeds.map Feed.key)[i]? := by
        rw [List.getElem?_map, List.getElem?_map, hfeed, hi, hf]
        simp [Feed.key, hid]
      have hlt : k < (feeds.map Feed.key).length := by
        rw [List.length_map]
        exact (List.getElem?_eq_some_iff.mp hfeed).1
      exact hk ((List.getElem?_inj hlt hnodup).mp hki)
    · cases hs
  · intro hs
    simp only [Ledger.scope?] at hs
    split at hs <;> cases hs

/-- All that others do to the slot of a stream feed is to swap it, if the connector does not reset
it. -/
theorem op?_of_other (ho : Orderly feeds s) (hnodup : (feeds.map Feed.key).Nodup)
    (hi : feeds[i]? = some (.stream stream)) (hne : ∀ a, move ≠ .feed i a)
    (hreset : move ≠ .reset (.stream stream.id)) {op : Ledger.Op} (hop : s.op? move = some op)
    (hkey : op.key = .stream stream.id) : op = .swap (.stream stream.id) := by
  cases move with
  | feed k a =>
    simp only [op?] at hop
    obtain ⟨t, ht, hop⟩ := Option.bind_eq_some_iff.mp hop
    have hk : k ≠ i := by
      rintro rfl
      exact hne a rfl
    unfold FeedTask.op? at hop
    split at hop
    · split at hop
      · obtain ⟨c, -, hop⟩ := Option.bind_eq_some_iff.mp hop
        obtain ⟨key, hscope, hop⟩ := Option.bind_eq_some_iff.mp hop
        cases hop
        rw [show key = .stream stream.id from hkey] at hscope
        exact absurd hscope (scope?_ne ho hnodup hi hk ht)
      · obtain ⟨key, -, rfl⟩ := Option.map_eq_some_iff.mp hop
        rw [show key = .stream stream.id from hkey]
      · cases hop
    · cases hop
  | reset key =>
    cases hop
    rw [show key = .stream stream.id from hkey] at hreset
    exact absurd rfl hreset
  | _ => cases hop

/-- So a step of somebody else leaves the slot as it is or swaps it, and applies nothing to it. -/
theorem slot_of_other (h : s.step move = some (s', effects)) (ho : Orderly feeds s)
    (hnodup : (feeds.map Feed.key).Nodup) (hi : feeds[i]? = some (.stream stream))
    (hne : ∀ a, move ≠ .feed i a) (hreset : move ≠ .reset (.stream stream.id)) {slot : Slot}
    (hslot : s.shared.ledger.slots.find? (.stream stream.id) = some slot) :
    Step.notes i (.stream stream.id) ⟨s, move, effects, s'⟩ = [] ∧
      (s'.shared.ledger.slots.find? (.stream stream.id) = some slot ∨
        s'.shared.ledger.slots.find? (.stream stream.id) = some slot.swap.1) := by
  rw [notes_of_ne hne, step_ledger h]
  rcases hop : s.op? move with _ | op
  · exact ⟨rfl, Or.inl hslot⟩
  · simp only [Option.bind_some, Option.elim_some, Ledger.find?_apply, hslot]
    by_cases hkey : op.key = .stream stream.id
    · obtain rfl := op?_of_other ho hnodup hi hne hreset hop hkey
      exact ⟨rfl, Or.inr (by rw [if_pos hkey]; rfl)⟩
    · refine ⟨?_, Or.inl (by rw [if_neg hkey])⟩
      cases op with
      | set key v records => simp [Op.note?, show key ≠ .stream stream.id from hkey]
      | _ => rfl

end

/-! ### Following the serial reading -/

/-- In a read the stream feed of an index has come so far, with a log, in its serial reading. -/
structure Follows (conduct : Conduct) (factories : Nat) (feeds : List Feed) (i : Nat)
    (stream : Stream) (initial : Option Value) (plan : Option Creation) (log : List Note)
    (s : System) : Prop where
  orderly : Orderly feeds s
  running : s.cancelled = false
  factories_eq : s.factories = factories
  enlisted : stream ∈ s.shared.ledger.streams
  task : ∃ t slot n state past part, s.feeds[i]? = some t ∧
    s.shared.ledger.slots.find? (.stream stream.id) = some slot ∧ t.round = n + 1 ∧
    serial conduct factories stream.id.label initial n = (past, .onward state) ∧
    log = past ++ part ∧
    t.Stands conduct factories (.stream stream.id) state plan part slot t.phase

theorem follows_start (settings : Settings) (factories : Nat) (conduct : Conduct)
    (global : Option (Global × Option Value)) (streams : List (Stream × Option Value)) {i : Nat}
    {stream : Stream} (hi : (Ledger.make global streams).feeds[i]? = some (.stream stream)) :
    Follows conduct factories (Ledger.make global streams).feeds i stream
      ((Ledger.make global streams).current (.stream stream)) none []
      (start settings factories (Ledger.make global streams)) := by
  have hmem : stream ∈ (Ledger.make global streams).streams := by
    have := List.mem_of_getElem? hi
    simp only [Ledger.feeds, List.mem_append, List.mem_map] at this
    rcases this with hg | ⟨st, hst, he⟩
    · simp at hg
    · cases he; exact hst
  obtain ⟨slot, hslot⟩ := Option.isSome_iff_exists.mp
    ((Ledger.enrolled_make global streams).tracked stream hmem)
  obtain ⟨initial, rfl⟩ := Ledger.fresh_make global streams _ slot hslot
  have hcurrent : (Ledger.make global streams).current (.stream stream) = initial := by
    simp [Ledger.current, Ledger.scope?, Ledger.streamScope?, Ledger.currentAt, hslot, Slot.start]
  rw [hcurrent]
  refine ⟨orderly_start settings factories _, rfl, rfl, hmem, ?_⟩
  refine ⟨{ feed := .stream stream }, _, 0, initial, [], [], ?_, hslot, rfl, rfl, rfl, ?_⟩
  · simp only [start, List.getElem?_map, hi, Option.map_some]
  · exact ⟨Slot.quiet_start initial, rfl⟩

section
variable {conduct : Conduct} {factories : Nat} {feeds : List Feed} {i : Nat} {stream : Stream}
  {initial : Option Value} {plan : Option Creation} {notes : List Note} {s s' : System}

theorem Follows.feed_eq (h : Follows conduct factories feeds i stream initial plan notes s)
    (hi : feeds[i]? = some (.stream stream)) {t : FeedTask} (ht : s.feeds[i]? = some t) :
    t.feed = .stream stream := by
  have := h.orderly.feed_eq i t ht
  rw [hi] at this
  exact (Option.some.inj this).symm

/-- Nobody stops a stream feed. -/
theorem Follows.free (h : Follows conduct factories feeds i stream initial plan notes s)
    (hi : feeds[i]? = some (.stream stream)) {t : FeedTask} (ht : s.feeds[i]? = some t) :
    t.cancelledIn (s.feedView i) = false ∧ t.cause = none := by
  obtain ⟨hhalted, hcause⟩ := h.orderly.free i t ht (by rw [h.feed_eq hi ht]; rfl)
  exact ⟨by simp [FeedTask.cancelledIn, feedView, h.running, hhalted], hcause⟩

theorem Follows.step (h : Follows conduct factories feeds i stream initial plan notes s)
    (hnodup : (feeds.map Feed.key).Nodup) (hi : feeds[i]? = some (.stream stream)) {move : Move}
    {effects : List Effect} (hs : s.step move = some (s', effects)) (hcancel : move ≠ .cancel)
    (hreset : move ≠ .reset (.stream stream.id))
    (hconduct : Step.Honours conduct i plan ⟨s, move, effects, s'⟩) :
    Follows conduct factories feeds i stream initial
      (Step.planAfter conduct i plan ⟨s, move, effects, s'⟩)
      (notes ++ Step.notes i (.stream stream.id) ⟨s, move, effects, s'⟩) s' := by
  obtain ⟨t, slot, n, state, past, part, ht, hslot, hround, hserial, rfl, hstands⟩ := h.task
  have hfeed := h.feed_eq hi ht
  have hlabel : t.label = stream.id.label := by rw [FeedTask.label, hfeed]; rfl
  obtain ⟨hv, hcause⟩ := h.free hi ht
  have hscope : s.shared.ledger.scope? t.feed = some (.stream stream.id) := by
    simp [hfeed, Ledger.scope?, Ledger.streamScope?, hslot]
  obtain ⟨-, hfactories, hrunning⟩ := frame_step hs
  refine ⟨h.orderly.step hs, (hrunning hcancel).trans h.running, hfactories.trans h.factories_eq,
    (streams_step hs).symm ▸ h.enlisted, ?_⟩
  have hlt := (List.getElem?_eq_some_iff.mp ht).1
  rcases step_at hs ht with ⟨a, next, rfl, hr, rfl, rfl⟩ | ⟨j, a, p, next, releases, rfl, hp, hr, rfl⟩ |
    ⟨hne, halted, cause, ht', -⟩
  · -- the feed's own step
    rw [notes_of_own ht, planAfter_of_own ht]
    obtain ⟨slot', hslot', ⟨hsame, hnext⟩ | ⟨hmore, state', hend, hnext⟩⟩ :=
      hstands.step hr hv hcause h.factories_eq hscope hslot
        (Ledger.exists_visit_of_mem h.enlisted) (hconduct.hears a t rfl ht)
    · refine ⟨next.task, slot', n, state, past, _, List.getElem?_set_self hlt, hslot',
        hsame.trans hround, hserial, ?_, hnext⟩
      rw [List.append_assoc]
    · refine ⟨next.task, slot', n + 1, state', _, [], List.getElem?_set_self hlt, hslot',
        by rw [hmore, hround], ?_, (List.append_nil _).symm, hnext⟩
      rw [serial_succ hserial, ← hlabel, ← hround, hend, List.append_assoc]
  · -- a step of one of its partitions
    have hne : ∀ b, (Move.partition i j a) ≠ .feed i b := by rintro b ⟨⟩
    obtain ⟨hnotes, -⟩ := slot_of_other hs h.orderly hnodup hi hne hreset hslot
    rw [hnotes, planAfter_of_ne hne, List.append_nil]
    refine ⟨_, slot, n, state, past, part, List.getElem?_set_self hlt, hslot, hround, hserial, rfl, ?_⟩
    exact hstands.step_part hv hp hr
      (fun c hc f hf hh => hconduct.agrees c hc j a t p f rfl ht hp hf hh) releases
  · -- a step of somebody else
    obtain ⟨hnotes, hslot'⟩ := slot_of_other hs h.orderly hnodup hi hne hreset hslot
    rw [hnotes, planAfter_of_ne hne, List.append_nil]
    rcases hslot' with hslot' | hslot'
    · exact ⟨_, slot, n, state, past, part, ht', hslot', hround, hserial, rfl,
        hstands.congr halted cause⟩
    · exact ⟨_, slot.swap.1, n, state, past, part, ht', hslot', hround, hserial, rfl,
        hstands.swap.congr halted cause⟩

theorem Follows.run (h : Follows conduct factories feeds i stream initial plan notes s)
    (hnodup : (feeds.map Feed.key).Nodup) (hi : feeds[i]? = some (.stream stream))
    {moves : List Move} {effects : List Effect} (hrun : s.run moves = some (s', effects))
    (hcancel : Move.cancel ∉ moves) (hreset : Move.reset (.stream stream.id) ∉ moves)
    (hconduct : Honours conduct i plan (s.trace moves)) :
    Follows conduct factories feeds i stream initial (planAlong conduct i plan (s.trace moves))
      (notes ++ log i (.stream stream.id) (s.trace moves)) s' := by
  induction moves generalizing s plan notes effects with
  | nil =>
    cases hrun
    rw [trace_nil, log, List.flatMap_nil, List.append_nil]
    exact h
  | cons move rest ih =>
    obtain ⟨mid, first, later, hm, hl, rfl⟩ := run_cons hrun
    rw [trace_cons hm] at hconduct ⊢
    obtain ⟨hfirst, hrest⟩ := hconduct
    simp only [List.mem_cons, not_or] at hcancel hreset
    have hmid := h.step hnodup hi hm (Ne.symm hcancel.1) (Ne.symm hreset.1) hfirst
    rw [log, List.flatMap_cons, ← List.append_assoc]
    exact ih hmid hl hcancel.2 hreset.2 hrest

/-- A task with a log has come as far as a reading says, and ends as it says. -/
structure Matches (reading : Nat → List Note × Course) (notes : List Note) (t : FeedTask) : Prop where
  isPrefix : notes <+: (reading t.round).1
  ended : ∀ r, t.phase = .done r → reading t.round = (notes, .ended r)
  crashed : ∀ message, t.phase = .crashed message → reading t.round = (notes, .crashed message)

theorem Follows.matches (h : Follows conduct factories feeds i stream initial plan notes s)
    (hi : feeds[i]? = some (.stream stream)) :
    ∃ t, s.feeds[i]? = some t ∧
      Matches (serial conduct factories stream.id.label initial) notes t ∧
      (∀ k, t.phase = .making k →
        s.shared.ledger.current (.stream stream) = stateAfter initial notes) ∧
      (s.result?.isSome = true → t.finished = true) := by
  obtain ⟨t, slot, n, state, past, part, ht, hslot, hround, hserial, rfl, hstands⟩ := h.task
  have hfeed := h.feed_eq hi ht
  have hlabel : t.label = stream.id.label := by rw [FeedTask.label, hfeed]; rfl
  -- the reading up to the end of the round that the task is in
  have hnext : serial conduct factories stream.id.label initial t.round =
      (past ++ (serialRound conduct factories t.label t.round state).1,
        (serialRound conduct factories t.label t.round state).2) := by
    rw [hround, serial_succ hserial, hlabel]
  refine ⟨t, ht, ⟨?_, ?_, ?_⟩, ?_, ?_⟩
  · rw [hnext]
    exact (List.prefix_append_right_inj past).mpr hstands.isPrefix
  · intro r hr
    rw [hr] at hstands
    have hend : serialRound conduct factories t.label t.round state = (part, .ended r) := hstands
    rw [hnext, hend]
  · intro message hm
    rw [hm] at hstands
    have hend : serialRound conduct factories t.label t.round state = (part, .crashed message) :=
      hstands
    rw [hnext, hend]
  · intro k hk
    rw [hk] at hstands
    have hstate : state = stateAfter initial past := by
      have := state_of_serial (show (serial conduct factories stream.id.label initial n).2 = _ by
        rw [hserial])
      rwa [hserial] at this
    have hscope : s.shared.ledger.scope? (.stream stream) = some (.stream stream.id) := by
      simp [Ledger.scope?, Ledger.streamScope?, hslot]
    rw [FeedTask.current_of_scope? hscope hslot, hstands.current_of_making, hstate,
      stateAfter_append]
  · intro hover
    exact h.orderly.finished_of_result? hover ht (by rw [hfeed]; rfl)

end

section
variable {conduct : Conduct} {factories : Nat} {feed : String} {initial : Option Value}
  {notes notes' : List Note} {t t' : FeedTask}

/-- Of two logs that match one serial reading, one is the beginning of the other. -/
theorem Matches.comparable (h : Matches (serial conduct factories feed initial) notes t)
    (h' : Matches (serial conduct factories feed initial) notes' t') :
    notes <+: notes' ∨ notes' <+: notes :=
  List.prefix_or_prefix_of_prefix
    (h.isPrefix.trans (serial_isPrefix (Nat.le_max_left t.round t'.round)))
    (h'.isPrefix.trans (serial_isPrefix (Nat.le_max_right t.round t'.round)))

/-- A finished task has come to the end of the serial reading. -/
theorem Matches.exists_course (h : Matches (serial conduct factories feed initial) notes t)
    (hf : t.finished = true) :
    ∃ course, Course.phase? course = some t.phase ∧
      serial conduct factories feed initial t.round = (notes, course) := by
  unfold FeedTask.finished at hf
  split at hf
  · rename_i r hp
    exact ⟨.ended r, by rw [hp]; rfl, h.ended r hp⟩
  · rename_i message hp
    exact ⟨.crashed message, by rw [hp]; rfl, h.crashed message hp⟩
  · cases hf

/-- A task that is over has the log and the end that the serial reading comes to. -/
theorem Matches.eq_of_stopped (h : Matches (serial conduct factories feed initial) notes t)
    (hf : t.finished = true) {n : Nat} {phase : FeedTask.Phase}
    (hn : (serial conduct factories feed initial n).2.phase? = some phase) :
    notes = (serial conduct factories feed initial n).1 ∧ t.phase = phase := by
  obtain ⟨course, hphase, heq⟩ := h.exists_course hf
  have hmax := serial_of_stopped (by rw [heq]; exact hphase) (Nat.le_max_left t.round n)
  have hmax' := serial_of_stopped hn (Nat.le_max_right t.round n)
  rw [hmax', heq] at hmax
  rw [hmax] at hn ⊢
  exact ⟨rfl, Option.some.inj (hphase.symm.trans hn)⟩

/-- Two finished tasks that match one serial reading have one log and one end. -/
theorem Matches.eq_of_finished (h : Matches (serial conduct factories feed initial) notes t)
    (h' : Matches (serial conduct factories feed initial) notes' t') (hf : t.finished = true)
    (hf' : t'.finished = true) : notes = notes' ∧ t.phase = t'.phase := by
  obtain ⟨course, hphase, heq⟩ := h'.exists_course hf'
  have hend := h.eq_of_stopped hf (n := t'.round) (by rw [heq]; exact hphase)
  rw [heq] at hend
  exact hend

end

end Intake.Read.System
