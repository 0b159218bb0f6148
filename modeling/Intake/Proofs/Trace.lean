import Intake.Proofs.Rules
/-!
# The trace of a read

`System.run` answers with the last state and with all effects in one list. Most statements about a read
need to know who did what: `System.trace` lists the steps of a run, each with the states around it, its
move and its effects.

What a read does to the ledger is one of three things on one slot (`Ledger.Op`), and `System.op?` says
which of them a move is. The main statement is `step_ledger`: a step changes the ledger by the operation
of its move and in no other way. Every later statement about slots goes through it.
-/

namespace Intake

namespace Ledger

/-- What can happen to a slot of a ledger. -/
inductive Op
  | set (key : SlotKey) (state : Value) (records : Nat)
  | reset (key : SlotKey)
  | swap (key : SlotKey)

/-- The slot an operation is about. -/
def Op.key : Op → SlotKey
  | .set key _ _ => key
  | .reset key => key
  | .swap key => key

/-- The ledger after an operation. -/
def apply (l : Ledger) : Op → Ledger
  | .set key state records => l.set key state records
  | .reset key => l.reset key
  | .swap key => (l.swapAt key).1

/-- The slot after an operation on it. -/
def Op.onSlot : Op → Slot → Slot
  | .set _ state records, slot => slot.set state records
  | .reset _, slot => slot.reset
  | .swap _, slot => slot.swap.1

/-- An operation changes the slot it is about and leaves every other slot alone. -/
theorem find?_apply (l : Ledger) (op : Op) (key : SlotKey) :
    (l.apply op).slots.find? key =
      if op.key = key then (l.slots.find? key).map op.onSlot else l.slots.find? key := by
  cases op with
  | set k state records =>
    simp only [apply, Ledger.set, Table.find?_adjust, Op.key]
    by_cases hk : k = key
    · subst hk; simp only [if_true]; rfl
    · simp [hk]
  | reset k =>
    simp only [apply, Ledger.reset, Table.find?_adjust, Op.key]
    by_cases hk : k = key
    · subst hk; simp only [if_true]; rfl
    · simp [hk]
  | swap k =>
    simp only [apply, swapAt, Op.key]
    rcases hf : l.slots.find? k with _ | slot
    · by_cases hk : k = key
      · subst hk; simp [hf]
      · simp [hk]
    · rw [Table.find?_put]
      by_cases hk : k = key
      · subst hk; simp [hf, Op.onSlot]
      · simp [hk]

@[simp] theorem global_apply (l : Ledger) (op : Op) : (l.apply op).global = l.global := by
  cases op with
  | set | reset => rfl
  | swap key => simp only [apply, swapAt]; split <;> rfl

@[simp] theorem streams_apply (l : Ledger) (op : Op) : (l.apply op).streams = l.streams := by
  cases op with
  | set | reset => rfl
  | swap key => simp only [apply, swapAt]; split <;> rfl

/-- No operation makes a slot or takes one away. -/
@[simp] theorem isSome_find?_apply (l : Ledger) (op : Op) (key : SlotKey) :
    ((l.apply op).slots.find? key).isSome = (l.slots.find? key).isSome := by
  rw [find?_apply]
  split <;> simp

/-- Every feed keeps its slot. -/
@[simp] theorem scope?_apply (l : Ledger) (op : Op) (feed : Feed) :
    (l.apply op).scope? feed = l.scope? feed := by
  cases feed with
  | global g => simp [scope?]
  | stream st => simp [scope?, streamScope?]

/-- What there is to visit stays the same. -/
@[simp] theorem plan_apply (l : Ledger) (op : Op) : (l.apply op).plan = l.plan := by
  simp [plan, standalone, isMember]

/-- A visit changes the ledger as a swap of its slot does. -/
theorem visit_fst (l : Ledger) (d : Draft) (v : Visit) :
    (l.visit d v).1 = (v.key?.map Op.swap).elim l l.apply := by
  unfold visit
  rcases hv : v.key? with _ | key
  · simp only [Option.map_none, Option.elim_none]
    split <;> rfl
  · simp only [Option.map_some, Option.elim_some, apply]
    rcases l.swapAt key with ⟨l', _ | report⟩ <;> rfl

/-- A visit swaps the slot it is for and leaves every other slot alone. -/
theorem find?_visit (l : Ledger) (d : Draft) (v : Visit) (key : SlotKey) :
    (l.visit d v).1.slots.find? key =
      if v.key? = some key then (l.slots.find? key).map (·.swap.1) else l.slots.find? key := by
  rw [visit_fst]
  rcases hv : v.key? with _ | k
  · rfl
  · simp only [Option.map_some, Option.elim_some, find?_apply, Op.key, Option.some.injEq]
    rfl

/-- All that may follow a visit is that a slot is read. -/
theorem follow_cases (l : Ledger) (v : Visit) : l.follow v = [] ∨ ∃ key, l.follow v = [.look key] := by
  have hlook : ∀ key, l.lookAt key = [] ∨ ∃ k, l.lookAt key = [.look k] := by
    intro key
    unfold lookAt
    split
    · exact Or.inr ⟨key, rfl⟩
    · exact Or.inl rfl
  cases v with
  | shared => exact hlook .shared
  | member id => exact hlook (.stream id)
  | wrap | alone | look => exact Or.inl rfl

/-- What follows a visit swaps nothing. -/
theorem key?_of_mem_follow {l : Ledger} {v w : Visit} (h : w ∈ l.follow v) : w.key? = none := by
  rcases l.follow_cases v with hnil | ⟨key, hlook⟩
  · rw [hnil] at h
    cases h
  · rw [hlook, List.mem_singleton] at h
    rw [h]
    rfl

/-- A visit that is followed by nothing. -/
theorem attend_of_follow {l : Ledger} {v : Visit} (h : l.follow v = []) (d : Draft) :
    l.attend d v = l.visit d v := by
  rw [attend, h]
  rfl

/-- A visit after which a slot is read. -/
theorem attend_of_look {l : Ledger} {v : Visit} {key : SlotKey} (h : l.follow v = [.look key]) (d : Draft) :
    l.attend d v = (l.visit d v).1.visit (l.visit d v).2 (.look key) := by
  rw [attend, h]
  rfl

/-- What follows a visit leaves the ledger as it is. -/
theorem attend_fst (l : Ledger) (d : Draft) (v : Visit) : (l.attend d v).1 = (l.visit d v).1 := by
  rcases l.follow_cases v with hnil | ⟨key, hlook⟩
  · rw [attend_of_follow hnil]
  · rw [attend_of_look hlook]
    rfl

end Ledger

namespace Read

/-! ### What a move does to the ledger -/

namespace FeedTask

/-- The operation on the ledger that an act of a feed is, if it is one: applying a checkpoint, or
visiting a slot. -/
def op? (t : FeedTask) (l : Ledger) : Act → Option Ledger.Op
  | .go =>
    match t.phase with
    | .reading r => do
      let c ← r.next?
      let key ← l.scope? t.feed
      return .set key c.state c.records
    | .visiting (v :: _) _ _ => v.key?.map .swap
    | _ => none
  | _ => none

theorem op?_of_acquiring {t : FeedTask} {p : Acquisition.Phase} (hp : t.phase = .acquiring p)
    (l : Ledger) (a : Act) : t.op? l a = none := by
  cases a <;> simp only [op?, hp]

theorem ledger_applyCheckpoint (t : FeedTask) (s : Shared) (c : Checkpoint) :
    (t.applyCheckpoint s c).ledger =
      ((s.ledger.scope? t.feed).map fun key => Ledger.Op.set key c.state c.records).elim
        s.ledger s.ledger.apply := by
  unfold applyCheckpoint
  rcases s.ledger.scope? t.feed with _ | key <;> rfl

/-- A step of a feed changes the ledger by the operation of its act and in no other way. -/
theorem Rule.ledger {v : View} {t : FeedTask} {s : Shared} {a : Act} {next : Next}
    (h : Rule v t s a next) :
    next.shared.ledger = (t.op? s.ledger a).elim s.ledger s.ledger.apply := by
  cases h with
  | applies hp hn =>
    simp only [op?, hp, hn, gotoWith, ledger_applyCheckpoint]
    rcases s.ledger.scope? t.feed with _ | key <;> rfl
  | visits hp => simp only [op?, hp, goto, Ledger.visit_fst]
  | closes hp hn _ => simp only [op?, hp, hn]; rfl
  | @unlocks count next hp => simp only [op?, hp]; cases next <;> rfl
  | acquireMoves hp hm _ | acquireRetries hp hm _ | acquires hp hm _ | acquireFails hp hm _
  | acquireCrashes hp hm _ =>
    rw [op?_of_acquiring hp]; rfl
  | joins | isDeclined | makes | makeCrashes | creates | createFails | createCrashes | quits => rfl
  | _ hp => simp only [op?, hp]; rfl

end FeedTask

namespace System

/-- The operation on the ledger that a move is, if it is one. -/
def op? (s : System) : Move → Option Ledger.Op
  | .feed i a => (s.feeds[i]?).bind (·.op? s.shared.ledger a)
  | .reset key => some (.reset key)
  | _ => none

/-! ### Moves of the feeds and of the supervisor -/

/-- A move of a feed is a step of its task by one of the rules. -/
theorem step_feed {s s' : System} {i : Nat} {a : Act} {effects : List Effect}
    (h : s.step (.feed i a) = some (s', effects)) :
    ∃ t next, s.feeds[i]? = some t ∧ FeedTask.Rule (s.feedView i) t s.shared a next ∧
      s' = { s with shared := next.shared, feeds := s.feeds.set i next.task } ∧
      effects = next.effects := by
  simp only [step] at h
  split at h
  · obtain ⟨t, ht, h⟩ := Option.bind_eq_some_iff.mp h
    obtain ⟨next, hn, h⟩ := Option.bind_eq_some_iff.mp h
    cases h
    exact ⟨t, next, ht, FeedTask.rule_of_step hn, rfl, rfl⟩
  · cases h

/-- A move of a partition is a step of its task by one of the rules, and the gate of its feed counts the
release it is told of. -/
theorem step_partition_gate {s s' : System} {i j : Nat} {a : Act} {effects : List Effect}
    (h : s.step (.partition i j a) = some (s', effects)) :
    ∃ t p next, s.feeds[i]? = some t ∧ t.parts[j]? = some p ∧
      Partition.Rule (t.partView (s.feedView i) j p) p a next ∧
      s' = { s with feeds := s.feeds.set i { t with
        parts := t.parts.set j next.task
        releases := if next.notified then t.releases + 1 else t.releases } } ∧
      effects = next.effects := by
  simp only [step] at h
  obtain ⟨t, ht, h⟩ := Option.bind_eq_some_iff.mp h
  obtain ⟨⟨t', es⟩, hs, h⟩ := Option.bind_eq_some_iff.mp h
  cases h
  unfold FeedTask.stepPart at hs
  obtain ⟨p, hp, hs⟩ := Option.bind_eq_some_iff.mp hs
  obtain ⟨next, hn, hs⟩ := Option.bind_eq_some_iff.mp hs
  cases hs
  exact ⟨t, p, next, ht, hp, Partition.rule_of_step hn, rfl, rfl⟩

/-- A move of a partition is a step of its task by one of the rules; of its feed it changes only the
partition itself and the count of releases. -/
theorem step_partition {s s' : System} {i j : Nat} {a : Act} {effects : List Effect}
    (h : s.step (.partition i j a) = some (s', effects)) :
    ∃ t p next releases, s.feeds[i]? = some t ∧ t.parts[j]? = some p ∧
      Partition.Rule (t.partView (s.feedView i) j p) p a next ∧
      s' = { s with feeds := s.feeds.set i { t with parts := t.parts.set j next.task, releases } } ∧
      effects = next.effects := by
  obtain ⟨t, p, next, ht, hp, hr, hs', he⟩ := step_partition_gate h
  exact ⟨t, p, next, _, ht, hp, hr, hs', he⟩

/-- A step that the task of a partition can make is a move that the read can make. -/
theorem step_partition_of {s : System} {i j : Nat} {a : Act} {t : FeedTask} {p : Partition}
    {next : Partition.Next} (ht : s.feeds[i]? = some t) (hp : t.parts[j]? = some p)
    (hstep : p.step (t.partView (s.feedView i) j p) a = some next) :
    ∃ releases, s.step (.partition i j a) = some ({ s with
      feeds := s.feeds.set i { t with parts := t.parts.set j next.task, releases } },
      next.effects) := by
  refine ⟨if next.notified then t.releases + 1 else t.releases, ?_⟩
  simp only [System.step, ht, Option.bind_eq_bind, Option.bind_some, FeedTask.stepPart, hp, hstep]
  rfl

/-- The supervisor leaves the ledger alone. -/
theorem supervise_ledger {s s' : System} {effects : List Effect}
    (h : s.supervise = some (s', effects)) : s'.shared.ledger = s.shared.ledger := by
  cases supervision_of_supervise h <;> rfl

/-- A step changes the ledger by the operation of its move and in no other way. -/
theorem step_ledger {s s' : System} {move : Move} {effects : List Effect}
    (h : s.step move = some (s', effects)) :
    s'.shared.ledger = (s.op? move).elim s.shared.ledger s.shared.ledger.apply := by
  cases move with
  | feed i a =>
    obtain ⟨t, next, ht, hr, rfl, -⟩ := step_feed h
    simp only [op?, ht, Option.bind_some, hr.ledger]
  | partition i j a =>
    obtain ⟨t, p, next, releases, -, -, -, rfl, -⟩ := step_partition h
    rfl
  | supervise => exact supervise_ledger h
  | cancel | reset _ | record _ => cases h; rfl

/-- The feeds that the supervisor is about to look at, or to stop. -/
def Watch.targets : Watch → List Nat
  | .checking left => left
  | .halting left i => i :: left
  | _ => []

/-- What a step is for the feed of an index: one of its own steps, a step of one of its partitions, or
something that leaves its task alone, unless the supervisor stops it. -/
theorem step_at {s s' : System} {move : Move} {effects : List Effect} {i : Nat} {t : FeedTask}
    (h : s.step move = some (s', effects)) (ht : s.feeds[i]? = some t) :
    (∃ a next, move = .feed i a ∧ FeedTask.Rule (s.feedView i) t s.shared a next ∧
      s' = { s with shared := next.shared, feeds := s.feeds.set i next.task } ∧
      effects = next.effects) ∨
    (∃ j a p next releases, move = .partition i j a ∧ t.parts[j]? = some p ∧
      Partition.Rule (t.partView (s.feedView i) j p) p a next ∧
      s' = { s with feeds := s.feeds.set i { t with parts := t.parts.set j next.task, releases } }) ∨
    ((∀ a, move ≠ .feed i a) ∧ ∃ halted cause, s'.feeds[i]? = some { t with halted, cause } ∧
      (i ∉ Watch.targets s.watch → halted = t.halted ∧ cause = t.cause)) := by
  have hlt := (List.getElem?_eq_some_iff.mp ht).1
  cases move with
  | feed k a =>
    obtain ⟨u, next, hu, hr, rfl, rfl⟩ := step_feed h
    by_cases hk : k = i
    · subst hk
      rw [ht] at hu; cases hu
      exact Or.inl ⟨a, next, rfl, hr, rfl, rfl⟩
    · refine Or.inr (Or.inr ⟨fun a' ha => ?_, t.halted, t.cause, ?_, fun _ => ⟨rfl, rfl⟩⟩)
      · cases ha; exact hk rfl
      · simp only [List.getElem?_set, if_neg hk]; exact ht
  | partition k j a =>
    obtain ⟨u, p, next, releases, hu, hp, hr, rfl, -⟩ := step_partition h
    by_cases hk : k = i
    · subst hk
      rw [ht] at hu; cases hu
      exact Or.inr (Or.inl ⟨j, a, p, next, releases, rfl, hp, hr, rfl⟩)
    · refine Or.inr (Or.inr ⟨nofun, t.halted, t.cause, ?_, fun _ => ⟨rfl, rfl⟩⟩)
      simp only [List.getElem?_set, if_neg hk]; exact ht
  | supervise =>
    refine Or.inr (Or.inr ⟨nofun, ?_⟩)
    cases supervision_of_supervise h with
    | @blames k left u cause hw hu hf hc =>
      by_cases hk : k = i
      · subst hk
        rw [ht] at hu; cases hu
        refine ⟨t.halted, some (t.cause.getD cause), by simp [hlt], fun hn => ?_⟩
        exact absurd (by rw [hw]; exact List.mem_cons_self) hn
      · refine ⟨t.halted, t.cause, ?_, fun _ => ⟨rfl, rfl⟩⟩
        simp only [List.getElem?_set, if_neg hk]; exact ht
    | @halts k left hw =>
      by_cases hk : k = i
      · subst hk
        refine ⟨true, t.cause, by simp [ht], fun hn => ?_⟩
        exact absurd (by rw [hw]; exact List.mem_cons_self) hn
      · exact ⟨t.halted, t.cause, by simp [hk, ht], fun _ => ⟨rfl, rfl⟩⟩
    | _ => exact ⟨t.halted, t.cause, ht, fun _ => ⟨rfl, rfl⟩⟩
  | cancel | reset _ | record _ =>
    cases h
    exact Or.inr (Or.inr ⟨nofun, t.halted, t.cause, ht, fun _ => ⟨rfl, rfl⟩⟩)

/-- The slot of a feed is the same before and after a step. -/
theorem scope?_step {s s' : System} {move : Move} {effects : List Effect}
    (h : s.step move = some (s', effects)) (feed : Feed) :
    s'.shared.ledger.scope? feed = s.shared.ledger.scope? feed := by
  rw [step_ledger h]
  rcases s.op? move with _ | op
  · rfl
  · exact Ledger.scope?_apply _ op feed

/-- A read that has begun does not go back. -/
theorem begun_step {s s' : System} {move : Move} {effects : List Effect}
    (h : s.step move = some (s', effects)) (hb : s.begun = true) : s'.begun = true := by
  cases move with
  | feed i a =>
    obtain ⟨t, next, -, -, rfl, -⟩ := step_feed h
    exact hb
  | partition i j a =>
    obtain ⟨t, p, next, releases, -, -, -, rfl, -⟩ := step_partition h
    exact hb
  | supervise => cases supervision_of_supervise h <;> rfl
  | cancel | reset _ | record _ => cases h; exact hb

/-! ### Traces -/

/-- One step of a run, with the states before and after it. -/
structure Step where
  before : System
  move : Move
  effects : List Effect
  after : System

/-- The steps of a run, as far as its moves can be made. -/
def trace (s : System) : List Move → List Step
  | [] => []
  | move :: rest =>
    match s.step move with
    | none => []
    | some (s', effects) => ⟨s, move, effects, s'⟩ :: trace s' rest

/-- Whether a step is one of the feed of an index. -/
def Step.byFeed (i : Nat) (st : Step) : Bool :=
  match st.move with
  | .feed j _ => j == i
  | _ => false

/-- What a step does to the ledger. -/
def Step.op? (st : Step) : Option Ledger.Op := st.before.op? st.move

@[simp] theorem trace_nil (s : System) : s.trace [] = [] := rfl

theorem trace_cons {s s' : System} {move : Move} {effects : List Effect}
    (h : s.step move = some (s', effects)) (rest : List Move) :
    s.trace (move :: rest) = ⟨s, move, effects, s'⟩ :: s'.trace rest := by
  simp only [trace, h]

/-- The steps of a run make moves of its schedule. -/
theorem move_mem_of_mem_trace {s : System} {moves : List Move} {st : Step}
    (h : st ∈ s.trace moves) : st.move ∈ moves := by
  induction moves generalizing s with
  | nil => cases h
  | cons move rest ih =>
    rcases hm : s.step move with _ | ⟨s', effects⟩
    · simp [trace, hm] at h
    · rw [trace_cons hm] at h
      rcases List.mem_cons.mp h with rfl | hrest
      · exact List.mem_cons_self
      · exact List.mem_cons_of_mem _ (ih hrest)

/-- The steps of a run are steps of the read. -/
theorem step_of_mem_trace {s : System} {moves : List Move} {st : Step} (h : st ∈ s.trace moves) :
    st.before.step st.move = some (st.after, st.effects) := by
  induction moves generalizing s with
  | nil => cases h
  | cons move rest ih =>
    rcases hm : s.step move with _ | ⟨s', effects⟩
    · simp [trace, hm] at h
    · rw [trace_cons hm] at h
      rcases List.mem_cons.mp h with rfl | hrest
      · exact hm
      · exact ih hrest

/-- A run that can be made is a first step and a run from there. -/
theorem run_cons {s s' : System} {move : Move} {rest : List Move} {effects : List Effect}
    (h : s.run (move :: rest) = some (s', effects)) :
    ∃ mid first later, s.step move = some (mid, first) ∧ mid.run rest = some (s', later) ∧
      effects = first ++ later := by
  simp only [run] at h
  obtain ⟨⟨mid, first⟩, hm, h⟩ := Option.bind_eq_some_iff.mp h
  obtain ⟨⟨last, later⟩, hl, h⟩ := Option.bind_eq_some_iff.mp h
  cases h
  exact ⟨mid, first, later, hm, hl, rfl⟩

/-- A first step and a run from there are a run. -/
theorem run_cons_of {s mid s' : System} {move : Move} {rest : List Move} {first later : List Effect}
    (hm : s.step move = some (mid, first)) (hl : mid.run rest = some (s', later)) :
    s.run (move :: rest) = some (s', first ++ later) := by
  simp only [System.run, hm, Option.bind_eq_bind, Option.bind_some, hl]
  rfl

/-- Two runs, one after the other, are a run, and their steps are its steps. -/
theorem run_append {s mid s' : System} {moves more : List Move} {first later : List Effect}
    (hm : s.run moves = some (mid, first)) (hl : mid.run more = some (s', later)) :
    s.run (moves ++ more) = some (s', first ++ later) ∧
      s.trace (moves ++ more) = s.trace moves ++ mid.trace more := by
  induction moves generalizing s first with
  | nil =>
    cases hm
    exact ⟨hl, rfl⟩
  | cons move rest ih =>
    obtain ⟨next, effects, further, hs, hrest, rfl⟩ := run_cons hm
    obtain ⟨hrun, htrace⟩ := ih hrest
    rw [List.cons_append, trace_cons hs, trace_cons hs, htrace, List.append_assoc]
    exact ⟨run_cons_of hs hrun, rfl⟩

/-- The steps of a run around one of them are the steps of runs to it and from it. -/
theorem run_split {s s' : System} {moves : List Move} {effects : List Effect} {earlier later : List Step}
    {st : Step} (h : s.run moves = some (s', effects))
    (hsplit : s.trace moves = earlier ++ st :: later) :
    ∃ first more before after, s.run first = some (st.before, before) ∧
      st.after.run more = some (s', after) ∧ st.after.trace more = later := by
  induction earlier generalizing s moves effects with
  | nil =>
    rcases moves with _ | ⟨move, rest⟩
    · cases hsplit
    · obtain ⟨mid, first, tail, hstep, hrest, rfl⟩ := run_cons h
      rw [trace_cons hstep] at hsplit
      cases hsplit
      exact ⟨[], rest, [], tail, rfl, hrest, rfl⟩
  | cons x earlier ih =>
    rcases moves with _ | ⟨move, rest⟩
    · cases hsplit
    · obtain ⟨mid, first, tail, hstep, hrest, rfl⟩ := run_cons h
      rw [trace_cons hstep] at hsplit
      obtain ⟨initial, more, before, after, hinitial, hmore, htrace⟩ := ih hrest (List.cons.inj hsplit).2
      exact ⟨move :: initial, more, first ++ before, after, run_cons_of hstep hinitial, hmore, htrace⟩

/-- The effects of a run are those of its steps. -/
theorem effects_eq_trace {s s' : System} {moves : List Move} {effects : List Effect}
    (h : s.run moves = some (s', effects)) : effects = (s.trace moves).flatMap (·.effects) := by
  induction moves generalizing s effects with
  | nil => cases h; rfl
  | cons move rest ih =>
    obtain ⟨mid, first, later, hm, hl, rfl⟩ := run_cons h
    rw [trace_cons hm, List.flatMap_cons, ← ih hl]

/-- The ledger after a run is the one before it with the operations of all steps made in order. -/
theorem ledger_eq_trace {s s' : System} {moves : List Move} {effects : List Effect}
    (h : s.run moves = some (s', effects)) :
    s'.shared.ledger = ((s.trace moves).filterMap (·.op?)).foldl Ledger.apply s.shared.ledger := by
  induction moves generalizing s effects with
  | nil => cases h; rfl
  | cons move rest ih =>
    obtain ⟨mid, first, later, hm, hl, rfl⟩ := run_cons h
    rw [trace_cons hm, ih hl, step_ledger hm]
    simp only [List.filterMap_cons, Step.op?]
    rcases s.op? move with _ | op <;> rfl

/-- What holds before any step was made, and goes on holding with every step of a run, holds after the run
with all its steps. -/
theorem run_induction {P : List Step → System → Prop} {s s' : System} {moves : List Move}
    {effects : List Effect} (h : s.run moves = some (s', effects)) (hstart : P [] s)
    (hstep : ∀ past st, st ∈ s.trace moves → st.before.step st.move = some (st.after, st.effects) →
      P past st.before → P (past ++ [st]) st.after) : P (s.trace moves) s' := by
  -- with the steps made so far in front
  have hfrom : ∀ past, P past s → P (past ++ s.trace moves) s' := by
    clear hstart
    induction moves generalizing s effects with
    | nil =>
      cases h
      intro past hpast
      rwa [trace_nil, List.append_nil]
    | cons move rest ih =>
      obtain ⟨mid, first, later, hm, hl, rfl⟩ := run_cons h
      rw [trace_cons hm] at hstep ⊢
      intro past hpast
      have hmid := hstep past ⟨s, move, first, mid⟩ List.mem_cons_self hm hpast
      have hrest := ih hl (fun past st hst => hstep past st (List.mem_cons_of_mem _ hst)) _ hmid
      rwa [List.append_assoc] at hrest
  exact hfrom [] hstart

end System

end Read

end Intake
