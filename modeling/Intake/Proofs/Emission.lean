import Intake.Proofs.Desk
import Intake.Proofs.Supervision
/-!
# A read at the desk

In a read many feeds hand out, each in the middle of its own work, while the others apply their
checkpoints and the connector resets slots. The lock makes them take turns: at any time at most one feed
visits slots or writes states (`Mirrors`), so all of them together are the one who hands out at a `Desk`.

The main statement is `exists_desk_run`: for every schedule of a read there is a run of a desk in which the
same is done to the slots, in the same order, and in which the states that the read writes are the output.
-/

namespace Intake

namespace Ledger

/-- What an entry says was done to a slot. -/
def Entry.op? : Entry → Option Op
  | .set key state records => some (.set key state records)
  | .reset key => some (.reset key)
  | .swap key _ => some (.swap key)
  | .look _ _ => none
  | .write _ => none

/-- What was done to slots, in order. -/
def ops (h : List Entry) : List Op := h.filterMap Entry.op?

/-- An operation, if it is on a slot that is there. -/
def effective? (l : Ledger) (op? : Option Op) : Option Op :=
  op?.filter fun op => (l.slots.find? op.key).isSome

section
variable {l : Ledger} {op : Op}

theorem effective?_of_isSome (h : (l.slots.find? op.key).isSome = true) :
    l.effective? (some op) = some op := by
  rw [effective?, Option.filter_some, if_pos h]

theorem effective?_of_missing (h : l.slots.find? op.key = none) : l.effective? (some op) = none := by
  rw [effective?, Option.filter_some, if_neg]
  rw [h]
  nofun

/-- Setting, resetting or swapping a slot that is not there does nothing. -/
theorem apply_of_missing (hs : l.slots.find? op.key = none) :
    l.apply op = l := by
  cases op with
  | set key state records =>
    have hkey : l.slots.find? key = none := hs
    rw [apply, Ledger.set, Table.adjust_of_find?_eq_none hkey]
  | reset key =>
    have hkey : l.slots.find? key = none := hs
    rw [apply, Ledger.reset, Table.adjust_of_find?_eq_none hkey]
  | swap key =>
    have hkey : l.slots.find? key = none := hs
    simp only [apply, swapAt, hkey]

end

theorem ops_notes (l : Ledger) (v : Visit) :
    ops (Desk.notes l v) = (l.effective? (v.key?.map .swap)).toList := by
  unfold Desk.notes
  rcases v.key? with _ | key
  · simp only
    split <;> rfl
  · show ops ((l.slots.find? key).toList.map fun slot => .swap key slot.swap.2) = _
    rcases hs : l.slots.find? key with _ | slot
    · have hnone : l.effective? (some (.swap key)) = none := effective?_of_missing hs
      rw [Option.map_some, hnone]
      rfl
    · have hsome : l.effective? (some (.swap key)) = some (.swap key) :=
        effective?_of_isSome (Option.isSome_of_eq_some hs)
      rw [Option.map_some, hsome]
      rfl

end Ledger

open Ledger (ops)

/-- A set or reset is made at the desk, unless the slot is not there. -/
theorem Desk.exists_run_op (d : Desk) (op : Ledger.Op) (hop : ∀ key, op ≠ .swap key) :
    ∃ acts entries, d.run acts = some (⟨d.ledger.apply op, d.job⟩, entries) ∧
      ops entries = (d.ledger.effective? (some op)).toList ∧ Ledger.output entries = [] := by
  by_cases hthere : (d.ledger.slots.find? op.key).isSome = true
  · rw [Ledger.effective?_of_isSome hthere]
    cases op with
    | set key state records =>
      refine ⟨[.set key state records], [.set key state records], ?_, rfl, rfl⟩
      refine run_cons.mpr ⟨_, [.set key state records], [], ?_, rfl, rfl⟩
      exact if_pos hthere
    | reset key =>
      refine ⟨[.reset key], [.reset key], ?_, rfl, rfl⟩
      refine run_cons.mpr ⟨_, [.reset key], [], ?_, rfl, rfl⟩
      exact if_pos hthere
    | swap key => exact absurd rfl (hop key)
  · have hmissing : d.ledger.slots.find? op.key = none := by simpa using hthere
    rw [Ledger.effective?_of_missing hmissing, Ledger.apply_of_missing hmissing]
    exact ⟨[], [], rfl, rfl, rfl⟩

namespace Read

/-- Where a feed that has the lock stands with handing out. -/
def FeedTask.Phase.job? : FeedTask.Phase → Option Desk.Job
  | .visiting left draft _ => some (.visiting left draft)
  | .writing left _ _ => some (.writing left)
  | _ => none

/-- The state that an effect writes. -/
def Effect.state? : Effect → Option StateMessage
  | .write (.state m) => some m
  | _ => none

/-- The states among the effects of steps, in order. -/
def states (effects : List Effect) : List StateMessage := effects.filterMap Effect.state?

theorem states_append (first later : List Effect) :
    states (first ++ later) = states first ++ states later :=
  List.filterMap_append

/-! ### Tasks -/

theorem Partition.Rule.states_eq {v : Partition.View} {t : Partition} {a : Act}
    {next : Partition.Next} (h : Partition.Rule v t a next) : states next.effects = [] := by
  cases h with
  | opens => rcases t.limit v with _ | d <;> rfl
  | _ => rfl

namespace FeedTask

theorem states_tell (t : FeedTask) (s : Shared) (n : Notice) (id : StreamId) :
    states (t.tell s n id).2 = [] := by
  unfold states tell
  rw [List.filterMap_map]
  exact List.filterMap_eq_nil_iff.mpr fun _ _ => rfl

/-- A step of a feed that has nothing to do with handing out. -/
structure Apart (t : FeedTask) (s : Shared) (next : Next) : Prop where
  before : t.phase.job? = none
  after : next.task.phase.job? = none
  locked : next.shared.locked = s.locked
  states_eq : states next.effects = []

/-- A step of a feed that is a step of handing out: it has the lock, or takes it. -/
structure Hands (t : FeedTask) (s : Shared) (a : Act) (next : Next) : Prop where
  free : t.phase.job? = none → s.locked = false
  locked : (t.phase.job?.isSome = true → s.locked = true) →
    next.shared.locked = next.task.phase.job?.isSome
  hand : ∃ entries, Desk.hand ⟨s.ledger, t.phase.job?.getD .idle⟩ =
      (⟨next.shared.ledger, next.task.phase.job?.getD .idle⟩, entries) ∧
    ops entries = (s.ledger.effective? (t.op? s.ledger a)).toList ∧
    Ledger.output entries = states next.effects

/-- A feed that is not handing out swaps no slot. -/
theorem op?_ne_swap {t : FeedTask} {l : Ledger} {a : Act} {op : Ledger.Op}
    (hjob : t.phase.job? = none) (hop : t.op? l a = some op) : ∀ key, op ≠ .swap key := by
  rintro key rfl
  unfold op? at hop
  split at hop
  · split at hop
    · obtain ⟨c, -, hop⟩ := Option.bind_eq_some_iff.mp hop
      obtain ⟨k, -, hop⟩ := Option.bind_eq_some_iff.mp hop
      cases hop
    · rename_i hp
      rw [hp] at hjob
      cases hjob
    · cases hop
  · cases hop

/-- A step of a feed that has the lock and keeps it. -/
theorem hands_of_job {t : FeedTask} {s : Shared} {a : Act} {next : Next} {job job' : Desk.Job}
    {entries : List Ledger.Entry} (hjob : t.phase.job? = some job) (hjob' : next.task.phase.job? = some job')
    (hlocked : next.shared.locked = s.locked)
    (hhand : Desk.hand ⟨s.ledger, job⟩ = (⟨next.shared.ledger, job'⟩, entries))
    (hops : ops entries = (s.ledger.effective? (t.op? s.ledger a)).toList)
    (hout : Ledger.output entries = states next.effects) : Hands t s a next where
  free := by
    rw [hjob]
    intro hnone
    cases hnone
  locked := by
    rw [hjob, hjob', hlocked]
    exact fun h => h rfl
  hand := by
    rw [hjob, hjob']
    exact ⟨entries, hhand, hops, hout⟩

/-- Every step of a feed is one or the other. -/
theorem Rule.apart_or_hands {v : View} {t : FeedTask} {s : Shared} {a : Act} {next : Next}
    (h : Rule v t s a next) : Apart t s next ∨ Hands t s a next := by
  cases h with
  | locks hp hfree =>
    have hjob : t.phase.job? = none := by rw [hp]; rfl
    refine Or.inr ⟨fun _ => hfree, fun _ => rfl, [], ?_, ?_, rfl⟩
    · rw [hjob]
      rfl
    · simp only [op?, hp]
      rfl
  | @visits visit rest draft next hp =>
    have hjob : t.phase.job? = some (.visiting (visit :: rest) draft) := by rw [hp]; rfl
    refine Or.inr (hands_of_job hjob rfl rfl rfl ?_ (Desk.output_notes s.ledger visit))
    simp only [op?, hp]
    exact Ledger.ops_notes s.ledger visit
  | @hasVisited draft next hp =>
    have hjob : t.phase.job? = some (.visiting [] draft) := by rw [hp]; rfl
    refine Or.inr (hands_of_job hjob rfl rfl rfl ?_ rfl)
    simp only [op?, hp]
    rfl
  | @writes message rest count next hp =>
    have hjob : t.phase.job? = some (.writing (message :: rest)) := by rw [hp]; rfl
    refine Or.inr (hands_of_job hjob rfl rfl rfl ?_ rfl)
    simp only [op?, hp]
    rfl
  | @unlocks count next hp =>
    have hjob : t.phase.job? = some (.writing []) := by rw [hp]; rfl
    have hafter : (t.afterRound { s with locked := false } next).task.phase.job? = none := by
      cases next <;> rfl
    have hshared : (t.afterRound { s with locked := false } next).shared =
        { s with locked := false } := by
      cases next <;> rfl
    refine Or.inr ⟨?_, ?_, [], ?_, ?_, ?_⟩
    · rw [hjob]
      intro hnone
      cases hnone
    · simp only [hafter, hshared, Option.isSome_none, implies_true]
    · simp only [hjob, hafter, hshared, Option.getD_none, Option.getD_some]
      rfl
    · simp only [op?, hp]
      rfl
    · show [] = states (if count = 0 then [] else _)
      split <;> rfl
  | @saysStarting id rest hp =>
    exact Or.inl ⟨by rw [hp]; rfl, rfl, rfl, states_tell t s .starting id⟩
  | @saysComplete id rest hp =>
    exact Or.inl ⟨by rw [hp]; rfl, rfl, rfl, states_tell t s .complete id⟩
  | @saysStopped n e id rest hp =>
    exact Or.inl ⟨by rw [hp]; rfl, rfl, rfl, states_tell t s n id⟩
  | @applies r c hp =>
    refine Or.inl ⟨by rw [hp]; rfl, rfl, ?_, rfl⟩
    show (t.applyCheckpoint s c).locked = s.locked
    unfold applyCheckpoint
    split <;> rfl
  | _ hp => exact Or.inl ⟨by rw [hp]; rfl, rfl, rfl, rfl⟩

end FeedTask

/-! ### The whole read -/

namespace System

theorem Supervision.states_eq {s s' : System} {effects : List Effect}
    (h : Supervision s s' effects) : states effects = [] := by
  cases h with
  | @buries stage left i message id rest t => exact t.states_tell s.shared .failure id
  | _ => rfl

theorem Supervision.locked {s s' : System} {effects : List Effect} (h : Supervision s s' effects) :
    s'.shared.locked = s.shared.locked := by
  cases h <;> rfl

/-- A desk is as a read is: it has the same ledger, and the feed that has the lock, if there is one, stands
where the one who hands out at the desk stands. -/
structure Mirrors (s : System) (d : Desk) (holder : Option Nat) : Prop where
  ledger : d.ledger = s.shared.ledger
  locked : s.shared.locked = holder.isSome
  idle : holder = none → d.job = .idle
  job : ∀ i t, s.feeds[i]? = some t → t.phase.job? = if holder = some i then some d.job else none
  held : ∀ i, holder = some i → i < s.feeds.length

section
variable {s s' : System} {d : Desk} {holder : Option Nat} {move : Move} {effects : List Effect}

theorem mirrors_start (settings : Settings) (factories : Nat) (ledger : Ledger) :
    Mirrors (start settings factories ledger) { ledger } none := by
  refine ⟨rfl, rfl, fun _ => rfl, fun i t ht => ?_, by rintro i ⟨⟩⟩
  obtain ⟨feed, -, rfl⟩ := List.mem_map.mp (List.mem_of_getElem? ht)
  rfl

/-- A move of somebody who has nothing to do with handing out: the phases, the lock and the ledger stay. -/
theorem Mirrors.of_phases (hm : Mirrors s d holder)
    (hledger : s'.shared.ledger = s.shared.ledger) (hlocked : s'.shared.locked = s.shared.locked)
    (hlength : s'.feeds.length = s.feeds.length)
    (hphases : ∀ (i : Nat) (t' : FeedTask), s'.feeds[i]? = some t' →
      ∃ t, s.feeds[i]? = some t ∧ t'.phase = t.phase) :
    Mirrors s' d holder where
  ledger := hm.ledger.trans hledger.symm
  locked := hlocked.trans hm.locked
  idle := hm.idle
  job := by
    intro i t' ht'
    obtain ⟨t, ht, hphase⟩ := hphases i t' ht'
    rw [hphase]
    exact hm.job i t ht
  held := fun i hi => hlength ▸ hm.held i hi

/-- A step that is no step of a feed leaves the phase of every feed alone. -/
theorem phases_step (h : s.step move = some (s', effects)) (hmove : ∀ i a, move ≠ .feed i a) :
    ∀ (i : Nat) (t' : FeedTask), s'.feeds[i]? = some t' →
      ∃ t, s.feeds[i]? = some t ∧ t'.phase = t.phase := by
  intro i t' ht'
  obtain ⟨t, ht⟩ := exists_before h ht'
  refine ⟨t, ht, ?_⟩
  have hlt := (List.getElem?_eq_some_iff.mp ht).1
  rcases step_at h ht with ⟨a, next, hfeed, -⟩ | ⟨j, a, p, next, releases, -, -, -, rfl⟩ |
    ⟨-, halted, cause, hu, -⟩
  · exact absurd hfeed (hmove i a)
  · rw [List.getElem?_set_self hlt] at ht'
    cases ht'
    rfl
  · rw [hu] at ht'
    cases ht'
    rfl

/-- A feed makes a step that has nothing to do with handing out. -/
theorem Mirrors.apart {i : Nat} {t : FeedTask} {next : FeedTask.Next} {l : Ledger}
    (hm : Mirrors s d holder) (ht : s.feeds[i]? = some t) (hr : FeedTask.Apart t s.shared next)
    (hledger : l = next.shared.ledger) :
    Mirrors { s with shared := next.shared, feeds := s.feeds.set i next.task } ⟨l, d.job⟩ holder := by
  have hlt := (List.getElem?_eq_some_iff.mp ht).1
  refine ⟨hledger, hr.locked.trans hm.locked, hm.idle, fun k u hu => ?_,
    fun k hk => by rw [List.length_set]; exact hm.held k hk⟩
  rw [List.getElem?_set] at hu
  by_cases hk : i = k
  · subst hk
    rw [if_pos rfl, if_pos hlt] at hu
    cases hu
    -- the feed does not have the lock
    have hold := hm.job i t ht
    rw [hr.before] at hold
    rw [hr.after]
    exact hold
  · rw [if_neg hk] at hu
    exact hm.job k u hu

/-- A feed that hands out has the lock, and one that takes it finds it free; in either case no other feed
has it. -/
theorem Mirrors.holds {i : Nat} {t : FeedTask} (hm : Mirrors s d holder) (ht : s.feeds[i]? = some t)
    (hfree : t.phase.job? = none → s.shared.locked = false) :
    d.job = t.phase.job?.getD .idle ∧ (t.phase.job?.isSome = true → s.shared.locked = true) ∧
      ∀ k, k ≠ i → holder ≠ some k := by
  have hjob := hm.job i t ht
  rcases hp : t.phase.job? with _ | job
  · have hnone : holder = none := by
      have hlocked := hm.locked
      rw [hfree hp] at hlocked
      exact Option.isNone_iff_eq_none.mp (by simpa using hlocked.symm)
    refine ⟨hm.idle hnone, nofun, fun k _ => ?_⟩
    rw [hnone]
    nofun
  · rw [hp] at hjob
    split at hjob
    · rename_i hholder
      refine ⟨(Option.some.inj hjob).symm, fun _ => ?_, fun k hk => ?_⟩
      · rw [hm.locked, hholder]
        rfl
      · rw [hholder]
        exact fun he => hk (Option.some.inj he).symm
    · cases hjob

/-- When the lock is taken some feed is handing out. -/
theorem Mirrors.exists_holder (hm : Mirrors s d holder) (hlocked : s.shared.locked = true) :
    ∃ (k : Nat) (t : FeedTask), s.feeds[k]? = some t ∧ t.phase.job?.isSome = true := by
  rw [hm.locked] at hlocked
  obtain ⟨k, hk⟩ := Option.isSome_iff_exists.mp hlocked
  have ht := List.getElem?_eq_getElem (hm.held k hk)
  refine ⟨k, _, ht, ?_⟩
  rw [hm.job k _ ht, if_pos hk]
  rfl

/-- A feed makes a step of handing out. -/
theorem Mirrors.hands {i : Nat} {t : FeedTask} {a : Act} {next : FeedTask.Next}
    (hm : Mirrors s d holder) (ht : s.feeds[i]? = some t) (hr : FeedTask.Hands t s.shared a next) :
    ∃ entries, d.hand = (⟨next.shared.ledger, next.task.phase.job?.getD .idle⟩, entries) ∧
      ops entries = (s.shared.ledger.effective? (t.op? s.shared.ledger a)).toList ∧
      Ledger.output entries = states next.effects ∧
      Mirrors { s with shared := next.shared, feeds := s.feeds.set i next.task }
        ⟨next.shared.ledger, next.task.phase.job?.getD .idle⟩
        (next.task.phase.job?.map fun _ => i) := by
  have hlt := (List.getElem?_eq_some_iff.mp ht).1
  obtain ⟨hjob, hheld, hothers⟩ := hm.holds ht hr.free
  obtain ⟨entries, hhand, hops, hout⟩ := hr.hand
  refine ⟨entries, ?_, hops, hout, rfl, ?_, ?_, fun k u hu => ?_, fun k hk => ?_⟩
  · rw [← hhand, ← hjob, ← hm.ledger]
  · rw [Option.isSome_map]
    exact hr.locked hheld
  · intro hnone
    rw [Option.map_eq_none_iff.mp hnone]
    rfl
  · rw [List.getElem?_set] at hu
    by_cases hk : i = k
    · subst hk
      rw [if_pos rfl, if_pos hlt] at hu
      cases hu
      rcases next.task.phase.job? with _ | job
      · rfl
      · simp
    · rw [if_neg hk] at hu
      have hold := hm.job k u hu
      rw [if_neg (hothers k (Ne.symm hk))] at hold
      rw [hold, if_neg]
      intro he
      obtain ⟨_, -, hik⟩ := Option.map_eq_some_iff.mp he
      exact hk hik
  · obtain ⟨_, -, rfl⟩ := Option.map_eq_some_iff.mp hk
    rw [List.length_set]
    exact hlt

/-- Every step of a read is one at the desk, or none. -/
theorem Mirrors.step (hm : Mirrors s d holder) (hstep : s.step move = some (s', effects)) :
    ∃ acts d' holder' entries, d.run acts = some (d', entries) ∧ Mirrors s' d' holder' ∧
      ops entries = (s.shared.ledger.effective? (s.op? move)).toList ∧
      Ledger.output entries = states effects := by
  cases move with
  | feed i a =>
    obtain ⟨t, next, ht, hr, rfl, rfl⟩ := step_feed hstep
    have hop? : s.op? (.feed i a) = t.op? s.shared.ledger a := by
      rw [op?, ht]
      rfl
    rw [hop?]
    rcases hr.apart_or_hands with hapart | hhands
    · have hledger := hr.ledger
      rcases hop : t.op? s.shared.ledger a with _ | op
      · rw [hop] at hledger
        have hsame : d.ledger = next.shared.ledger := hm.ledger.trans hledger.symm
        exact ⟨[], d, holder, [], rfl, hm.apart ht hapart hsame, rfl, hapart.states_eq.symm⟩
      · rw [hop] at hledger
        have hsame : d.ledger.apply op = next.shared.ledger := by
          rw [hm.ledger]
          exact hledger.symm
        obtain ⟨acts, entries, hrun, hops, hout⟩ :=
          d.exists_run_op op (FeedTask.op?_ne_swap hapart.before hop)
        rw [hm.ledger] at hops
        exact ⟨acts, _, holder, entries, hrun, hm.apart ht hapart hsame, hops,
          hout.trans hapart.states_eq.symm⟩
    · obtain ⟨entries, hhand, hops, hout, hnext⟩ := hm.hands ht hhands
      refine ⟨[.hand], _, _, entries, ?_, hnext, hops, hout⟩
      exact Desk.run_cons.mpr ⟨_, entries, [], congrArg some hhand, rfl, (List.append_nil _).symm⟩
  | partition i j a =>
    have hphases := phases_step hstep (by rintro k b ⟨⟩)
    obtain ⟨t, p, next, releases, -, -, hr, rfl, rfl⟩ := step_partition hstep
    exact ⟨[], d, holder, [], rfl, hm.of_phases rfl rfl List.length_set hphases, rfl, hr.states_eq.symm⟩
  | supervise =>
    have hr := supervision_of_supervise hstep
    refine ⟨[], d, holder, [], rfl, ?_, rfl, hr.states_eq.symm⟩
    exact hm.of_phases (supervise_ledger hstep) hr.locked (length_feeds_step hstep)
      (phases_step hstep (by rintro k b ⟨⟩))
  | reset key =>
    cases hstep
    obtain ⟨acts, entries, hrun, hops, hout⟩ := d.exists_run_op (.reset key) (by rintro k ⟨⟩)
    rw [hm.ledger] at hops
    refine ⟨acts, _, holder, entries, hrun, ⟨?_, hm.locked, hm.idle, hm.job, hm.held⟩, hops, hout⟩
    exact congrArg (Ledger.reset · key) hm.ledger
  | cancel | record _ =>
    cases hstep
    exact ⟨[], d, holder, [], rfl, ⟨hm.ledger, hm.locked, hm.idle, hm.job, hm.held⟩, rfl, rfl⟩

/-- What a step does to a slot that is there. -/
def Step.effective? (st : Step) : Option Ledger.Op :=
  st.before.shared.ledger.effective? st.op?

/-- Every run of a read is one of a desk. -/
theorem Mirrors.run {moves : List Move} (hm : Mirrors s d holder)
    (hrun : s.run moves = some (s', effects)) :
    ∃ acts d' holder' entries, d.run acts = some (d', entries) ∧ Mirrors s' d' holder' ∧
      ops entries = (s.trace moves).filterMap Step.effective? ∧
      Ledger.output entries = states effects := by
  induction moves generalizing s d holder effects with
  | nil =>
    cases hrun
    exact ⟨[], d, holder, [], rfl, hm, rfl, rfl⟩
  | cons move rest ih =>
    obtain ⟨mid, first, later, hstep, hrest, rfl⟩ := run_cons hrun
    obtain ⟨acts, d₁, holder₁, entries, hacts, hmid, hops, hout⟩ := hm.step hstep
    obtain ⟨more, d₂, holder₂, further, hmore, hlast, hops', hout'⟩ := ih hmid hrest
    refine ⟨acts ++ more, d₂, holder₂, entries ++ further, Desk.run_append hacts hmore, hlast, ?_, ?_⟩
    · rw [trace_cons hstep, ops, List.filterMap_append, List.filterMap_cons]
      have hhead : (⟨s, move, first, mid⟩ : Step).effective? =
          s.shared.ledger.effective? (s.op? move) := rfl
      rw [hhead]
      unfold ops at hops hops'
      rw [hops, hops']
      rcases s.shared.ledger.effective? (s.op? move) with _ | op <;> rfl
    · rw [states_append, ← hout, ← hout']
      exact List.filterMap_append

end

/-- Whatever happens in a read happens at a desk: the same is done to the slots that are there, in the same
order, and the states that the read writes are the messages written at the desk. When the lock is free
nobody is handing out. -/
theorem exists_desk_run {settings : Settings} {factories : Nat} {ledger : Ledger} {moves : List Move}
    {s' : System} {effects : List Effect}
    (hrun : (start settings factories ledger).run moves = some (s', effects)) :
    ∃ acts d h, ({ ledger } : Desk).run acts = some (d, h) ∧ d.ledger = s'.shared.ledger ∧
      (s'.shared.locked = false → d.job = .idle) ∧
      ops h = ((start settings factories ledger).trace moves).filterMap Step.effective? ∧
      Ledger.output h = states effects := by
  obtain ⟨acts, d, holder, h, hacts, hm, hops, hout⟩ :=
    (mirrors_start settings factories ledger).run hrun
  refine ⟨acts, d, h, hacts, hm.ledger, fun hfree => hm.idle ?_, hops, hout⟩
  rw [hm.locked] at hfree
  exact Option.isNone_iff_eq_none.mp (by simpa using hfree)

end System

end Read

end Intake
