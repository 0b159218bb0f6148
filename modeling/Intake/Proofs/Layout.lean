import Intake.Proofs.Checkpoint
import Intake.Proofs.Closing
import Intake.Proofs.Gathering
/-!
# How a ledger is laid out

A ledger is made from an optional global feed and a list of streams. Either may name a stream twice, and a stream may
be named by both; `enroll` passes over the one, `ensure` over the other. What comes out depends on the names alone:
`firsts` are the streams that count, `membersOf` the names that the global feed lists, and `LaidOut` says how feeds,
slots and standalone streams come from these two. `streams_enrollAll` is the loop over the streams, from any ledger;
`laidOut_used` says that the layout is there from the beginning and that nothing which is done to the slots changes it.

Since every feed has a slot, no task finds itself without one. The only place where a task can fail for that is its
first step, and faults are passed on from phase to phase: `Rule.bears` says once where the fault of a phase comes from.
The main statement is `ledger_laid_out_and_no_feed_untracked`.
-/

namespace Intake

namespace Ledger

variable (global : Option (Global × Option Value)) (streams : List (Stream × Option Value))

/-! ### The streams that count -/

/-- The first stream of each name, in order. -/
def firsts : List (Stream × Option Value) → List (Stream × Option Value)
  | [] => []
  | entry :: rest => entry :: (firsts rest).filter fun other => other.1.id ≠ entry.1.id

/-- The names that the global feed lists, if there is one. -/
def membersOf : List StreamId := global.elim [] (·.1.ids)

/-- A stream counts if and only if it is the one that is found when its name is looked for. -/
theorem mem_firsts_iff (entry : Stream × Option Value) :
    entry ∈ firsts streams ↔ streams.find? (·.1.id == entry.1.id) = some entry := by
  induction streams with
  | nil => simp [firsts]
  | cons first rest ih =>
    rw [firsts, List.mem_cons, List.mem_filter, ih]
    by_cases hid : first.1.id = entry.1.id
    · rw [List.find?_cons_of_pos (by simpa using hid)]
      simp [hid, eq_comm]
    · have hne : entry ≠ first := by
        rintro rfl
        exact hid rfl
      rw [List.find?_cons_of_neg (by simpa using hid)]
      simp [Ne.symm hid, hne]

/-- The streams that come are added if they count, and no stream of that name was there before. -/
theorem streams_enrollAll (l : Ledger) :
    (streams.foldl (fun l entry => l.enroll entry.1 entry.2) l).streams =
      l.streams ++
        ((firsts streams).filter fun entry => !(l.slots.find? (.stream entry.1.id)).isSome).map Prod.fst := by
  induction streams generalizing l with
  | nil => simp [firsts]
  | cons entry rest ih =>
    rw [List.foldl_cons, ih, firsts, List.filter_cons, List.filter_filter]
    by_cases hthere : (l.slots.find? (.stream entry.1.id)).isSome = true
    · have hsame : l.enroll entry.1 entry.2 = l := if_pos hthere
      rw [hsame, if_neg (by simp [hthere])]
      -- the others of that name would have been passed over as well
      congr 2
      refine List.filter_congr fun other _ => ?_
      by_cases hid : other.1.id = entry.1.id
      · simp [hid, hthere]
      · simp [hid]
    · have hstreams : (l.enroll entry.1 entry.2).streams = l.streams ++ [entry.1] := by
        rw [enroll, if_neg hthere]
      rw [hstreams, if_pos (by simpa using hthere), List.map_cons, List.append_assoc, List.singleton_append]
      congr 3
      refine List.filter_congr fun other _ => ?_
      rw [find?_enroll]
      by_cases hid : other.1.id = entry.1.id
      · simp [hid]
      · simp [hid, Ne.symm hid]

/-- The streams of a new ledger are those that count. -/
theorem streams_make : (make global streams).streams = (firsts streams).map Prod.fst := by
  have hempty : (streams.foldl (fun l entry => l.enroll entry.1 entry.2) (empty global)).streams =
      (firsts streams).map Prod.fst := by
    rw [streams_enrollAll]
    rcases global with _ | ⟨g, initial⟩ <;> simp [empty, Table.find?_cons]
  rcases global with _ | ⟨g, initial⟩
  · exact hempty
  · exact (streams_ensureAll _ _).trans hempty

theorem isMember_iff {l : Ledger} (hg : l.global = global.map Prod.fst) (id : StreamId) :
    l.isMember id = true ↔ id ∈ membersOf global := by
  rcases global with _ | ⟨g, initial⟩ <;> simp [isMember, hg, membersOf, Global.contains]

/-! ### One slot for each name -/

theorem nodup_keys_slots_make : (make global streams).slots.keys.Nodup := by
  refine make_induction (P := fun l => l.slots.keys.Nodup) global streams ?_ ?_ ?_
  · rcases global with _ | ⟨g, initial⟩ <;> simp [empty, Table.keys]
  · intro l st initial hl
    unfold enroll
    split
    · exact hl
    · exact Table.nodup_put _ _ _ hl
  · intro l id _ hl
    unfold ensure
    split
    · exact hl
    · exact Table.nodup_put _ _ _ hl

/-- No operation changes which slots there are, or their order. -/
theorem keys_apply (l : Ledger) (op : Op) : (l.apply op).slots.keys = l.slots.keys := by
  cases op with
  | set key state records => exact Table.keys_adjust _ _ _
  | reset key => exact Table.keys_adjust _ _ _
  | swap key =>
    simp only [apply, swapAt]
    rcases hfind : l.slots.find? key with _ | slot
    · rfl
    · have hmem : key ∈ l.slots.keys := (Table.mem_keys_iff _ _).mpr (by rw [hfind]; rfl)
      rw [Table.keys_put, if_pos hmem]

theorem nodup_keys_slots_used (ops : List Op) : (used global streams ops).slots.keys.Nodup :=
  List.foldlRecOn (motive := fun l => l.slots.keys.Nodup) ops apply (nodup_keys_slots_make global streams)
    fun l hl op _ => by rwa [keys_apply]

end Ledger

/-- The slot that is meant for a feed. -/
def Feed.slot : Feed → SlotKey
  | .global _ => .shared
  | .stream s => .stream s.id

namespace Ledger

/-- A feed of a ledger whose streams have their slots finds the slot that is meant for it. -/
theorem scope?_of_mem {l : Ledger}
    (h : ∀ st ∈ l.streams, (l.slots.find? (.stream st.id)).isSome = true) {feed : Feed}
    (hf : feed ∈ l.feeds) : l.scope? feed = some feed.slot := by
  rcases List.mem_append.mp hf with hglobal | hstream
  · obtain ⟨g, hg, rfl⟩ := Option.map_eq_some_iff.mp (Option.mem_toList.mp hglobal)
    exact if_pos (by rw [hg]; rfl)
  · obtain ⟨st, hst, rfl⟩ := List.mem_map.mp hstream
    exact if_pos (h st hst)

/-- Different feeds of a ledger have different slots meant for them. -/
theorem slots_differ {l : Ledger} (h : (l.feeds.map Feed.key).Nodup) :
    l.feeds.Pairwise fun a b => a.slot ≠ b.slot := by
  refine (List.pairwise_map.mp h).imp_of_mem fun {a b} ha hb hne hslot => hne ?_
  cases a with
  | stream st =>
    cases b with
    | stream st' => exact congrArg FeedKey.stream (SlotKey.stream.inj hslot)
    | global g => cases hslot
  | global g =>
    cases b with
    | stream st => cases hslot
    | global g' =>
      -- there is only one global feed
      have hg : l.global = some g := by simpa [feeds] using ha
      have hg' : l.global = some g' := by simpa [feeds] using hb
      rw [hg] at hg'
      cases hg'
      rfl

/-! ### The layout -/

/-- How a ledger is laid out that was made from a global feed and some streams. -/
structure LaidOut (global : Option (Global × Option Value)) (streams : List (Stream × Option Value)) (l : Ledger) :
    Prop where
  /-- The feeds are the global one and then the first stream of each name, in order. -/
  feeds_eq : l.feeds = (global.map (.global ·.1)).toList ++ (firsts streams).map (.stream ·.1)
  /-- There is one slot for each name. -/
  nodup_slots : l.slots.keys.Nodup
  mem_slots_iff : ∀ id, .stream id ∈ l.slots.keys ↔ id ∈ streams.map (·.1.id) ∨ id ∈ membersOf global
  /-- There is a shared slot if and only if there is a global feed. -/
  shared_iff : .shared ∈ l.slots.keys ↔ global.isSome = true
  /-- The standalone streams are the names that were given and that the global feed does not list, in order. -/
  standalone_eq : l.standalone = (streams.map (·.1.id)).eraseDups.filter (· ∉ membersOf global)
  nodup_standalone : l.standalone.Nodup
  /-- Standalone streams and members share nothing, and every slot of a stream is that of one of them. -/
  apart : ∀ id ∈ l.standalone, id ∉ membersOf global
  cover : ∀ id, .stream id ∈ l.slots.keys ↔ id ∈ l.standalone ∨ id ∈ membersOf global
  /-- Every feed has a slot, and different feeds have different ones. -/
  has_slot : ∀ feed ∈ l.feeds, ∃ key ∈ l.slots.keys, l.scope? feed = some key
  scopes_differ : l.feeds.Pairwise fun a b => l.scope? a ≠ l.scope? b

/-- A ledger is laid out from the beginning, and stays so whatever is done to its slots. -/
theorem laidOut_used (global : Option (Global × Option Value)) (streams : List (Stream × Option Value))
    (ops : List Op) : LaidOut global streams (used global streams ops) := by
  have hstreams : (used global streams ops).streams = (firsts streams).map Prod.fst :=
    (streams_used global streams ops).trans (streams_make global streams)
  have hids : (used global streams ops).streams.map (·.id) = (streams.map (·.1.id)).eraseDups := by
    rw [streams_used, ids_make]
  have hslots : ∀ key, key ∈ (used global streams ops).slots.keys ↔ tracks global streams key = true := by
    intro key
    rw [Table.mem_keys_iff, isSome_find?_used]
  have hglobal : (used global streams ops).global = global.map Prod.fst := global_used global streams ops
  have hmember := isMember_iff global hglobal
  have hlisted : ∀ id, .stream id ∈ (used global streams ops).slots.keys ↔
      id ∈ streams.map (·.1.id) ∨ id ∈ membersOf global := by
    intro id
    rw [hslots, ← hmember]
    simp [tracks, isMember, global_used, Option.any_map]
  have hstandalone : (used global streams ops).standalone =
      (streams.map (·.1.id)).eraseDups.filter (· ∉ membersOf global) := by
    rw [standalone, hids]
    refine List.filter_congr fun id _ => ?_
    rw [Bool.eq_iff_iff, Bool.not_eq_true', ← Bool.not_eq_true, hmember, decide_eq_true_eq]
  have hmem : ∀ id, id ∈ (used global streams ops).standalone ↔
      id ∈ streams.map (·.1.id) ∧ id ∉ membersOf global := by
    intro id
    rw [hstandalone, List.mem_filter, List.mem_eraseDups, decide_eq_true_eq]
  have htracked : ∀ st ∈ (used global streams ops).streams,
      ((used global streams ops).slots.find? (.stream st.id)).isSome = true := by
    intro st hst
    rw [← Table.mem_keys_iff, hlisted, ← List.mem_eraseDups, ← hids]
    exact Or.inl (List.mem_map.mpr ⟨st, hst, rfl⟩)
  exact {
    feeds_eq := by
      rw [feeds, global_used, hstreams, Option.map_map, List.map_map]
      rfl
    nodup_slots := nodup_keys_slots_used global streams ops
    mem_slots_iff := hlisted
    shared_iff := hslots .shared
    standalone_eq := hstandalone
    nodup_standalone := by
      refine List.Pairwise.filter _ ?_
      rw [streams_used]
      exact (enrolled_make global streams).nodup
    apart := fun id hid => ((hmem id).mp hid).2
    cover := by
      intro id
      rw [hlisted, hmem]
      by_cases hin : id ∈ membersOf global <;> simp [hin]
    has_slot := by
      intro feed hf
      refine ⟨feed.slot, ?_, scope?_of_mem htracked hf⟩
      rcases List.mem_append.mp hf with hglobal | hstream
      · obtain ⟨g, hg, rfl⟩ := Option.map_eq_some_iff.mp (Option.mem_toList.mp hglobal)
        rw [Feed.slot, hslots, tracks]
        rw [global_used] at hg
        obtain ⟨_, hsome, -⟩ := Option.map_eq_some_iff.mp hg
        rw [hsome]
        rfl
      · obtain ⟨st, hst, rfl⟩ := List.mem_map.mp hstream
        exact (Table.mem_keys_iff _ _).mpr (htracked st hst)
    scopes_differ := by
      refine (slots_differ (nodup_keys_used global streams ops)).imp_of_mem fun ha hb hne => ?_
      rw [scope?_of_mem htracked ha, scope?_of_mem htracked hb]
      exact fun heq => hne (Option.some.inj heq) }

end Ledger

/-! ### Faults of a task -/

/-- Whether a fault says that there is no slot for a feed. -/
def Fault.isUntracked : Fault → Bool
  | .untracked _ => true
  | _ => false

namespace Read

/-- What a partition ends with is wrapped, so that it never says that there is no slot. -/
theorem Round.isUntracked_of_judge {r : Round} {c : Bool} {i : Nat} {e : Ended} {f : Fault}
    (h : r.judge c i e = .error f) : f.isUntracked = false := by
  rcases eq_of_judge h with ⟨rfl, -⟩ | ⟨source, rfl⟩ <;> rfl

/-- A fault that is recorded when an end is taken was there before, or does not say that there is no slot. -/
theorem Round.failedWith_of_observe {r : Round} {c : Bool} {i j : Nat} {e : Ended} {f : Fault}
    (h : (r.observe c i e).1.results[j]? = some (some (.error f))) :
    r.results[j]? = some (some (.error f)) ∨ f.isUntracked = false := by
  rcases entry_of_observe h with hold | ⟨-, hself⟩ | ⟨cause, -, -, -, -, hhalt⟩
  · exact Or.inl hold
  · exact Or.inr (isUntracked_of_judge hself.symm)
  · cases hhalt
    exact Or.inr rfl

namespace FeedTask

/-- A fault that is in a phase: recorded in its round, carried to the end of the task, or what the task ends with. -/
def Phase.Bears : Phase → Fault → Prop
  | .reading r, e => ∃ j : Nat, r.results[j]? = some (some (.error e))
  | .stopping _ e' _, e => e' = e
  | .done (.error e'), e => e' = e
  | p, e => p.carried? = some e

theorem bears_of_fault? {t : FeedTask} {e : Fault} (h : t.fault? = some e) :
    t.phase.Bears e ∨ e.isUntracked = false := by
  have hout := outcome?_of_fault? h
  unfold outcome? at hout
  split at hout
  · rename_i r hp
    cases hout
    rw [hp]
    exact Or.inl rfl
  · cases hout
    exact Or.inr rfl
  · cases hout

/-- A round ends with a fault that is recorded in it, or with cancellation. -/
theorem bears_of_roundEnd {v : View} {t : FeedTask} {r : Round} {e : Fault}
    (h : (t.roundEnd v r).fault? = some e) : (Phase.reading r).Bears e ∨ e.isUntracked = false := by
  unfold roundEnd at h
  split at h
  · cases h
  · rename_i f hf
    cases h
    unfold Round.verdict at hf
    split at hf
    · cases hf
    · rename_i f' hfailure
      split at hf
      · cases hf
        exact Or.inr rfl
      · cases hf
        obtain ⟨j, hj, -⟩ := Round.exists_of_failure? hfailure
        exact Or.inl ⟨j, hj⟩

theorem isUntracked_creationFault (v : View) (t : FeedTask) (e : Fault) :
    (t.creationFault v e).isUntracked = false := by
  unfold creationFault
  split <;> rfl

/-- The fault of a phase was there before the step, or it does not say that there is no slot: a feed that has one
never fails for that. -/
theorem Rule.bears {v : View} {t : FeedTask} {s : Shared} {a : Act} {next : Next} (h : Rule v t s a next)
    (hscope : (s.ledger.scope? t.feed).isSome = true) {e : Fault} (he : next.task.phase.Bears e) :
    t.phase.Bears e ∨ e.isUntracked = false := by
  cases h with
  | beginsUntracked _ hnone =>
    rw [hnone] at hscope
    cases hscope
  | exhausts | createFails | quits | stopsForCause =>
    cases he
    exact Or.inr rfl
  | acquireFails =>
    cases he
    exact Or.inr (isUntracked_creationFault v t _)
  | @releases r hp =>
    rw [hp]
    rcases r with e' | readers
    · exact Or.inl he
    · cases he
  | notifiesFailure hp | locks hp | visits hp | hasVisited hp | writes hp | applies hp =>
    rw [hp]
    exact Or.inl he
  | starts =>
    obtain ⟨j, hj⟩ := he
    simp [Round.start, List.getElem?_replicate] at hj
  | joins hp _ _ hj =>
    obtain ⟨p, end', -, -, rfl, rfl⟩ := eq_taken_of_join hj
    obtain ⟨j, hj⟩ := he
    rw [hp]
    exact (Round.failedWith_of_observe hj).imp_left fun hold => ⟨j, hold⟩
  | closes hp =>
    rw [hp]
    exact bears_of_roundEnd he
  | @unlocks count next hp =>
    rw [hp]
    rcases next with _ | _ | e'
    · cases he
    · cases he
    · exact Or.inl he
  | stops hp | saysStopped hp | hasStopped hp =>
    cases he
    rw [hp]
    exact Or.inl rfl
  | _ => cases he

end FeedTask

/-! ### The whole read -/

namespace System

open Ledger (LaidOut firsts membersOf)

/-- Every feed has a slot, and no task has a fault that says otherwise. -/
def Tracked (s : System) : Prop :=
  ∀ (i : Nat) (t : FeedTask), s.feeds[i]? = some t →
    (s.shared.ledger.scope? t.feed).isSome = true ∧ ∀ e, t.phase.Bears e → e.isUntracked = false

theorem tracked_start (settings : Settings) (factories : Nat) {l : Ledger}
    (h : ∀ feed ∈ l.feeds, (l.scope? feed).isSome = true) : (start settings factories l).Tracked := by
  intro i t ht
  simp only [start, List.getElem?_map] at ht
  obtain ⟨feed, hfeed, rfl⟩ := Option.map_eq_some_iff.mp ht
  refine ⟨h feed (List.mem_of_getElem? hfeed), fun e he => ?_⟩
  cases he

theorem Tracked.step {s s' : System} {move : Move} {effects : List Effect} (h : s.Tracked)
    (hs : s.step move = some (s', effects)) : s'.Tracked := by
  intro i t' ht'
  obtain ⟨t, ht⟩ := exists_before hs ht'
  obtain ⟨hscope, hbears⟩ := h i t ht
  rw [feed_step hs ht ht', scope?_step hs]
  refine ⟨hscope, fun e he => ?_⟩
  rcases step_task hs ht ht' with ⟨a, next, -, hr, rfl⟩ | ⟨parts, releases, rfl⟩ | ⟨left, cause, -, rfl⟩ |
    ⟨left, -, rfl⟩
  · exact (hr.bears hscope he).elim (hbears e) id
  · exact hbears e he
  · exact hbears e he
  · exact hbears e he

/-- **The layout of a ledger.** Let a ledger be made from an optional global feed and any list of streams, with any
repetitions. Its feeds are the global one and then the first stream of each name, in order, as it was given; there is
one slot for each name that was given or that the global feed lists, and one more for a global feed; the standalone
streams are the names that were given and that the global feed does not list, once each and in order, and together with
the members, from which they are apart, they are all streams that have a slot; and every feed has a slot, different ones
for different feeds. The state that comes with the first stream of a name is the one that its slot begins with, and a
member that was not given begins without one. Whatever is done to the slots, before a read or while it goes on, the
layout stays the same. So no feed ever fails because it has no slot. -/
theorem ledger_laid_out_and_no_feed_untracked (global : Option (Global × Option Value))
    (streams : List (Stream × Option Value)) (ops : List Ledger.Op) :
    LaidOut global streams (.used global streams ops) ∧
    (∀ entry ∈ firsts streams,
      (Ledger.make global streams).slots.find? (.stream entry.1.id) = some (.start entry.2)) ∧
    (∀ id ∈ membersOf global, id ∉ streams.map (·.1.id) →
      (Ledger.make global streams).slots.find? (.stream id) = some (.start none)) ∧
    (∀ g initial, global = some (g, initial) →
      (Ledger.make global streams).slots.find? .shared = some (.start initial)) ∧
    ∀ (settings : Settings) (factories : Nat) (moves : List Move) (s : System) (effects : List Effect),
      (start settings factories (.used global streams ops)).run moves = some (s, effects) →
      LaidOut global streams s.shared.ledger ∧ s.feeds.map (·.feed) = s.shared.ledger.feeds ∧
      ∀ t ∈ s.feeds, ∀ label,
        t.phase ≠ .failing (.untracked label) ∧ t.fault? ≠ some (.untracked label) := by
  have hlaid := Ledger.laidOut_used global streams ops
  refine ⟨hlaid, fun entry hentry => ?_, fun id hid hnew => ?_, ?_, ?_⟩
  · have hfind := (Ledger.mem_firsts_iff streams entry).mp hentry
    have hlisted : streams.any (·.1.id == entry.1.id) = true :=
      List.any_eq_true.mpr ⟨entry, List.mem_of_find?_eq_some hfind, beq_self_eq_true _⟩
    rw [Ledger.find?_make, Ledger.tracks, hlisted, Bool.true_or, if_pos rfl, Ledger.initialAt, hfind]
    rfl
  · have hmember : global.any (·.1.contains id) = true := by
      rcases global with _ | ⟨g, initial⟩
      · cases hid
      · simpa [membersOf, Global.contains] using hid
    have hnone : streams.find? (·.1.id == id) = none := by
      refine List.find?_eq_none.mpr fun entry hentry hsame => hnew ?_
      exact List.mem_map.mpr ⟨entry, hentry, eq_of_beq hsame⟩
    rw [Ledger.find?_make, Ledger.tracks, hmember, Bool.or_true, if_pos rfl, Ledger.initialAt, hnone]
    rfl
  · rintro g initial rfl
    rw [Ledger.find?_make]
    rfl
  · intro settings factories moves s effects hrun
    have hledger : s.shared.ledger = .used global streams
        (ops ++ ((start settings factories (.used global streams ops)).trace moves).filterMap (·.op?)) := by
      rw [ledger_eq_trace hrun]
      exact (List.foldl_append ..).symm
    have hfeeds : s.feeds.map (·.feed) = s.shared.ledger.feeds := by
      rw [map_feed_run hrun, map_feed_start, hledger, Ledger.feeds_used, Ledger.feeds_used]
    have htracked : s.Tracked := by
      refine run_induction (P := fun _ s => s.Tracked) hrun (tracked_start settings factories fun feed hf => ?_)
        fun _ _ _ hs hbefore => hbefore.step hs
      obtain ⟨key, -, hkey⟩ := hlaid.has_slot feed hf
      rw [hkey]
      rfl
    refine ⟨hledger ▸ Ledger.laidOut_used _ _ _, hfeeds, fun t ht label => ?_⟩
    obtain ⟨i, hi⟩ := List.mem_iff_getElem?.mp ht
    have hno := (htracked i t hi).2 (.untracked label)
    constructor
    · intro hphase
      rw [hphase] at hno
      cases hno rfl
    · intro hfault
      rcases FeedTask.bears_of_fault? hfault with hbears | htold
      · cases hno hbears
      · cases htold

/-- A global feed that lists a stream twice, and one that is not read on its own. -/
def usersTwice : Global :=
  ⟨[{ id := ⟨"users", none⟩ }, { id := ⟨"users", none⟩ }, { id := ⟨"orders", none⟩ }]⟩

/-- Two streams of one name with different states and schemas, and another stream between them. -/
def usersAround : List (Stream × Option Value) :=
  [ ({ id := ⟨"users", none⟩, schema := ["id"] }, some (.bool true))
  , ({ id := ⟨"items", none⟩ }, none)
  , ({ id := ⟨"users", none⟩, schema := ["name"] }, some (.bool false)) ]

/-- The first stream of a name counts, and the feeds of a read get past their first step. -/
theorem ledger_laid_out_and_no_feed_untracked_users :
    (Ledger.make (some (usersTwice, none)) usersAround).feeds =
      [ .global usersTwice, .stream { id := ⟨"users", none⟩, schema := ["id"] }
      , .stream { id := ⟨"items", none⟩ } ] ∧
    (Ledger.make (some (usersTwice, none)) usersAround).standalone = [⟨"items", none⟩] ∧
    (Ledger.make (some (usersTwice, none)) usersAround).slots.find? (.stream ⟨"users", none⟩) =
      some (.start (some (.bool true))) ∧
    (Ledger.make (some (usersTwice, none)) usersAround).slots.find? (.stream ⟨"orders", none⟩) =
      some (.start none) ∧
    (Ledger.make (some (usersTwice, none)) usersAround).slots.find? .shared = some (.start none) ∧
    ∃ s effects, (start {} 1 (Ledger.make (some (usersTwice, none)) usersAround)).run
        [.supervise, .feed 0 .go, .feed 1 .go, .feed 2 .go] = some (s, effects) ∧
      ∀ t ∈ s.feeds, ∀ label,
        t.phase ≠ .failing (.untracked label) ∧ t.fault? ≠ some (.untracked label) := by
  obtain ⟨hlaid, hfirst, hmember, hshared, hrun⟩ :=
    ledger_laid_out_and_no_feed_untracked (some (usersTwice, none)) usersAround []
  have hruns : (start {} 1 (Ledger.make (some (usersTwice, none)) usersAround)).run
      [.supervise, .feed 0 .go, .feed 1 .go, .feed 2 .go] = some (_, _) := rfl
  refine ⟨hlaid.feeds_eq, ?_, ?_, ?_, hshared _ _ rfl, _, _, hruns, (hrun _ _ _ _ _ hruns).2.2⟩
  · exact hlaid.standalone_eq.trans (by decide)
  · exact hfirst ({ id := ⟨"users", none⟩, schema := ["id"] }, some (.bool true)) List.mem_cons_self
  · exact hmember ⟨"orders", none⟩ (by decide) (by decide)

end System

end Read

end Intake
