import Intake.Proofs.Enrolment
import Intake.Proofs.History
import Intake.Proofs.Trace
import Mathlib.Data.List.Forall2
/-!
# Handing out while others go on

A `Desk` is a ledger with somebody who hands out: one visit after the other, and then one message after
the other, and any number of times. Between any two of these steps, others set and reset slots. A run of
a desk is one such interleaving; what happened in it is a history of entries.

The invariant of a run is `Books`. Its parts are: every slot is as its history says; every swap reported
what the history of its slot says; the places of the sets that were counted are divided among the messages
(`Accounts`, `Counts`); and the states reported for a slot are those it had at times that come one after
the other (`Ordered`). Every step keeps the books (`Books.step`), and so does every run (`Books.run`).

A slot of the global feed in which nothing is pending is swapped and then read, in two steps. In between it may
be set or reset; what is read is the state that it had at its last swap or reset, and no slot is read twice
without a swap before (`Unread`), so the states come out in order all the same.
-/

namespace Intake

/-- The states that a message reports for a slot. -/
def StateMessage.statesOf (key : SlotKey) : StateMessage → List Value
  | .stream id state _ => if .stream id = key then [state] else []
  | .global shared states _ =>
    (if .shared = key then [shared] else []) ++
      (states.filter fun entry => .stream entry.1 = key).map Prod.snd

/-- The slots that a message is about. -/
def StateMessage.keys : StateMessage → List SlotKey
  | .stream id _ _ => [.stream id]
  | .global _ states _ => .shared :: states.map fun entry => .stream entry.1

namespace Desk

/-- Where the one who hands out stands. -/
inductive Job
  | idle
  /-- Visits the slots of the ledger. -/
  | visiting (left : List Ledger.Visit) (draft : Ledger.Draft)
  /-- Writes the messages it has gathered. -/
  | writing (left : List StateMessage)

/-- What somebody does at the desk. -/
inductive Act
  | set (key : SlotKey) (state : Value) (records : Nat)
  | reset (key : SlotKey)
  /-- The one who hands out makes a step. -/
  | hand

end Desk

/-- A ledger, and somebody who hands out. -/
structure Desk where
  ledger : Ledger
  job : Desk.Job := .idle

open Ledger

namespace Desk

/-- What happens in a visit to the slot it is for. -/
def notes (l : Ledger) (v : Visit) : List Entry :=
  match v.key? with
  | some key => (l.slots.find? key).toList.map fun slot => .swap key slot.swap.2
  | none =>
    match v with
    | .look key => [.look key (l.currentAt key)]
    | _ => []

/-- A step of the one who hands out, and what happens in it. -/
def hand (d : Desk) : Desk × List Entry :=
  match d.job with
  | .idle => ({ d with job := .visiting d.ledger.plan {} }, [])
  | .visiting (v :: rest) draft =>
    let (ledger, draft) := d.ledger.visit draft v
    ({ ledger, job := .visiting (d.ledger.follow v ++ rest) draft }, notes d.ledger v)
  | .visiting [] draft => ({ d with job := .writing draft.messages }, [])
  | .writing (message :: rest) => ({ d with job := .writing rest }, [.write message])
  | .writing [] => ({ d with job := .idle }, [])

/-- A step at the desk. Only slots that are there can be set and reset. -/
def step (d : Desk) : Act → Option (Desk × List Entry)
  | .set key state records =>
    if (d.ledger.slots.find? key).isSome then
      some ({ d with ledger := d.ledger.set key state records }, [.set key state records])
    else none
  | .reset key =>
    if (d.ledger.slots.find? key).isSome then
      some ({ d with ledger := d.ledger.reset key }, [.reset key])
    else none
  | .hand => some d.hand

/-- Follows a list of acts; the answer has all entries in order. -/
def run (d : Desk) : List Act → Option (Desk × List Entry)
  | [] => some (d, [])
  | a :: rest => do
    let (d, entries) ← d.step a
    let (d, more) ← run d rest
    return (d, entries ++ more)

/-- A run is a step and the run after it. -/
theorem run_cons {d d' : Desk} {a : Act} {rest : List Act} {entries : List Entry} :
    d.run (a :: rest) = some (d', entries) ↔
      ∃ next first more, d.step a = some (next, first) ∧ next.run rest = some (d', more) ∧
        entries = first ++ more := by
  simp only [run, Option.bind_eq_bind, Option.bind_eq_some_iff, Prod.exists]
  constructor
  · rintro ⟨next, first, hstep, last, more, hrest, heq⟩
    cases heq
    exact ⟨next, first, more, hstep, hrest, rfl⟩
  · rintro ⟨next, first, more, hstep, hrest, rfl⟩
    exact ⟨next, first, hstep, d', more, hrest, rfl⟩

/-- Two runs of a desk, one after the other, are one run. -/
theorem run_append {d d' d'' : Desk} {acts later : List Act} {first more : List Entry}
    (hfirst : d.run acts = some (d', first)) (hmore : d'.run later = some (d'', more)) :
    d.run (acts ++ later) = some (d'', first ++ more) := by
  induction acts generalizing d first with
  | nil =>
    cases hfirst
    exact hmore
  | cons a acts ih =>
    obtain ⟨next, head, rest, hstep, hrest, rfl⟩ := run_cons.mp hfirst
    exact run_cons.mpr ⟨next, head, rest ++ more, hstep, ih hrest, List.append_assoc _ _ _⟩

/-! ### Counting -/

/-- A message counts the sets at some places: it has their records, and is about their slots. -/
structure Counts (h : List Entry) (places : List Nat) (m : StateMessage) : Prop where
  records : m.records = min recordLimit (places.map (recordsAt h)).sum
  keys : ∀ p ∈ places, ∃ key ∈ m.keys, (h[p]?).bind Entry.key? = some key

/-- The sets that were counted are divided into those of each message and those in hand. -/
structure Accounts (h : List Entry) (groups : List (List Nat)) (places : List Nat) : Prop where
  nodup : (groups.flatten ++ places).Nodup
  mem_iff : ∀ p, p ∈ groups.flatten ++ places ↔ IsCounted h p

section
variable {h : List Entry} {e : Entry} {places : List Nat} {groups : List (List Nat)}
  {m : StateMessage} {key : SlotKey}

/-- What was counted stays counted when the history grows. -/
theorem Counts.snoc (hc : Counts h places m) (e : Entry) : Counts (h ++ [e]) places m := by
  have hlt : ∀ p ∈ places, p < h.length := by
    intro p hp
    obtain ⟨k, -, hk⟩ := hc.keys p hp
    obtain ⟨x, hx, -⟩ := Option.bind_eq_some_iff.mp hk
    exact (List.getElem?_eq_some_iff.mp hx).1
  refine ⟨?_, fun p hp => ?_⟩
  · have hsame : places.map (recordsAt (h ++ [e])) = places.map (recordsAt h) :=
      List.map_congr_left fun p hp => recordsAt_snoc_of_lt (hlt p hp)
    rw [hsame]
    exact hc.records
  · rw [List.getElem?_append_left (hlt p hp)]
    exact hc.keys p hp

/-- What the live sets of a slot have in common. -/
theorem key?_of_live {p : Nat} (hp : p ∈ live key h) : (h[p]?).bind Entry.key? = some key := by
  obtain ⟨state, records, hget, -⟩ := isLive_iff.mp (mem_live.mp hp)
  rw [hget]
  rfl

/-- An entry that is not a swap keeps the accounts. -/
theorem Accounts.snoc (ha : Accounts h groups places) (he : e.isSwap = false) :
    Accounts (h ++ [e]) groups places := by
  refine ⟨ha.nodup, fun p => ?_⟩
  rw [ha.mem_iff, isCounted_snoc]
  constructor
  · exact Or.inl
  · rintro (hc | ⟨k, report, rfl, -⟩)
    · exact hc
    · cases he

/-- A swap puts the live sets of its slot in hand. -/
theorem Accounts.swap (ha : Accounts h groups places) (key : SlotKey) (report : Option Slot.Report) :
    Accounts (h ++ [Entry.swap key report]) groups (places ++ live key h) := by
  refine ⟨?_, fun p => ?_⟩
  · rw [← List.append_assoc, List.nodup_append]
    refine ⟨ha.nodup, nodup_live key h, ?_⟩
    rintro p hp q hq rfl
    exact not_isCounted_of_live hq ((ha.mem_iff p).mp hp)
  · rw [← List.append_assoc, List.mem_append, ha.mem_iff, isCounted_snoc]
    constructor
    · rintro (hc | hlive)
      · exact Or.inl hc
      · exact Or.inr ⟨key, report, rfl, hlive⟩
    · rintro (hc | ⟨k, r, he, hlive⟩)
      · exact Or.inl hc
      · cases he
        exact Or.inr hlive

/-- What is in hand goes into a message. -/
theorem Accounts.close (ha : Accounts h groups places) : Accounts h (groups ++ [places]) [] := by
  have hflat : (groups ++ [places]).flatten ++ [] = groups.flatten ++ places := by simp
  constructor
  · rw [hflat]
    exact ha.nodup
  · rw [hflat]
    exact ha.mem_iff

end

/-! ### Order -/

/-- Whether an entry tells the state of a slot: one that was pending is swapped out, or the current one is
read. -/
def tellsOf (key : SlotKey) : Entry → Bool
  | .swap k (some _) => k = key
  | .look k _ => k = key
  | _ => false

/-- The part of a history that the entry at a place tells the state of a slot after: all that came before for a
swap, and for a reading what came up to the last swap or reset of the slot. -/
def toldOf (key : SlotKey) (h : List Entry) (p : Nat) : List Entry :=
  match h[p]? with
  | some (.look _ _) => settled key (h.take p)
  | _ => h.take p

/-- Some values are those that a slot had at some times, in order: they were handed out at places that come one
after the other, and none of them is the state of a time before that of an earlier one. -/
structure Ordered (key : SlotKey) (initial : Option Value) (h : List Entry) (times : List Nat)
    (values : List Value) : Prop where
  sorted : times.Pairwise (· < ·)
  tells : ∀ p ∈ times, ∃ e, h[p]? = some e ∧ tellsOf key e = true
  forward : times.Pairwise fun p q => toldOf key h p <+: toldOf key h q
  values_eq : values = times.map fun p => .ofOption (latest key initial (toldOf key h p))

/-- Every swap of a slot that handed out something is at one of these places. -/
def Complete (key : SlotKey) (h : List Entry) (times : List Nat) : Prop :=
  ∀ (p : Nat) (report : Slot.Report), h[p]? = some (Entry.swap key (some report)) → p ∈ times

/-- A slot was swapped, and its state was not told since its last swap or reset. -/
structure Unread (key : SlotKey) (h : List Entry) : Prop where
  swapped : ∃ report, Entry.swap key report ∈ h
  untold : ∀ p e, (settled key h).length ≤ p → h[p]? = some e → tellsOf key e = false

section
variable {key : SlotKey} {initial : Option Value} {h : List Entry} {e : Entry} {times : List Nat}
  {values more : List Value}

theorem ordered_nil (key : SlotKey) (initial : Option Value) (h : List Entry) :
    Ordered key initial h [] [] := ⟨List.Pairwise.nil, nofun, List.Pairwise.nil, rfl⟩

theorem Ordered.lt (ho : Ordered key initial h times values) : ∀ p ∈ times, p < h.length := by
  intro p hp
  obtain ⟨e, hget, -⟩ := ho.tells p hp
  exact (List.getElem?_eq_some_iff.mp hget).1

/-- What a report tells of lies before it in the history. -/
theorem toldOf_isPrefix_take (key : SlotKey) (h : List Entry) (p : Nat) : toldOf key h p <+: h.take p := by
  unfold toldOf
  split
  · exact List.rdropWhile_prefix _ _
  · exact List.prefix_rfl

/-- What an earlier report tells of does not change. -/
theorem toldOf_snoc_of_lt {p : Nat} (hp : p < h.length) : toldOf key (h ++ [e]) p = toldOf key h p := by
  unfold toldOf
  rw [List.getElem?_append_left hp, List.take_append_of_le_length (Nat.le_of_lt hp)]

theorem Ordered.snoc (ho : Ordered key initial h times values) (e : Entry) :
    Ordered key initial (h ++ [e]) times values where
  sorted := ho.sorted
  tells := by
    intro p hp
    rw [List.getElem?_append_left (ho.lt p hp)]
    exact ho.tells p hp
  forward := by
    refine ho.forward.imp_of_mem fun hp hq hpq => ?_
    rwa [toldOf_snoc_of_lt (ho.lt _ hp), toldOf_snoc_of_lt (ho.lt _ hq)]
  values_eq := by
    rw [ho.values_eq]
    refine List.map_congr_left fun p hp => ?_
    rw [toldOf_snoc_of_lt (ho.lt p hp)]

/-- A state that is handed out now comes last, if it is that of a time not before those of the earlier ones. -/
theorem Ordered.push (ho : Ordered key initial h times values) (he : tellsOf key e = true)
    (hforward : ∀ p ∈ times, toldOf key h p <+: toldOf key (h ++ [e]) h.length) :
    Ordered key initial (h ++ [e]) (times ++ [h.length])
      (values ++ [.ofOption (latest key initial (toldOf key (h ++ [e]) h.length))]) where
  sorted := by
    rw [List.pairwise_append]
    refine ⟨ho.sorted, List.pairwise_singleton _ _, ?_⟩
    intro p hp q hq
    rw [List.mem_singleton.mp hq]
    exact ho.lt p hp
  tells := by
    intro p hp
    rcases List.mem_append.mp hp with hp | hp
    · exact (ho.snoc _).tells p hp
    · rw [List.mem_singleton.mp hp, List.getElem?_concat_length]
      exact ⟨e, rfl, he⟩
  forward := by
    rw [List.pairwise_append]
    refine ⟨(ho.snoc _).forward, List.pairwise_singleton _ _, ?_⟩
    intro p hp q hq
    rw [List.mem_singleton.mp hq, toldOf_snoc_of_lt (ho.lt p hp)]
    exact hforward p hp
  values_eq := by
    rw [List.map_append, List.map_singleton, ← (ho.snoc _).values_eq]

/-- What is swapped out of a slot is its state by now. -/
theorem Ordered.swap (ho : Ordered key initial h times values) (report : Slot.Report) :
    Ordered key initial (h ++ [Entry.swap key (some report)]) (times ++ [h.length])
      (values ++ [.ofOption (latest key initial h)]) := by
  have htold : toldOf key (h ++ [Entry.swap key (some report)]) h.length = h := by
    rw [toldOf, List.getElem?_concat_length]
    exact List.take_left
  have hpush := ho.push (e := .swap key (some report)) (by simp [tellsOf]) ?_
  · rwa [htold] at hpush
  · intro p _
    rw [htold]
    exact (toldOf_isPrefix_take key h p).trans (List.take_prefix p h)

/-- What is read in a slot is the state that it had at its last swap or reset, and nothing was told since. -/
theorem Ordered.look (ho : Ordered key initial h times values) (hunread : Unread key h)
    (state : Option Value) :
    Ordered key initial (h ++ [Entry.look key state]) (times ++ [h.length])
      (values ++ [.ofOption (latest key initial (settled key h))]) := by
  have htold : toldOf key (h ++ [Entry.look key state]) h.length = settled key h := by
    rw [toldOf, List.getElem?_concat_length]
    exact congrArg (settled key) List.take_left
  have hpush := ho.push (e := .look key state) (by simp [tellsOf]) ?_
  · rwa [htold] at hpush
  · intro p hp
    rw [htold]
    have hlt : p < (settled key h).length := by
      obtain ⟨e, hget, htells⟩ := ho.tells p hp
      by_contra hge
      rw [hunread.untold p e (Nat.le_of_not_lt hge) hget] at htells
      cases htells
    refine (toldOf_isPrefix_take key h p).trans ?_
    exact List.prefix_of_prefix_length_le (List.take_prefix p h) (List.rdropWhile_prefix _ h)
      ((List.length_take_le p h).trans (Nat.le_of_lt hlt))

/-- The first of some ordered values are ordered too. -/
theorem Ordered.left (ho : Ordered key initial h times (values ++ more)) :
    Ordered key initial h (times.take values.length) values where
  sorted := ho.sorted.sublist (List.take_sublist _ _)
  tells := fun p hp => ho.tells p (List.mem_of_mem_take hp)
  forward := ho.forward.sublist (List.take_sublist _ _)
  values_eq := by rw [List.map_take, ← ho.values_eq, List.take_left]

/-- Places stay complete until the slot hands something out again. -/
theorem Complete.snoc (hc : Complete key h times) (he : ∀ report, e ≠ .swap key (some report)) :
    Complete key (h ++ [e]) times := by
  intro p report hp
  rcases Nat.lt_or_ge p h.length with hlt | hge
  · rw [List.getElem?_append_left hlt] at hp
    exact hc p report hp
  · rw [List.getElem?_append_right hge, List.getElem?_singleton] at hp
    split at hp
    · exact absurd (Option.some.inj hp) (he report)
    · cases hp

theorem Complete.push (hc : Complete key h times) (e : Entry) :
    Complete key (h ++ [e]) (times ++ [h.length]) := by
  intro p report hp
  rcases Nat.lt_or_ge p h.length with hlt | hge
  · rw [List.getElem?_append_left hlt] at hp
    exact List.mem_append_left _ (hc p report hp)
  · have hlt := (List.getElem?_eq_some_iff.mp hp).1
    rw [List.length_append, List.length_singleton] at hlt
    have hlast : p = h.length := by omega
    rw [hlast]
    exact List.mem_append_right _ List.mem_cons_self

/-- A slot that has just been swapped was not told since. -/
theorem unread_swap (key : SlotKey) (h : List Entry) (report : Option Slot.Report) :
    Unread key (h ++ [Entry.swap key report]) where
  swapped := ⟨report, by simp⟩
  untold := by
    intro p e hp hget
    rw [settled_snoc, if_pos (by simp [Entry.closes])] at hp
    exact absurd (List.getElem?_eq_some_iff.mp hget).1 (Nat.not_lt.mpr hp)

theorem Unread.snoc (hu : Unread key h) (he : tellsOf key e = false) : Unread key (h ++ [e]) where
  swapped := by
    obtain ⟨report, hmem⟩ := hu.swapped
    exact ⟨report, List.mem_append_left _ hmem⟩
  untold := by
    intro p x hp hget
    rw [settled_snoc] at hp
    split at hp
    · exact absurd (List.getElem?_eq_some_iff.mp hget).1 (Nat.not_lt.mpr hp)
    · rcases Nat.lt_or_ge p h.length with hlt | hge
      · rw [List.getElem?_append_left hlt] at hget
        exact hu.untold p x hp hget
      · rw [List.getElem?_append_right hge, List.getElem?_singleton] at hget
        split at hget
        · cases hget
          exact he
        · cases hget

end

/-! ### What is in hand -/

/-- The states that messages report for a slot, in order. -/
def reported (key : SlotKey) (messages : List StateMessage) : List Value :=
  messages.flatMap (·.statesOf key)

/-- The message that a draft is to become. -/
def message (draft : Draft) : StateMessage :=
  .global (.ofOption draft.shared) draft.states draft.records

/-- What was written and what is in hand is in order: the messages count the sets of their groups, the
sets that were counted are divided among the groups and those in hand, and for each slot the states that
were swapped out are reported in order. -/
structure Holds (initial : SlotKey → Option Value) (h : List Entry) (messages : List StateMessage)
    (places : List Nat) (drafts : List StateMessage) (groups : List (List Nat)) : Prop where
  counts : List.Forall₂ (Counts h) groups (output h ++ messages)
  accounts : Accounts h groups places
  ordered : ∀ key, ∃ times,
    Ordered key (initial key) h times (reported key (output h ++ messages ++ drafts)) ∧
      Complete key h times

/-- What somebody who hands out has in hand: messages, the places of sets that are counted but in no
message yet, and the message that the draft is to become. -/
inductive InHand (initial : SlotKey → Option Value) (plan : List Visit) (h : List Entry)
    (groups : List (List Nat)) :
    Job → List StateMessage → List Nat → List StateMessage → Prop
  | idle : InHand initial plan h groups .idle [] [] []
  /-- Before the shared slot. -/
  | before {members alones : List StreamId} :
      plan = .shared :: (members.map .member ++ .wrap :: alones.map .alone) →
      InHand initial plan h groups (.visiting plan {}) [] [] []
  /-- At the shared slot, in which nothing was pending. -/
  | reading {left : List Visit} {members alones : List StreamId} :
      left = .look .shared :: (members.map .member ++ .wrap :: alones.map .alone) → Unread .shared h →
      InHand initial plan h groups (.visiting left {}) [] [] []
  /-- Between the shared slot and the message of the global feed, perhaps at a member in which nothing was
  pending. As long as nothing was pending at all, the draft can be left out. -/
  | within {left : List Visit} {draft : Draft} {members alones : List StreamId} {places : List Nat}
      (look : Option StreamId) :
      left = look.toList.map (.look <| .stream ·) ++ (members.map .member ++ .wrap :: alones.map .alone) →
      (∀ id ∈ look, Unread (.stream id) h) →
      Counts h places (message draft) →
      (draft.swapped = false → Holds initial h draft.messages [] [] groups) →
      InHand initial plan h groups (.visiting left draft) draft.messages places [message draft]
  /-- At the standalone streams. -/
  | after {left : List Visit} {alones : List StreamId} {messages : List StateMessage} :
      left = alones.map .alone →
      InHand initial plan h groups (.visiting left { messages }) messages [] []
  | writing {left : List StateMessage} : InHand initial plan h groups (.writing left) left [] []

section
variable {initial : SlotKey → Option Value} {h : List Entry} {e : Entry}
  {messages drafts : List StateMessage} {places : List Nat} {groups : List (List Nat)}
  {m : StateMessage} {key : SlotKey} {slot : Slot}

theorem output_snoc (h : List Entry) (e : Entry) :
    output (h ++ [e]) = output h ++ e.message?.toList := by
  rw [output, List.filterMap_append]
  rcases he : e.message? with _ | m <;> simp [he, output]

theorem reported_append (key : SlotKey) (first later : List StateMessage) :
    reported key (first ++ later) = reported key first ++ reported key later :=
  List.flatMap_append

/-- In a slot that is not pending no set is live. -/
theorem live_eq_nil {first : Option Value} (hk : slot.Keeps key first h) (hp : slot.pending = false) :
    live key h = [] := by
  have hmap := map_recordsAt_live key h
  rw [hk.counting_eq_nil hp] at hmap
  exact List.map_eq_nil_iff.mp hmap

/-- A member that joins a message is reported in it. -/
theorem reported_addMember (key : SlotKey) (draft : Draft) (id : StreamId) (swapped : Bool)
    (r : Slot.Report) :
    reported key [message (draft.addMember id swapped r)] = reported key [message draft] ++
      if .stream id = key then [.ofOption r.state] else [] := by
  by_cases hkey : SlotKey.stream id = key
  · simp [reported, message, StateMessage.statesOf, Draft.addMember, hkey]
  · simp [reported, message, StateMessage.statesOf, Draft.addMember, hkey]

/-- A set or reset leaves what is in hand alone. -/
theorem Holds.snoc (hh : Holds initial h messages places drafts groups) (hswap : e.isSwap = false)
    (hwrite : e.message? = none) : Holds initial (h ++ [e]) messages places drafts groups := by
  have hout : output (h ++ [e]) = output h := by
    rw [output_snoc, hwrite]
    simp
  refine ⟨?_, hh.accounts.snoc hswap, fun k => ?_⟩
  · rw [hout]
    exact hh.counts.imp fun _ _ hm => hm.snoc e
  · obtain ⟨times, hordered, hcomplete⟩ := hh.ordered k
    rw [hout]
    refine ⟨times, hordered.snoc e, hcomplete.snoc ?_⟩
    rintro report rfl
    cases hswap

/-- A slot is read: its current state comes into the draft. -/
theorem Holds.look (hh : Holds initial h messages places drafts groups)
    (hk : slot.Keeps key (initial key) h) (hunread : Unread key h) {drafts' : List StateMessage}
    (hdrafts : ∀ k, reported k drafts' =
      reported k drafts ++ if key = k then [.ofOption slot.current] else []) :
    Holds initial (h ++ [Entry.look key slot.current]) messages places drafts' groups := by
  have hout : output (h ++ [Entry.look key slot.current]) = output h := by
    simp [output_snoc, Entry.message?]
  refine ⟨?_, hh.accounts.snoc rfl, fun k => ?_⟩
  · rw [hout]
    exact hh.counts.imp fun _ _ hm => hm.snoc _
  · obtain ⟨times, hordered, hcomplete⟩ := hh.ordered k
    rw [hout, reported_append, hdrafts, ← List.append_assoc, ← reported_append]
    split
    · rename_i hkey
      subst hkey
      have hlook := hordered.look hunread slot.current
      rw [← hk.current] at hlook
      exact ⟨_, hlook, hcomplete.push _⟩
    · rw [List.append_nil]
      exact ⟨times, hordered.snoc _, hcomplete.snoc fun _ => Entry.noConfusion⟩

/-- A message is written. -/
theorem Holds.write (hh : Holds initial h (m :: messages) places drafts groups) :
    Holds initial (h ++ [Entry.write m]) messages places drafts groups := by
  have hout : output (h ++ [Entry.write m]) ++ messages = output h ++ m :: messages := by
    simp [output_snoc, Entry.message?]
  refine ⟨?_, hh.accounts.snoc rfl, fun k => ?_⟩
  · rw [hout]
    exact hh.counts.imp fun _ _ hm => hm.snoc _
  · obtain ⟨times, hordered, hcomplete⟩ := hh.ordered k
    rw [hout]
    exact ⟨times, hordered.snoc _, hcomplete.snoc nofun⟩

theorem output_swap (h : List Entry) (key : SlotKey) (report : Option Slot.Report) :
    output (h ++ [Entry.swap key report]) = output h := by
  simp [output_snoc, Entry.message?]

/-- A slot is swapped: its live sets come in hand, and its state into the draft. -/
theorem Holds.swap (hh : Holds initial h messages places drafts groups)
    (hk : slot.Keeps key (initial key) h) {r : Slot.Report} (hr : slot.swap.2 = some r)
    {drafts' : List StateMessage}
    (hdrafts : ∀ k, reported k drafts' =
      reported k drafts ++ if key = k then [.ofOption r.state] else []) :
    Holds initial (h ++ [Entry.swap key (some r)]) messages (places ++ live key h) drafts' groups := by
  refine ⟨?_, hh.accounts.swap key _, fun k => ?_⟩
  · rw [output_swap]
    exact hh.counts.imp fun _ _ hm => hm.snoc _
  · obtain ⟨times, hordered, hcomplete⟩ := hh.ordered k
    rw [output_swap, reported_append, hdrafts, ← List.append_assoc, ← reported_append]
    split
    · rename_i hkey
      subst hkey
      rw [(hk.report hr).1]
      exact ⟨_, hordered.swap _, hcomplete.push _⟩
    · rename_i hkey
      rw [List.append_nil]
      refine ⟨times, hordered.snoc _, hcomplete.snoc ?_⟩
      intro report he
      cases he
      exact absurd rfl hkey

/-- A slot with nothing pending is swapped, and nothing comes in hand. -/
theorem Holds.pass (hh : Holds initial h messages places drafts groups)
    (hk : slot.Keeps key (initial key) h) (hp : slot.pending = false) :
    Holds initial (h ++ [Entry.swap key none]) messages places drafts groups := by
  refine ⟨?_, ?_, fun k => ?_⟩
  · rw [output_swap]
    exact hh.counts.imp fun _ _ hm => hm.snoc _
  · have haccounts := hh.accounts.swap key none
    rw [live_eq_nil hk hp, List.append_nil] at haccounts
    exact haccounts
  · obtain ⟨times, hordered, hcomplete⟩ := hh.ordered k
    rw [output_swap]
    refine ⟨times, hordered.snoc _, hcomplete.snoc ?_⟩
    intro report he
    cases he

/-- The draft becomes a message, with the sets in hand as its group. -/
theorem Holds.close (hh : Holds initial h messages places [m] groups) (hc : Counts h places m) :
    Holds initial h (messages ++ [m]) [] [] (groups ++ [places]) := by
  refine ⟨?_, hh.accounts.close, fun k => ?_⟩
  · rw [← List.append_assoc]
    exact List.rel_append hh.counts (.cons hc .nil)
  · rw [List.append_nil, ← List.append_assoc]
    exact hh.ordered k

/-- What a swap hands out is counted by the live sets of its slot. -/
theorem records_swap_eq {first : Option Value} (hk : slot.Keeps key first h) {r : Slot.Report}
    (hr : slot.swap.2 = some r) : r.records = min recordLimit ((live key h).map (recordsAt h)).sum := by
  rw [(hk.report hr).2, map_recordsAt_live]

/-- The live sets of a slot make the group of a message about it alone. -/
theorem counts_live {first : Option Value} (hk : slot.Keeps key first h) {r : Slot.Report}
    (hr : slot.swap.2 = some r) (hrecords : m.records = r.records) (hmem : key ∈ m.keys) :
    Counts (h ++ [e]) (live key h) m :=
  Counts.snoc
    ⟨by rw [hrecords, records_swap_eq hk hr], fun _ hp => ⟨key, hmem, key?_of_live hp⟩⟩ e

/-- The sets of a member join those that the draft counts. -/
theorem Counts.addMember {draft : Draft} {id : StreamId} {swapped : Bool} {r : Slot.Report}
    {taken : List Nat} (hc : Counts h places (message draft))
    (hrecords : r.records = min recordLimit (taken.map (recordsAt h)).sum)
    (htaken : ∀ p ∈ taken, (h[p]?).bind Entry.key? = some (.stream id)) :
    Counts (h ++ [e]) (places ++ taken) (message (draft.addMember id swapped r)) := by
  refine Counts.snoc ⟨?_, fun p hp => ?_⟩ e
  · have hold : draft.records = min recordLimit (places.map (recordsAt h)).sum := hc.records
    show addRecords draft.records r.records = _
    rw [addRecords, hold, hrecords, List.map_append, List.sum_append]
    omega
  · rcases List.mem_append.mp hp with hp | hp
    · obtain ⟨k, hmem, hkey⟩ := hc.keys p hp
      refine ⟨k, ?_, hkey⟩
      simp only [message, StateMessage.keys, Draft.addMember, List.map_append] at hmem ⊢
      rw [← List.cons_append]
      exact List.mem_append_left _ hmem
    · refine ⟨.stream id, ?_, htaken p hp⟩
      simp [message, StateMessage.keys, Draft.addMember]

end

/-- What was written and what somebody has in hand is in order. -/
def Held (initial : SlotKey → Option Value) (plan : List Visit) (h : List Entry) (job : Job) : Prop :=
  ∃ messages places drafts groups, InHand initial plan h groups job messages places drafts ∧
    Holds initial h messages places drafts groups

section
variable {initial : SlotKey → Option Value} {plan : List Visit} {h : List Entry} {e : Entry}
  {job : Job} {l : Ledger} {key : SlotKey} {slot : Slot}

theorem tellsOf_eq_false (hkey : e.key?.isSome = true) (hswap : e.isSwap = false) (key : SlotKey) :
    tellsOf key e = false := by
  cases e with
  | set | reset => rfl
  | swap => cases hswap
  | look | write => cases hkey

theorem Held.snoc (hh : Held initial plan h job) (hkey : e.key?.isSome = true) (hswap : e.isSwap = false) :
    Held initial plan (h ++ [e]) job := by
  have hwrite : e.message? = none := by
    cases e with
    | write => cases hkey
    | _ => rfl
  obtain ⟨messages, places, drafts, groups, hin, hholds⟩ := hh
  refine ⟨messages, places, drafts, groups, ?_, hholds.snoc hswap hwrite⟩
  cases hin with
  | idle => exact .idle
  | before hplan => exact .before hplan
  | reading hleft hunread => exact .reading hleft (hunread.snoc (tellsOf_eq_false hkey hswap _))
  | within look hleft hunread hc hs =>
    exact .within look hleft (fun id hid => (hunread id hid).snoc (tellsOf_eq_false hkey hswap _)) (hc.snoc e)
      fun hd => (hs hd).snoc hswap hwrite
  | after hleft => exact .after hleft
  | writing => exact .writing

/-- A visit swaps its slot and puts what that hands out into the draft. -/
theorem visit_of_some {v : Visit} (hv : v.key? = some key) (hs : l.slots.find? key = some slot)
    (draft : Draft) : (l.visit draft v).2 = slot.swap.2.elim draft (draft.add v) ∧
      notes l v = [.swap key slot.swap.2] := by
  constructor
  · simp only [visit, hv, swapAt, hs]
    rcases slot.swap.2 with _ | r <;> rfl
  · simp only [notes, hv, hs, Option.toList_some, List.map_cons, List.map_nil]

/-- A visit to a slot that does not exist does nothing. -/
theorem visit_of_none {v : Visit} (hv : v.key? = some key) (hs : l.slots.find? key = none)
    (draft : Draft) : (l.visit draft v).2 = draft ∧ notes l v = [] := by
  constructor
  · simp only [visit, hv, swapAt, hs]
  · simp only [notes, hv, hs, Option.toList_none, List.map_nil]

/-- After a visit to a slot that was not pending, its current state is still to be looked at. -/
theorem lookAt_of_some (hs : l.slots.find? key = some slot) :
    l.lookAt key = if slot.pending then [] else [.look key] := by
  rw [lookAt, hs, Option.any_some]
  cases slot.pending <;> rfl

/-- Nothing is to be looked at in a slot that does not exist. -/
theorem lookAt_of_none (hs : l.slots.find? key = none) : l.lookAt key = [] := by
  rw [lookAt, hs]
  rfl

/-- A visit leaves the ledger alone, swaps a slot that is there, or reads one. -/
theorem notes_cases (l : Ledger) (v : Visit) (draft : Draft) :
    ((l.visit draft v).1 = l ∧ notes l v = []) ∨
      (∃ key slot, l.slots.find? key = some slot ∧ (l.visit draft v).1 = l.apply (.swap key) ∧
        notes l v = [.swap key slot.swap.2]) ∨
      ∃ key, (l.visit draft v).1 = l ∧ notes l v = [.look key (l.currentAt key)] := by
  rw [visit_fst]
  rcases hv : v.key? with _ | key
  · cases v with
    | look key => exact Or.inr (Or.inr ⟨key, rfl, rfl⟩)
    | wrap => exact Or.inl ⟨rfl, rfl⟩
    | shared | member | alone => cases hv
  · rcases hs : l.slots.find? key with _ | slot
    · refine Or.inl ⟨?_, (visit_of_none hv hs draft).2⟩
      simp only [Option.map_some, Option.elim_some, apply, swapAt, hs]
    · exact Or.inr (Or.inl ⟨key, slot, hs, rfl, (visit_of_some hv hs draft).2⟩)

theorem output_notes (l : Ledger) (v : Visit) : output (notes l v) = [] := by
  rcases notes_cases l v {} with ⟨-, hnotes⟩ | ⟨key, slot, -, -, hnotes⟩ | ⟨key, -, hnotes⟩
  · rw [hnotes]
    rfl
  · rw [hnotes]
    rfl
  · rw [hnotes]
    rfl

/-- A slot that is about to be read is there. -/
theorem Unread.exists_slot (hu : Unread key h)
    (hknown : ∀ e ∈ h, ∀ key, e.key? = some key → (l.slots.find? key).isSome = true) :
    ∃ slot, l.slots.find? key = some slot ∧ l.currentAt key = slot.current := by
  obtain ⟨report, hmem⟩ := hu.swapped
  obtain ⟨slot, hslot⟩ := Option.isSome_iff_exists.mp (hknown _ hmem key rfl)
  refine ⟨slot, hslot, ?_⟩
  rw [currentAt, hslot]
  rfl

section
variable {groups : List (List Nat)} {rest : List Visit} {members alones : List StreamId} {draft : Draft}
  {places : List Nat} {messages : List StateMessage} {id : StreamId}

/-- The shared slot is swapped. If nothing was pending in it, it is to be read next. -/
theorem Holds.visit_shared (hholds : Holds initial h [] [] [] groups)
    (hrest : rest = members.map .member ++ .wrap :: alones.map .alone)
    (hslot : l.slots.find? .shared = some slot) (hk : slot.Keeps .shared (initial .shared) h) :
    Held initial plan (h ++ notes l .shared)
      (.visiting (l.follow .shared ++ rest) (l.visit {} .shared).2) := by
  obtain ⟨hdraft, hnotes⟩ := visit_of_some (v := .shared) rfl hslot {}
  rw [hdraft, hnotes, follow, lookAt_of_some hslot]
  rcases hp : slot.pending with _ | _
  · rw [Slot.swap_of_not_pending hp]
    exact ⟨_, _, _, groups, .reading (congrArg (_ :: ·) hrest) (unread_swap _ _ _), hholds.pass hk hp⟩
  · have hr := congrArg Prod.snd (Slot.swap_of_pending hp)
    rw [hr]
    refine ⟨_, _, _, groups, .within none hrest nofun ?_ nofun, hholds.swap hk hr fun k => ?_⟩
    · exact counts_live hk hr rfl (by simp [message, StateMessage.keys])
    · simp [reported, message, StateMessage.statesOf, Draft.add, Draft.addShared]

/-- The shared slot is read. -/
theorem Holds.look_shared (hholds : Holds initial h [] [] [] groups)
    (hrest : rest = members.map .member ++ .wrap :: alones.map .alone)
    (hk : slot.Keeps .shared (initial .shared) h) (hunread : Unread .shared h) :
    Held initial plan (h ++ [Entry.look .shared slot.current])
      (.visiting rest (Draft.addShared {} false ⟨slot.current, 0⟩)) := by
  refine ⟨_, _, _, groups, .within none hrest nofun ?_ fun _ => hholds.snoc rfl rfl,
    hholds.look hk hunread fun k => ?_⟩
  · exact ⟨rfl, nofun⟩
  · simp [reported, message, StateMessage.statesOf, Draft.addShared]

/-- The message of the global feed is made, unless nothing was pending. -/
theorem Holds.visit_wrap (hholds : Holds initial h draft.messages places [message draft] groups)
    (hrest : rest = alones.map .alone) (hc : Counts h places (message draft))
    (hs : draft.swapped = false → Holds initial h draft.messages [] [] groups) :
    Held initial plan h (.visiting rest draft.wrap) := by
  rw [Draft.wrap]
  by_cases hswapped : draft.swapped = true
  · rw [if_pos hswapped]
    exact ⟨_, _, _, _, .after hrest, hholds.close hc⟩
  · rw [if_neg hswapped]
    exact ⟨_, _, _, groups, .after hrest, hs (Bool.eq_false_iff.mpr hswapped)⟩

/-- A member is swapped. If nothing was pending in it, it is to be read next. -/
theorem Holds.visit_member (hholds : Holds initial h draft.messages places [message draft] groups)
    (hrest : rest = members.map .member ++ .wrap :: alones.map .alone)
    (hc : Counts h places (message draft))
    (hs : draft.swapped = false → Holds initial h draft.messages [] [] groups)
    (hkeeps : ∀ key slot, l.slots.find? key = some slot → slot.Keeps key (initial key) h) :
    Held initial plan (h ++ notes l (.member id))
      (.visiting (l.follow (.member id) ++ rest) (l.visit draft (.member id)).2) := by
  rcases hslot : l.slots.find? (.stream id) with _ | slot
  · obtain ⟨hdraft, hnotes⟩ := visit_of_none (v := .member id) rfl hslot draft
    rw [hdraft, hnotes, follow, lookAt_of_none hslot, List.append_nil]
    exact ⟨_, _, _, groups, .within none hrest nofun hc hs, hholds⟩
  have hk := hkeeps _ _ hslot
  obtain ⟨hdraft, hnotes⟩ := visit_of_some (v := .member id) rfl hslot draft
  rw [hdraft, hnotes, follow, lookAt_of_some hslot]
  rcases hp : slot.pending with _ | _
  · rw [Slot.swap_of_not_pending hp]
    refine ⟨_, _, _, groups, .within (some id) (congrArg (_ :: ·) hrest) ?_ (hc.snoc _)
      fun hd => (hs hd).pass hk hp, hholds.pass hk hp⟩
    rintro _ ⟨⟩
    exact unread_swap _ _ _
  · have hr := congrArg Prod.snd (Slot.swap_of_pending hp)
    rw [hr]
    refine ⟨_, _, _, groups, .within none hrest nofun
      (hc.addMember (records_swap_eq hk hr) fun _ => key?_of_live) ?_, hholds.swap hk hr fun k => ?_⟩
    · intro hnone
      have hnone : (draft.swapped || true) = false := hnone
      rw [Bool.or_true] at hnone
      cases hnone
    · exact reported_addMember k draft id true _

/-- A member is read. -/
theorem Holds.look_member (hholds : Holds initial h draft.messages places [message draft] groups)
    (hrest : rest = members.map .member ++ .wrap :: alones.map .alone)
    (hc : Counts h places (message draft))
    (hs : draft.swapped = false → Holds initial h draft.messages [] [] groups)
    (hk : slot.Keeps (.stream id) (initial (.stream id)) h) (hunread : Unread (.stream id) h) :
    Held initial plan (h ++ [Entry.look (.stream id) slot.current])
      (.visiting rest (draft.addMember id false ⟨slot.current, 0⟩)) := by
  have hcounts : Counts (h ++ [Entry.look (.stream id) slot.current]) (places ++ [])
      (message (draft.addMember id false ⟨slot.current, 0⟩)) := hc.addMember rfl nofun
  rw [List.append_nil] at hcounts
  refine ⟨_, _, _, groups, .within none hrest nofun hcounts fun hd => ?_,
    hholds.look hk hunread fun k => reported_addMember k draft id false _⟩
  rw [Draft.addMember, Bool.or_false] at hd
  exact (hs hd).snoc rfl rfl

/-- A standalone stream is swapped, and what was pending is a message of its own. -/
theorem Holds.visit_alone (hholds : Holds initial h messages [] [] groups)
    (hrest : rest = alones.map .alone)
    (hkeeps : ∀ key slot, l.slots.find? key = some slot → slot.Keeps key (initial key) h) :
    Held initial plan (h ++ notes l (.alone id))
      (.visiting rest (l.visit { messages } (.alone id)).2) := by
  rcases hslot : l.slots.find? (.stream id) with _ | slot
  · obtain ⟨hdraft, hnotes⟩ := visit_of_none (v := .alone id) rfl hslot { messages }
    rw [hdraft, hnotes, List.append_nil]
    exact ⟨_, _, _, groups, .after hrest, hholds⟩
  have hk := hkeeps _ _ hslot
  obtain ⟨hdraft, hnotes⟩ := visit_of_some (v := .alone id) rfl hslot { messages }
  rw [hdraft, hnotes]
  rcases hp : slot.pending with _ | _
  · rw [Slot.swap_of_not_pending hp]
    exact ⟨_, _, _, groups, .after hrest, hholds.pass hk hp⟩
  · have hr := congrArg Prod.snd (Slot.swap_of_pending hp)
    have hreported : ∀ k, reported k [.stream id (.ofOption slot.latest) slot.records] =
        reported k [] ++ if .stream id = k then [.ofOption slot.latest] else [] := by
      intro k
      simp [reported, StateMessage.statesOf]
    rw [hr]
    refine ⟨_, _, _, _, .after hrest, (hholds.swap hk hr hreported).close ?_⟩
    exact counts_live hk hr rfl (by simp [StateMessage.keys])

end

/-- A visit keeps what is in hand in order. -/
theorem Held.visit {v : Visit} {rest : List Visit} {draft : Draft}
    (hh : Held initial plan h (.visiting (v :: rest) draft))
    (hkeeps : ∀ key slot, l.slots.find? key = some slot → slot.Keeps key (initial key) h)
    (hknown : ∀ e ∈ h, ∀ key, e.key? = some key → (l.slots.find? key).isSome = true)
    (hshared : Visit.shared ∈ plan → (l.slots.find? .shared).isSome = true) :
    Held initial plan (h ++ notes l v) (.visiting (l.follow v ++ rest) (l.visit draft v).2) := by
  obtain ⟨messages, places, drafts, groups, hin, hholds⟩ := hh
  cases hin with
  | before hplan =>
    obtain ⟨rfl, hrest⟩ := List.cons.inj hplan
    obtain ⟨slot, hslot⟩ := Option.isSome_iff_exists.mp (hshared List.mem_cons_self)
    exact hholds.visit_shared hrest hslot (hkeeps _ _ hslot)
  | reading hleft hunread =>
    obtain ⟨rfl, hrest⟩ := List.cons.inj hleft
    obtain ⟨slot, hslot, hcurrent⟩ := hunread.exists_slot hknown
    show Held initial plan (h ++ [Entry.look .shared (l.currentAt .shared)])
      (.visiting rest (Draft.addShared {} false ⟨l.currentAt .shared, 0⟩))
    rw [hcurrent]
    exact hholds.look_shared hrest (hkeeps _ _ hslot) hunread
  | @within left draft members alones places look hleft hunread hc hs =>
    rcases look with _ | id
    · rcases members with _ | ⟨id, members⟩
      · obtain ⟨rfl, hrest⟩ := List.cons.inj hleft
        show Held initial plan (h ++ []) (.visiting rest draft.wrap)
        rw [List.append_nil]
        exact hholds.visit_wrap hrest hc hs
      · obtain ⟨rfl, hrest⟩ := List.cons.inj hleft
        exact hholds.visit_member hrest hc hs hkeeps
    · obtain ⟨rfl, hrest⟩ := List.cons.inj hleft
      obtain ⟨slot, hslot, hcurrent⟩ := (hunread id rfl).exists_slot hknown
      show Held initial plan (h ++ [Entry.look (.stream id) (l.currentAt (.stream id))])
        (.visiting rest (draft.addMember id false ⟨l.currentAt (.stream id), 0⟩))
      rw [hcurrent]
      exact hholds.look_member hrest hc hs (hkeeps _ _ hslot) (hunread id rfl)
  | @after left alones messages hleft =>
    rcases alones with _ | ⟨id, alones⟩
    · cases hleft
    · obtain ⟨rfl, hrest⟩ := List.cons.inj hleft
      exact hholds.visit_alone hrest hkeeps

/-- Every other step of the one who hands out keeps what is in hand in order. -/
theorem Held.begin (hh : Held initial l.plan h .idle) : Held initial l.plan h (.visiting l.plan {}) := by
  obtain ⟨messages, places, drafts, groups, hin, hholds⟩ := hh
  cases hin
  refine ⟨_, _, _, groups, ?_, hholds⟩
  rcases hg : l.global with _ | g
  · have hplan : l.plan = l.standalone.map .alone := by
      rw [plan, hg]
      rfl
    exact .after hplan
  · have hplan : l.plan = .shared :: (g.ids.map Visit.member ++ Visit.wrap :: l.standalone.map Visit.alone) := by
      rw [plan, hg]
      simp
    exact .before hplan

/-- When all visits are made, the messages of the draft are to be written. -/
theorem Held.gathered {draft : Draft} (hh : Held initial plan h (.visiting [] draft)) :
    Held initial plan h (.writing draft.messages) := by
  obtain ⟨messages, places, drafts, groups, hin, hholds⟩ := hh
  cases hin with
  | before hplan => cases hplan
  | reading hleft => cases hleft
  | within look hleft => simp at hleft
  | after => exact ⟨_, _, _, groups, .writing, hholds⟩

/-- A message that is written is not owed any more. -/
theorem Held.written {m : StateMessage} {left : List StateMessage}
    (hh : Held initial plan h (.writing (m :: left))) :
    Held initial plan (h ++ [Entry.write m]) (.writing left) := by
  obtain ⟨messages, places, drafts, groups, hin, hholds⟩ := hh
  cases hin
  exact ⟨_, _, _, groups, .writing, hholds.write⟩

/-- When all messages are written, the desk is idle. -/
theorem Held.finish (hh : Held initial plan h (.writing [])) : Held initial plan h .idle := by
  obtain ⟨messages, places, drafts, groups, hin, hholds⟩ := hh
  cases hin
  exact ⟨_, _, _, groups, .idle, hholds⟩

end

/-! ### The books of a run -/

/-- Every slot is as its history says. -/
def Kept (initial : SlotKey → Option Value) (h : List Entry) (l : Ledger) : Prop :=
  ∀ key slot, l.slots.find? key = some slot → slot.Keeps key (initial key) h

/-- Every swap reported what the history of its slot says. -/
def Told (h : List Entry) : Prop :=
  ∀ (q : Nat) (key : SlotKey) (report : Option Slot.Report),
    h[q]? = some (Entry.swap key report) → Slot.Tells key (h.take q) report

section
variable {initial : SlotKey → Option Value} {h : List Entry} {l : Ledger}

/-- What is done to no slot leaves all as they are. -/
theorem Kept.other (hk : Kept initial h l) {e : Entry} (he : e.key? = none) : Kept initial (h ++ [e]) l := by
  intro key slot hs
  refine (hk key slot hs).other ?_
  rw [he]
  exact Option.some_ne_none key ∘ Eq.symm

/-- An operation on a slot and the entry for it. -/
theorem Kept.apply (hk : Kept initial h l) {op : Op} {e : Entry} (he : e.key? = some op.key)
    (hslot : ∀ slot, slot.Keeps op.key (initial op.key) h →
      (op.onSlot slot).Keeps op.key (initial op.key) (h ++ [e])) :
    Kept initial (h ++ [e]) (l.apply op) := by
  intro key slot hs
  rw [find?_apply] at hs
  split at hs
  · rename_i hkey
    subst hkey
    obtain ⟨old, hold, rfl⟩ := Option.map_eq_some_iff.mp hs
    exact hslot old (hk _ old hold)
  · rename_i hkey
    refine (hk key slot hs).other ?_
    rw [he]
    exact fun hsome => hkey (Option.some.inj hsome)

/-- What is no swap has nothing to tell. -/
theorem tells_of_not_swap {e : Entry} (he : e.isSwap = false) :
    ∀ key report, e = .swap key report → Slot.Tells key h report := by
  rintro key report rfl
  cases he

theorem Told.snoc (ht : Told h) {e : Entry}
    (he : ∀ key report, e = .swap key report → Slot.Tells key h report) : Told (h ++ [e]) := by
  intro q key report hq
  rcases Nat.lt_or_ge q h.length with hlt | hge
  · rw [List.getElem?_append_left hlt] at hq
    rw [List.take_append_of_le_length (Nat.le_of_lt hlt)]
    exact ht q key report hq
  · rw [List.getElem?_append_right hge, List.getElem?_singleton] at hq
    split at hq
    · rename_i hzero
      have hlen : q = h.length := by omega
      rw [hlen, List.take_left]
      exact he key report (Option.some.inj hq)
    · cases hq

end

/-- The books of a desk: what is true after every run. -/
structure Books (initial : SlotKey → Option Value) (h : List Entry) (d : Desk) : Prop where
  stocked : d.ledger.Stocked
  /-- Nothing happens to a slot that is not there. -/
  known : ∀ e ∈ h, ∀ key, e.key? = some key → (d.ledger.slots.find? key).isSome = true
  kept : Kept initial h d.ledger
  told : Told h
  held : Held initial d.ledger.plan h d.job

section
variable {initial : SlotKey → Option Value} {h entries : List Entry} {d d' : Desk}

theorem stocked_apply {l : Ledger} (hl : l.Stocked) (op : Op) : (l.apply op).Stocked where
  shared := by
    rw [plan_apply, isSome_find?_apply]
    exact hl.shared
  covered := by
    intro key hkey
    rw [isSome_find?_apply] at hkey
    rw [plan_apply]
    exact hl.covered key hkey

/-- A history that is about slots of the ledger stays so. -/
theorem known_snoc {l : Ledger} {e : Entry}
    (hk : ∀ e ∈ h, ∀ key, e.key? = some key → (l.slots.find? key).isSome = true)
    (he : ∀ key, e.key? = some key → (l.slots.find? key).isSome = true) :
    ∀ x ∈ h ++ [e], ∀ key, x.key? = some key → (l.slots.find? key).isSome = true := by
  intro x hx
  rcases List.mem_append.mp hx with hx | hx
  · exact hk x hx
  · rw [List.mem_singleton.mp hx]
    exact he

/-- Somebody sets or resets a slot, or it is swapped, and there is an entry for it. What is in hand is
looked at apart. -/
theorem Books.apply (hb : Books initial h d) (op : Op) {e : Entry} {job : Job}
    (hthere : (d.ledger.slots.find? op.key).isSome = true) (he : e.key? = some op.key)
    (hslot : ∀ slot, slot.Keeps op.key (initial op.key) h →
      (op.onSlot slot).Keeps op.key (initial op.key) (h ++ [e]))
    (htells : ∀ key report, e = .swap key report → Slot.Tells key h report)
    (hheld : Held initial d.ledger.plan (h ++ [e]) job) :
    Books initial (h ++ [e]) { ledger := d.ledger.apply op, job } where
  stocked := stocked_apply hb.stocked op
  known := by
    simp only [isSome_find?_apply]
    refine known_snoc hb.known fun key hkey => ?_
    rw [he] at hkey
    cases hkey
    exact hthere
  kept := hb.kept.apply he hslot
  told := hb.told.snoc htells
  held := by
    rw [plan_apply]
    exact hheld

/-- A visit of the one who hands out. -/
theorem Books.visit {v : Visit} {rest : List Visit} {draft : Draft} (hb : Books initial h d)
    (hjob : d.job = .visiting (v :: rest) draft) :
    Books initial (h ++ notes d.ledger v)
      { ledger := (d.ledger.visit draft v).1
        job := .visiting (d.ledger.follow v ++ rest) (d.ledger.visit draft v).2 } := by
  have hheld := hb.held
  rw [hjob] at hheld
  have hnext := hheld.visit hb.kept hb.known hb.stocked.shared
  rcases notes_cases d.ledger v draft with ⟨hledger, hnotes⟩ | ⟨key, slot, hs, hledger, hnotes⟩ |
    ⟨key, hledger, hnotes⟩
  · rw [hnotes, List.append_nil] at hnext ⊢
    rw [hledger]
    exact ⟨hb.stocked, hb.known, hb.kept, hb.told, hnext⟩
  · rw [hnotes] at hnext ⊢
    rw [hledger]
    refine hb.apply (.swap key) (Option.isSome_of_eq_some hs) rfl (fun old hold => hold.swap _) ?_ hnext
    rintro k report he
    cases he
    exact (hb.kept key slot hs).tells
  · rw [hnotes] at hnext ⊢
    rw [hledger]
    exact ⟨hb.stocked, known_snoc hb.known nofun, hb.kept.other rfl,
      hb.told.snoc (tells_of_not_swap rfl), hnext⟩

/-- A step of the one who hands out. -/
theorem Books.hand (hb : Books initial h d) : Books initial (h ++ d.hand.2) d.hand.1 := by
  obtain ⟨l, job⟩ := d
  match job, hb with
  | .idle, hb =>
    show Books initial (h ++ []) _
    rw [List.append_nil]
    exact ⟨hb.stocked, hb.known, hb.kept, hb.told, hb.held.begin⟩
  | .visiting (v :: rest) draft, hb => exact hb.visit rfl
  | .visiting [] draft, hb =>
    show Books initial (h ++ []) _
    rw [List.append_nil]
    exact ⟨hb.stocked, hb.known, hb.kept, hb.told, hb.held.gathered⟩
  | .writing (m :: left), hb =>
    exact ⟨hb.stocked, known_snoc hb.known nofun, hb.kept.other rfl,
      hb.told.snoc (tells_of_not_swap rfl), hb.held.written⟩
  | .writing [], hb =>
    show Books initial (h ++ []) _
    rw [List.append_nil]
    exact ⟨hb.stocked, hb.known, hb.kept, hb.told, hb.held.finish⟩

/-- Every step keeps the books. -/
theorem Books.step {a : Act} (hb : Books initial h d) (hstep : d.step a = some (d', entries)) :
    Books initial (h ++ entries) d' := by
  cases a with
  | set key state records =>
    rw [Desk.step] at hstep
    split at hstep
    · rename_i hthere
      cases hstep
      exact hb.apply (.set key state records) hthere rfl (fun slot hs => hs.set state records)
        (tells_of_not_swap rfl) (hb.held.snoc rfl rfl)
    · cases hstep
  | reset key =>
    rw [Desk.step] at hstep
    split at hstep
    · rename_i hthere
      cases hstep
      exact hb.apply (.reset key) hthere rfl (fun slot _ => Slot.Keeps.reset slot)
        (tells_of_not_swap rfl) (hb.held.snoc rfl rfl)
    · cases hstep
  | hand =>
    have hhand : d.hand = (d', entries) := Option.some.inj hstep
    have hnext := hb.hand
    rw [hhand] at hnext
    exact hnext

/-- Every run keeps the books. -/
theorem Books.run {acts : List Act} (hb : Books initial h d) (hrun : d.run acts = some (d', entries)) :
    Books initial (h ++ entries) d' := by
  induction acts generalizing d h entries with
  | nil =>
    cases hrun
    rw [List.append_nil]
    exact hb
  | cons a rest ih =>
    obtain ⟨next, first, more, hstep, hmore, rfl⟩ := run_cons.mp hrun
    rw [← List.append_assoc]
    exact ih (hb.step hstep) hmore

end

/-- A new ledger has books without entries. -/
theorem books_make (global : Option (Global × Option Value)) (streams : List (Stream × Option Value)) :
    Books (make global streams).currentAt [] { ledger := make global streams } where
  stocked := stocked_make global streams
  known := nofun
  kept := by
    intro key slot hs
    obtain ⟨first, rfl⟩ := fresh_make global streams key slot hs
    have hfirst : (make global streams).currentAt key = first := by
      rw [currentAt, hs]
      rfl
    rw [hfirst]
    exact Slot.keeps_start key first
  told := nofun
  held := by
    refine ⟨[], [], [], [], .idle, .nil, ⟨List.nodup_nil, fun p => ?_⟩,
      fun key => ⟨[], ordered_nil key _ [], nofun⟩⟩
    constructor
    · nofun
    · rintro ⟨key, state, records, report, hget, -⟩
      cases hget

end Desk

end Intake
