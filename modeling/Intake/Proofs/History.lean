import Intake.Ledger
import Mathlib.Algebra.GroupWithZero.Nat
import Mathlib.Data.List.DropRight
import Mathlib.Tactic.Common
/-!
# Histories of slots

What happens to the slots of a ledger, and what is written, is a list of entries. This file says what such
a history means for one slot, without the slot: `since` are its sets and resets since the last swap,
`latest` is the state it was last set to, and `counting` are the sets whose records are still to be handed
out, those since the last swap or reset. `settled` is the history up to that swap or reset: the state that the
slot had then is the one that is current.

Sets are told apart by their place in the history. `live` are the places of the sets in `counting`, and a
set `IsCounted` when the next swap or reset of its slot is a swap. The lemmas say how each of these grows
with one more entry, and `Slot.Keeps` says that a slot does what its history says: `Keeps.set`,
`Keeps.reset` and `Keeps.swap`.
-/

namespace Intake

namespace Ledger

/-- What can happen while a ledger is in use. -/
inductive Entry
  | set (key : SlotKey) (state : Value) (records : Nat)
  | reset (key : SlotKey)
  | swap (key : SlotKey) (report : Option Slot.Report)
  /-- The current state of a slot is read. -/
  | look (key : SlotKey) (state : Option Value)
  | write (message : StateMessage)

namespace Entry

/-- The slot that an entry works on; nothing is done to a slot that is read. -/
def key? : Entry → Option SlotKey
  | set key _ _ => some key
  | reset key => some key
  | swap key _ => some key
  | look _ _ => none
  | write _ => none

/-- The state that an entry gives to its slot. -/
def value? : Entry → Option (Option Value)
  | set _ state _ => some (some state)
  | reset _ => some none
  | _ => none

/-- The records that an entry brings. -/
def records : Entry → Nat
  | set _ _ records => records
  | _ => 0

/-- Whether the entry sets a slot. -/
def isSet : Entry → Bool
  | set .. => true
  | _ => false

/-- Whether the entry swaps a slot. -/
def isSwap : Entry → Bool
  | swap .. => true
  | _ => false

/-- Whether the sets of a slot before the entry are out of the count after it. -/
def closes (key : SlotKey) : Entry → Bool
  | reset k => k = key
  | swap k _ => k = key
  | _ => false

/-- The message that an entry writes. -/
def message? : Entry → Option StateMessage
  | write message => some message
  | _ => none

end Entry

/-! ### What a history says of a slot -/

/-- The entries that work on a slot. -/
def about (key : SlotKey) (h : List Entry) : List Entry := h.filter (·.key? = some key)

/-- The sets and resets of a slot since its last swap. -/
def since (key : SlotKey) (h : List Entry) : List Entry := (about key h).rtakeWhile (!·.isSwap)

/-- The sets of a slot since its last swap or reset. -/
def counting (key : SlotKey) (h : List Entry) : List Entry := (about key h).rtakeWhile (·.isSet)

/-- The state that a slot was last given. -/
def latest (key : SlotKey) (initial : Option Value) (h : List Entry) : Option Value :=
  ((about key h).filterMap Entry.value?).getLast?.getD initial

/-- The history up to the last swap or reset of a slot. -/
def settled (key : SlotKey) (h : List Entry) : List Entry := h.rdropWhile (!·.closes key)

/-- The records of the entry at a place. -/
def recordsAt (h : List Entry) (p : Nat) : Nat := (h[p]?).elim 0 Entry.records

/-- The entry at a place sets its slot, and the next swap or reset of that slot is a swap. -/
def IsCounted (h : List Entry) (p : Nat) : Prop :=
  ∃ key state records report, h[p]? = some (.set key state records) ∧
    (h.drop (p + 1)).find? (·.closes key) = some (.swap key report)

/-- Whether the entry at a place sets a slot that was not swapped or reset after it. -/
def isLive (key : SlotKey) (h : List Entry) (p : Nat) : Bool :=
  match h[p]? with
  | some (.set k _ _) => k = key && (h.drop (p + 1)).all (!·.closes key)
  | _ => false

/-- The places of the sets of a slot since its last swap or reset. -/
def live (key : SlotKey) (h : List Entry) : List Nat := (List.range h.length).filter (isLive key h)

/-- The messages that were written. -/
def output (h : List Entry) : List StateMessage := h.filterMap Entry.message?

section
variable {key : SlotKey} {initial : Option Value} {h : List Entry} {e : Entry}

/-- A new entry is about a slot if it names it. -/
theorem about_snoc (key : SlotKey) (h : List Entry) (e : Entry) :
    about key (h ++ [e]) = if e.key? = some key then about key h ++ [e] else about key h := by
  simp only [about, List.filter_append, List.filter_cons, List.filter_nil, decide_eq_true_eq]
  split <;> simp

/-- What happens to a slot is gathered until its next swap. -/
theorem since_snoc (hk : e.key? = some key) :
    since key (h ++ [e]) = if e.isSwap then [] else since key h ++ [e] := by
  rw [since, about_snoc, if_pos hk, List.rtakeWhile_concat]
  cases e.isSwap <;> rfl

/-- A set is counted with those before it, and any other entry of the slot ends the count. -/
theorem counting_snoc (hk : e.key? = some key) :
    counting key (h ++ [e]) = if e.isSet then counting key h ++ [e] else [] := by
  rw [counting, about_snoc, if_pos hk, List.rtakeWhile_concat]
  cases e.isSet <;> rfl

/-- The latest state of a slot is that of the last entry that has one. -/
theorem latest_snoc (hk : e.key? = some key) :
    latest key initial (h ++ [e]) = e.value?.getD (latest key initial h) := by
  rw [latest, about_snoc, if_pos hk, List.filterMap_append]
  rcases hv : e.value? with _ | v
  · simp [hv, latest]
  · simp [hv]

/-- An entry about another slot changes none of this. -/
theorem about_snoc_of_ne (hk : e.key? ≠ some key) : about key (h ++ [e]) = about key h := by
  rw [about_snoc, if_neg hk]

/-- The sets that count are among the sets and resets since the last swap. -/
theorem counting_eq_nil (hs : since key h = []) : counting key h = [] := by
  rw [since, List.rtakeWhile_eq_nil_iff] at hs
  rw [counting, List.rtakeWhile_eq_nil_iff]
  intro hne hset
  apply hs hne
  generalize (about key h).getLast hne = e at hset
  cases e with
  | set => rfl
  | _ => cases hset

/-- The last set or reset since the last swap gave the slot its state. -/
theorem value?_of_since (initial : Option Value) (hs : (since key h).getLast? = some e) :
    e.value? = some (latest key initial h) := by
  have hmem : ∀ x ∈ about key h, x.key? = some key := by
    intro x hx
    simpa using (List.mem_filter.mp hx).2
  unfold latest
  unfold since at hs
  rcases (about key h).eq_nil_or_concat with hnil | ⟨l, x, hl⟩
  · rw [hnil] at hs
    cases hs
  · rw [List.concat_eq_append] at hl
    rw [hl, List.rtakeWhile_concat] at hs
    split at hs
    · rename_i hx
      obtain rfl : x = e := by simpa using hs
      have hkey : x.key? = some key := hmem x (by simp [hl])
      rw [hl, List.filterMap_append]
      cases x with
      | set | reset => simp [Entry.value?]
      | swap => cases hx
      | look | write => cases hkey
    · cases hs

/-- The settled part of a history grows when an entry closes the slot. -/
theorem settled_snoc (key : SlotKey) (h : List Entry) (e : Entry) :
    settled key (h ++ [e]) = if e.closes key then h ++ [e] else settled key h := by
  rw [settled, List.rdropWhile_concat]
  cases e.closes key <;> rfl

/-- When no set counts, the state that a slot was last given is the one that is current. -/
theorem latest_settled (initial : Option Value) (hc : counting key h = []) :
    latest key initial (settled key h) = latest key initial h := by
  induction h using List.reverseRecOn with
  | nil => rfl
  | append_singleton h e ih =>
    rw [settled_snoc]
    split
    · rfl
    · rename_i hopen
      have hk : e.key? ≠ some key := by
        intro hk
        rw [counting_snoc hk] at hc
        cases e with
        | set => simp [Entry.isSet] at hc
        | reset | swap => simp_all [Entry.closes, Entry.key?]
        | look | write => cases hk
      rw [counting, about_snoc_of_ne hk] at hc
      rw [ih hc, latest, latest, about_snoc_of_ne hk]

/-! ### Places -/

/-- A set is live while no entry after it closes its slot. -/
theorem isLive_iff {p : Nat} :
    isLive key h p = true ↔ ∃ state records, h[p]? = some (.set key state records) ∧
      (h.drop (p + 1)).find? (·.closes key) = none := by
  unfold isLive
  split
  · rename_i k state records hp
    simp only [Bool.and_eq_true, decide_eq_true_eq, List.all_eq_true, List.find?_eq_none,
      Bool.not_eq_true']
    constructor
    · rintro ⟨rfl, hall⟩
      exact ⟨state, records, hp.trans rfl, fun e he => by simp [hall e he]⟩
    · rintro ⟨_, _, hp', hnone⟩
      rw [hp] at hp'
      cases hp'
      exact ⟨rfl, fun e he => by simpa using hnone e he⟩
  · rename_i hn
    simp only [Bool.false_eq_true, false_iff]
    rintro ⟨state, records, hp, -⟩
    exact hn key state records hp

theorem mem_live {p : Nat} : p ∈ live key h ↔ isLive key h p = true := by
  simp only [live, List.mem_filter, List.mem_range, and_iff_right_iff_imp]
  intro hp
  obtain ⟨_, _, hget, -⟩ := isLive_iff.mp hp
  exact (List.getElem?_eq_some_iff.mp hget).1

theorem nodup_live (key : SlotKey) (h : List Entry) : (live key h).Nodup :=
  List.nodup_range.filter _

/-- A live set stays so unless the new entry closes its slot. -/
theorem isLive_snoc_of_lt {p : Nat} (hp : p < h.length) :
    isLive key (h ++ [e]) p = (isLive key h p && !e.closes key) := by
  unfold isLive
  rw [List.getElem?_append_left hp, List.drop_append_of_le_length hp, List.all_append]
  split
  · simp [Bool.and_assoc]
  · rfl

/-- A new entry is live if it sets the slot. -/
theorem isLive_snoc_self : isLive key (h ++ [e]) h.length = (e.isSet && e.key? = some key) := by
  unfold isLive
  rw [List.getElem?_concat_length]
  cases e with
  | set k state records => simp [Entry.isSet, Entry.key?]
  | _ => rfl

/-- A set joins the live ones, and a swap or reset of the slot closes them. -/
theorem live_snoc (key : SlotKey) (h : List Entry) (e : Entry) :
    live key (h ++ [e]) = (if e.closes key then [] else live key h) ++
      (if e.isSet && e.key? = some key then [h.length] else []) := by
  have hold : (List.range h.length).filter (isLive key (h ++ [e])) =
      if e.closes key then [] else live key h := by
    have hcongr : (List.range h.length).filter (isLive key (h ++ [e])) =
        (List.range h.length).filter fun p => isLive key h p && !e.closes key :=
      List.filter_congr fun p hp => isLive_snoc_of_lt (List.mem_range.mp hp)
    rw [hcongr]
    cases e.closes key
    · simp [live]
    · simp
  rw [live, List.length_append, List.length_singleton, List.range_succ, List.filter_append, hold,
    List.filter_cons, isLive_snoc_self, List.filter_nil]

theorem recordsAt_snoc_of_lt {p : Nat} (hp : p < h.length) :
    recordsAt (h ++ [e]) p = recordsAt h p := by
  rw [recordsAt, recordsAt, List.getElem?_append_left hp]

/-- The live places are those of the sets that count. -/
theorem map_recordsAt_live (key : SlotKey) (h : List Entry) :
    (live key h).map (recordsAt h) = (counting key h).map Entry.records := by
  induction h using List.reverseRecOn with
  | nil => rfl
  | append_singleton h e ih =>
    have hlive : (live key h).map (recordsAt (h ++ [e])) = (live key h).map (recordsAt h) := by
      refine List.map_congr_left fun p hp => recordsAt_snoc_of_lt ?_
      exact List.mem_range.mp (List.mem_filter.mp hp).1
    rw [live_snoc, List.map_append]
    by_cases hk : e.key? = some key
    · rw [counting_snoc hk]
      cases e with
      | set k state records =>
        simp [Entry.closes, Entry.isSet, hk, hlive, ih, recordsAt, Entry.records]
      | reset k | swap k _ => simp_all [Entry.closes, Entry.isSet, Entry.key?]
      | look | write => cases hk
    · have hclose : e.closes key = false := by
        cases e with
        | set | look | write => rfl
        | reset k | swap k _ => simpa [Entry.closes, Entry.key?] using hk
      have habout : counting key (h ++ [e]) = counting key h := by
        rw [counting, about_snoc_of_ne hk, counting]
      simp [hclose, hk, hlive, ih, habout]

/-- A further entry counts the sets that are live, if it is a swap of their slot, and no others. -/
theorem isCounted_snoc {p : Nat} :
    IsCounted (h ++ [e]) p ↔
      IsCounted h p ∨ ∃ key report, e = .swap key report ∧ p ∈ live key h := by
  by_cases hp : p < h.length
  · simp only [IsCounted, List.getElem?_append_left hp, List.drop_append_of_le_length hp,
      List.find?_append, mem_live, isLive_iff]
    constructor
    · rintro ⟨key, state, records, report, hget, hfind⟩
      rcases hold : (h.drop (p + 1)).find? (·.closes key) with _ | first
      · rw [hold, Option.none_or, List.find?_singleton] at hfind
        split at hfind
        · cases hfind
          exact Or.inr ⟨key, report, rfl, state, records, hget, hold⟩
        · cases hfind
      · rw [hold, Option.some_or] at hfind
        exact Or.inl ⟨key, state, records, report, hget, hold.trans hfind⟩
    · rintro (⟨key, state, records, report, hget, hfind⟩ | ⟨key, report, rfl, state, records, hget, hnone⟩)
      · exact ⟨key, state, records, report, hget, by rw [hfind, Option.some_or]⟩
      · refine ⟨key, state, records, report, hget, ?_⟩
        rw [hnone, Option.none_or, List.find?_singleton, if_pos (by simp [Entry.closes])]
  · have hpast : ∀ q, p ≤ q → (h ++ [e]).drop (q + 1) = [] := by
      intro q hq
      rw [List.drop_eq_nil_iff, List.length_append, List.length_singleton]
      omega
    constructor
    · rintro ⟨key, state, records, report, -, hfind⟩
      rw [hpast p le_rfl] at hfind
      cases hfind
    · rintro (⟨key, state, records, report, hget, -⟩ | ⟨key, report, rfl, hlive⟩)
      · exact absurd (List.getElem?_eq_some_iff.mp hget).1 hp
      · exact absurd (List.mem_range.mp (List.mem_filter.mp hlive).1) hp

/-- When no set follows and the slot is closed, none of its sets is live. -/
theorem live_append_eq_nil {more : List Entry} (hsets : ∀ x ∈ more, x.isSet = false) (he : e ∈ more)
    (hcloses : e.closes key = true) : live key (h ++ more) = [] := by
  rw [List.eq_nil_iff_forall_not_mem]
  intro p hp
  obtain ⟨state, records, hget, hnone⟩ := isLive_iff.mp (mem_live.mp hp)
  rcases Nat.lt_or_ge p h.length with hlt | hge
  · -- the slot is closed after the set
    rw [List.drop_append_of_le_length hlt, List.find?_append, Option.or_eq_none_iff] at hnone
    exact List.find?_eq_none.mp hnone.2 e he hcloses
  · -- a set would be among those that follow
    rw [List.getElem?_append_right hge] at hget
    cases hsets _ (List.mem_of_getElem? hget)

/-- A set that is live has not been counted. -/
theorem not_isCounted_of_live {p : Nat} (hp : p ∈ live key h) : ¬ IsCounted h p := by
  rintro ⟨k, state, records, report, hget, hfind⟩
  obtain ⟨_, _, hget', hnone⟩ := isLive_iff.mp (mem_live.mp hp)
  rw [hget] at hget'
  cases hget'
  rw [hnone] at hfind
  cases hfind

end

end Ledger

/-! ### Slots and their histories -/

namespace Slot

open Ledger

/-- A slot is as its history says. -/
structure Keeps (key : SlotKey) (initial : Option Value) (h : List Entry) (slot : Slot) : Prop where
  latest : slot.latest = Ledger.latest key initial h
  pending : slot.pending = !(since key h).isEmpty
  current : slot.current = Ledger.latest key initial (settled key h)
  records : slot.records = min recordLimit ((counting key h).map Entry.records).sum

/-- What a swap hands out is what the history of the slot before it says: something if there was a set or
reset since the last swap, and then the state that the last of these gave and the records that were set since
the last swap or reset. -/
structure Tells (key : SlotKey) (h : List Entry) (report : Option Report) : Prop where
  isSome : report.isSome = !(since key h).isEmpty
  state : ∀ r ∈ report, ∀ e, (since key h).getLast? = some e → e.value? = some r.state
  records : ∀ r ∈ report, r.records = min recordLimit ((counting key h).map Entry.records).sum

variable {key : SlotKey} {initial : Option Value} {h : List Entry} {slot : Slot} {e : Entry}

/-- A slot starts as the empty history says. -/
theorem keeps_start (key : SlotKey) (initial : Option Value) : (start initial).Keeps key initial [] :=
  ⟨rfl, rfl, rfl, rfl⟩

/-- What happens to other slots is of no account. -/
theorem Keeps.other (hs : slot.Keeps key initial h) (hk : e.key? ≠ some key) :
    slot.Keeps key initial (h ++ [e]) := by
  have habout : about key (h ++ [e]) = about key h := about_snoc_of_ne hk
  have hopen : ¬ e.closes key = true := by
    cases e with
    | set | look | write => exact Bool.false_ne_true
    | reset k | swap k _ => simpa [Entry.closes, Entry.key?] using hk
  refine ⟨?_, ?_, ?_, ?_⟩
  · rw [hs.latest, Ledger.latest, Ledger.latest, habout]
  · rw [hs.pending, since, since, habout]
  · rw [hs.current, settled_snoc, if_neg hopen]
  · rw [hs.records, counting, counting, habout]

/-- A slot that is as its history says is so after a set. -/
theorem Keeps.set (hs : slot.Keeps key initial h) (state : Value) (records : Nat) :
    (slot.set state records).Keeps key initial (h ++ [Entry.set key state records]) := by
  refine ⟨?_, ?_, ?_, ?_⟩
  · rw [latest_snoc rfl]
    rfl
  · rw [since_snoc rfl]
    simp [Slot.set, Entry.isSwap]
  · rw [settled_snoc]
    exact hs.current
  · rw [counting_snoc rfl]
    simp only [Slot.set, addRecords, hs.records, Entry.isSet, if_true, List.map_append, List.map_cons,
      List.map_nil, List.sum_append, List.sum_cons, List.sum_nil, Entry.records]
    omega

/-- After a reset a slot is as its history says, however it was before. -/
theorem Keeps.reset (slot : Slot) : slot.reset.Keeps key initial (h ++ [Entry.reset key]) := by
  refine ⟨?_, ?_, ?_, ?_⟩
  · rw [latest_snoc rfl]
    rfl
  · rw [since_snoc rfl]
    simp [Slot.reset, Entry.isSwap]
  · rw [settled_snoc, if_pos (by simp [Entry.closes]), latest_snoc rfl]
    rfl
  · rw [counting_snoc rfl]
    rfl

/-- When nothing is pending there is nothing to count. -/
theorem Keeps.counting_eq_nil (hs : slot.Keeps key initial h) (hp : slot.pending = false) :
    counting key h = [] := by
  refine Ledger.counting_eq_nil ?_
  rw [hs.pending] at hp
  simpa using hp

/-- A pending slot hands out its latest state and all records that it has counted. -/
theorem swap_of_pending (h : slot.pending = true) :
    slot.swap = ({ slot with current := slot.latest, pending := false, records := 0 },
      some ⟨slot.latest, slot.records⟩) :=
  if_pos h

/-- A swap leaves a slot that is not pending as it is. -/
theorem swap_of_not_pending (h : slot.pending = false) : slot.swap = (slot, none) :=
  if_neg (Bool.eq_false_iff.mp h)

/-- A swap hands out something if and only if the slot is pending. -/
theorem isSome_swap (slot : Slot) : slot.swap.2.isSome = slot.pending := by
  rcases hp : slot.pending with _ | _
  · rw [swap_of_not_pending hp]
    rfl
  · rw [swap_of_pending hp]
    rfl

/-- A slot that is as its history says is so after a swap. -/
theorem Keeps.swap (hs : slot.Keeps key initial h) (report : Option Report) :
    slot.swap.1.Keeps key initial (h ++ [Entry.swap key report]) := by
  have hlatest : Ledger.latest key initial (h ++ [Entry.swap key report]) =
      Ledger.latest key initial h := by
    rw [latest_snoc rfl]
    rfl
  have hsince : since key (h ++ [Entry.swap key report]) = [] := since_snoc rfl
  have hcounting : counting key (h ++ [Entry.swap key report]) = [] := counting_snoc rfl
  have hsettled : settled key (h ++ [Entry.swap key report]) = h ++ [Entry.swap key report] := by
    rw [settled_snoc, if_pos (by simp [Entry.closes])]
  rcases hp : slot.pending with _ | _
  · rw [swap_of_not_pending hp]
    refine ⟨?_, ?_, ?_, ?_⟩
    · rw [hlatest]
      exact hs.latest
    · rw [hsince]
      exact hp
    · rw [hsettled, hlatest, hs.current, latest_settled initial (hs.counting_eq_nil hp)]
    · rw [hs.records, hs.counting_eq_nil hp, hcounting]
  · rw [swap_of_pending hp]
    refine ⟨?_, ?_, ?_, ?_⟩
    · rw [hlatest]
      exact hs.latest
    · rw [hsince]
      rfl
    · rw [hsettled, hlatest]
      exact hs.latest
    · rw [hcounting]
      rfl

/-- A swap hands out the state that the slot was last given and the records that were set since the last
swap or reset. -/
theorem Keeps.report (hs : slot.Keeps key initial h) {r : Report} (hr : slot.swap.2 = some r) :
    r.state = Ledger.latest key initial h ∧
      r.records = min recordLimit ((counting key h).map Entry.records).sum := by
  have hp : slot.pending = true := by rw [← isSome_swap, hr]; rfl
  rw [swap_of_pending hp] at hr
  cases hr
  exact ⟨hs.latest, hs.records⟩

/-- What a swap hands out is what the history of the slot says. -/
theorem Keeps.tells (hs : slot.Keeps key initial h) : Tells key h slot.swap.2 where
  isSome := by rw [isSome_swap, hs.pending]
  state := by
    intro r hr e he
    rw [value?_of_since initial he, (hs.report hr).1]
  records := fun r hr => (hs.report hr).2

end Slot

end Intake
