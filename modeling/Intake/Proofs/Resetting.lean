import Intake.Proofs.Flush
import Mathlib.Data.List.Permutation
/-!
# What a reset reaches

Whoever works for a feed may reset it. The slots are looked up in two ways, by the feed and by each of its streams,
and these may lead to one slot twice or nowhere: the feed may be a stream of its own, a member, the global feed, a
global feed over other streams, or nothing that the ledger knows. `holds` says of which slots a feed is in charge, and
`find?_resetAll` that just these are wiped.

What is wiped surfaces in the messages of the next checkpoint, together with what is not. `tidings` is what a
checkpoint says when some slots count as wiped. All that it says of the others it says without looking at which slots
are wiped, so that a checkpoint with the reset and one without it can be compared slot by slot. The main statement is
`reset_wipes_own_slots`.
-/

namespace Intake

/-- Changing the value of a key into itself changes nothing. -/
theorem Table.adjust_eq_self {κ ν : Type} [DecidableEq κ] {t : Table κ ν} {key : κ} {f : ν → ν}
    (h : ∀ v, t.find? key = some v → f v = v) : t.adjust key f = t := by
  induction t with
  | nil => rfl
  | cons e rest ih =>
    obtain ⟨k, v⟩ := e
    simp only [find?_cons] at h
    by_cases hk : k = key
    · rw [adjust, if_pos hk, h v (if_pos hk)]
    · simp only [hk, if_false] at h
      rw [adjust, if_neg hk, ih h]

/-- What a message tells of a slot. A message of the global feed tells of a stream as often as the feed lists it. -/
def StateMessage.told (key : SlotKey) : StateMessage → List Value
  | stream id state _ => if .stream id = key then [state] else []
  | global shared states _ =>
    match key with
    | .shared => [shared]
    | .stream id => (states.filter (·.1 == id)).map (·.2)

theorem StateMessage.mem_told_global_iff {shared v : Value} {ids : List StreamId} {state : StreamId → Value} {n : Nat}
    {id : StreamId} :
    v ∈ told (.stream id) (.global shared (ids.map fun id => (id, state id)) n) ↔ id ∈ ids ∧ v = state id := by
  simp only [told, List.mem_map, List.mem_filter, beq_iff_eq]
  constructor
  · rintro ⟨_, ⟨⟨other, hother, rfl⟩, rfl⟩, rfl⟩
    exact ⟨hother, rfl⟩
  · rintro ⟨hid, rfl⟩
    exact ⟨_, ⟨⟨id, hid, rfl⟩, rfl⟩, rfl⟩

namespace Ledger

/-- Whether a feed is in charge of a slot: of the shared one if it is a global feed over the same streams as the
ledger's own, and of the slots of its streams. -/
def holds (l : Ledger) (f : Feed) : SlotKey → Bool
  | .shared => f.global?.any fun g => l.global.any (·.ids == g.ids)
  | .stream id => f.ids.contains id

/-! ### Resetting slots -/

section
variable {l : Ledger} {f : Feed} {key : SlotKey}

theorem find?_resets (l : Ledger) (keys : List SlotKey) (key : SlotKey) :
    (keys.foldl reset l).slots.find? key =
      if key ∈ keys then (l.slots.find? key).map Slot.reset else l.slots.find? key := by
  induction keys generalizing l with
  | nil => rfl
  | cons k rest ih =>
    have hfirst := find?_apply l (.reset k) key
    simp only [apply, Op.key] at hfirst
    rw [List.foldl_cons, ih, hfirst]
    by_cases hk : k = key
    · -- a slot that is reset again is as after the first time
      rcases l.slots.find? key with _ | slot <;> simp [hk, Op.onSlot, Slot.reset]
    · simp [hk, Ne.symm hk]

/-- Resetting slots that have been reset changes nothing. -/
theorem resets_of_reset (keys : List SlotKey)
    (h : ∀ key ∈ keys, ∀ slot, l.slots.find? key = some slot → slot.reset = slot) : keys.foldl reset l = l := by
  induction keys with
  | nil => rfl
  | cons key rest ih =>
    have hfirst : l.reset key = l := by
      rw [reset, Table.adjust_eq_self (h key List.mem_cons_self)]
    rw [List.foldl_cons, hfirst]
    exact ih fun other hother => h other (List.mem_cons_of_mem _ hother)

theorem mem_scopesOf_iff (l : Ledger) (f : Feed) (key : SlotKey) :
    key ∈ l.scopesOf f ↔ l.scope? f = some key ∨ ∃ s ∈ f.streams, l.streamScope? s.id = some key := by
  simp [scopesOf, Feed.ids]

theorem streamScope?_eq_some_iff {id : StreamId} :
    l.streamScope? id = some key ↔ .stream id = key ∧ (l.slots.find? key).isSome = true := by
  unfold streamScope?
  split
  · rename_i hthere
    rw [Option.some.injEq, iff_self_and]
    rintro rfl
    exact hthere
  · rename_i hnone
    simp only [reduceCtorEq, false_iff, not_and]
    rintro rfl
    exact hnone

theorem scope?_global_eq_some_iff {g : Global} :
    l.scope? (.global g) = some key ↔ .shared = key ∧ ∃ own, l.global = some own ∧ own.ids = g.ids := by
  rw [scope?, ← Option.map_eq_some_iff]
  split <;> simp [*]

/-- The slots that belong to a feed are those it is in charge of, as far as there are such. -/
theorem mem_scopesOf_iff_holds (hshared : l.global.isSome = true → (l.slots.find? .shared).isSome = true) :
    key ∈ l.scopesOf f ↔ l.holds f key = true ∧ (l.slots.find? key).isSome = true := by
  rw [mem_scopesOf_iff]
  simp only [streamScope?_eq_some_iff]
  cases f with
  | stream s =>
    rw [scope?, streamScope?_eq_some_iff]
    cases key with
    | shared => simp [holds, Feed.global?]
    | stream id => simp [holds, Feed.ids, Feed.streams, @eq_comm _ id]
  | global g =>
    rw [scope?_global_eq_some_iff]
    cases key with
    | shared =>
      rcases hg : l.global with _ | own
      · simp [holds, Feed.global?, hg]
      · simp [holds, Feed.global?, hg, hshared]
    | stream id => simp [holds, Feed.ids, Feed.streams, ← and_assoc]

/-- A reset of a feed wipes the slots that the feed is in charge of and leaves every other slot alone. -/
theorem find?_resetAll (hshared : l.global.isSome = true → (l.slots.find? .shared).isSome = true) (key : SlotKey) :
    (l.resetAll f).slots.find? key =
      if l.holds f key = true then (l.slots.find? key).map Slot.reset else l.slots.find? key := by
  rw [resetAll, find?_resets]
  simp only [mem_scopesOf_iff_holds hshared]
  rcases l.slots.find? key with _ | slot <;> simp

theorem global_resetAll (l : Ledger) (f : Feed) : (l.resetAll f).global = l.global :=
  List.foldlRecOn (motive := fun l' => l'.global = l.global) (l.scopesOf f) reset rfl
    fun l' hl' key _ => (global_apply l' (.reset key)).trans hl'

theorem streams_resetAll (l : Ledger) (f : Feed) : (l.resetAll f).streams = l.streams :=
  List.foldlRecOn (motive := fun l' => l'.streams = l.streams) (l.scopesOf f) reset rfl
    fun l' hl' key _ => (streams_apply l' (.reset key)).trans hl'

theorem standalone_resetAll (l : Ledger) (f : Feed) : (l.resetAll f).standalone = l.standalone := by
  simp only [standalone, isMember, global_resetAll, streams_resetAll]

theorem locate_resetAll (l : Ledger) (f : Feed) (scope : Scope) : (l.resetAll f).locate scope = l.locate scope := by
  have hreset := serve_eq l (.resetAll f)
  rw [serve] at hreset
  rw [hreset, locate_foldl]

/-- A second reset finds the same slots, and finds them wiped. -/
theorem resetAll_resetAll (l : Ledger) (f : Feed) : (l.resetAll f).resetAll f = l.resetAll f := by
  have hfeed : (l.resetAll f).scope? f = l.scope? f := locate_resetAll l f (.feed f)
  have hstream : (l.resetAll f).streamScope? = l.streamScope? := funext fun id => locate_resetAll l f (.stream id)
  have hscopes : (l.resetAll f).scopesOf f = l.scopesOf f := by rw [scopesOf, scopesOf, hfeed, hstream]
  rw [resetAll, hscopes]
  apply resets_of_reset
  intro key hkey slot hslot
  rw [resetAll, find?_resets, if_pos hkey] at hslot
  obtain ⟨before, -, rfl⟩ := Option.map_eq_some_iff.mp hslot
  rfl

/-! ### What is handed out after a reset -/

/-- Whether a slot has something to tell when some slots count as wiped. -/
def isDue (l : Ledger) (wiped : SlotKey → Bool) (key : SlotKey) : Bool :=
  if wiped key then (l.slots.find? key).isSome else l.isPending key

/-- What is told of a slot when some slots count as wiped. -/
def toldAt (l : Ledger) (wiped : SlotKey → Bool) (key : SlotKey) : Value :=
  if wiped key then .null else .ofOption (l.newestAt key)

/-- The records that a slot brings when some slots count as wiped. -/
def countedAt (l : Ledger) (wiped : SlotKey → Bool) (key : SlotKey) : Nat :=
  if wiped key then 0 else l.unreportedAt key

/-- The message of a global feed when some slots count as wiped, if any of its slots has something to tell. A stream
that is listed twice is told twice and counted once. -/
def globalTiding? (l : Ledger) (wiped : SlotKey → Bool) (g : Global) : Option StateMessage :=
  if l.isDue wiped .shared || g.ids.any (l.isDue wiped <| .stream ·) then
    some (.global (l.toldAt wiped .shared) (g.ids.map fun id => (id, l.toldAt wiped (.stream id)))
      (min (2 ^ 64 - 1)
        (l.countedAt wiped .shared + (g.ids.eraseDups.map fun id => l.countedAt wiped (.stream id)).sum)))
  else none

/-- What a checkpoint says when some slots count as wiped: the message of the global feed, and one for each stream of
its own that has something to tell. -/
def tidings (l : Ledger) (wiped : SlotKey → Bool) : List StateMessage :=
  (l.global.bind (l.globalTiding? wiped)).toList ++
    (l.standalone.filter (l.isDue wiped <| .stream ·)).map fun id =>
      .stream id (l.toldAt wiped (.stream id)) (l.countedAt wiped (.stream id))

/-- The ledger after a reset tells what the ledger before it tells when the slots of the feed count as wiped. -/
theorem tidings_resetAll (hshared : l.global.isSome = true → (l.slots.find? .shared).isSome = true) :
    (l.resetAll f).tidings (fun _ => false) = l.tidings (l.holds f) := by
  have hdue : (l.resetAll f).isDue (fun _ => false) = l.isDue (l.holds f) := by
    funext key
    simp only [isDue, isPending, find?_resetAll hshared]
    rcases l.slots.find? key with _ | slot <;> cases l.holds f key <;> simp [Slot.reset]
  have htold : (l.resetAll f).toldAt (fun _ => false) = l.toldAt (l.holds f) := by
    funext key
    simp only [toldAt, newestAt, find?_resetAll hshared]
    rcases l.slots.find? key with _ | slot <;> cases l.holds f key <;> simp [Slot.reset, Slot.newest, Value.ofOption]
  have hcounted : (l.resetAll f).countedAt (fun _ => false) = l.countedAt (l.holds f) := by
    funext key
    simp only [countedAt, unreportedAt, find?_resetAll hshared]
    rcases l.slots.find? key with _ | slot <;> cases l.holds f key <;> simp [Slot.reset, Slot.unreported]
  have hglobal : (l.resetAll f).globalTiding? (fun _ => false) = l.globalTiding? (l.holds f) := by
    funext g
    simp only [globalTiding?, hdue, htold, hcounted]
  simp only [tidings, hglobal, hdue, htold, hcounted, global_resetAll, standalone_resetAll]

/-- Whatever is told of a slot is the same. -/
theorem eq_toldAt_of_mem {wiped : SlotKey → Bool} {m : StateMessage} {v : Value} (hm : m ∈ l.tidings wiped)
    (hv : v ∈ m.told key) : v = l.toldAt wiped key := by
  rcases List.mem_append.mp hm with hwhole | halone
  · obtain ⟨g, -, hg⟩ := Option.bind_eq_some_iff.mp (Option.mem_toList.mp hwhole)
    unfold globalTiding? at hg
    split at hg
    · cases hg
      cases key with
      | shared => exact List.mem_singleton.mp hv
      | stream id => exact (StateMessage.mem_told_global_iff.mp hv).2
    · cases hg
  · obtain ⟨id, -, rfl⟩ := List.mem_map.mp halone
    rw [StateMessage.told] at hv
    split at hv
    · rename_i hkey
      rw [← hkey]
      exact List.mem_singleton.mp hv
    · cases hv

theorem exists_told_of_listed {wiped : SlotKey → Bool} {g : Global} (hg : l.global = some g)
    (hplace : key = .shared ∨ ∃ id ∈ g.ids, key = .stream id) (hdue : l.isDue wiped key = true) :
    ∃ m ∈ l.tidings wiped, l.toldAt wiped key ∈ m.told key := by
  have hany : (l.isDue wiped .shared || g.ids.any (l.isDue wiped <| .stream ·)) = true := by
    rw [Bool.or_eq_true, List.any_eq_true]
    rcases hplace with rfl | ⟨id, hid, rfl⟩
    · exact .inl hdue
    · exact .inr ⟨id, hid, hdue⟩
  have hmessage := (if_pos hany : l.globalTiding? wiped g = some _)
  refine ⟨_, List.mem_append_left _ (Option.mem_toList.mpr (Option.bind_eq_some_iff.mpr ⟨g, hg, hmessage⟩)), ?_⟩
  rcases hplace with rfl | ⟨id, hid, rfl⟩
  · exact List.mem_singleton_self _
  · exact StateMessage.mem_told_global_iff.mpr ⟨hid, rfl⟩

/-- Whatever slot has something to tell is told of. -/
theorem exists_told_of_isDue {wiped : SlotKey → Bool} (hc : l.Covered) (hdue : l.isDue wiped key = true) :
    ∃ m ∈ l.tidings wiped, l.toldAt wiped key ∈ m.told key := by
  have hthere : (l.slots.find? key).isSome = true := by
    unfold isDue isPending at hdue
    split at hdue
    · exact hdue
    · exact Option.isSome_of_any hdue
  obtain ⟨v, hv, hkey⟩ := hc key hthere
  rcases List.mem_append.mp hv with hwhole | halone
  · split at hwhole
    · cases hwhole
    · rename_i g hg
      refine exists_told_of_listed hg ?_ hdue
      cases v with
      | shared => exact .inl (Option.some.inj hkey).symm
      | member id => exact .inr ⟨id, by simpa using hwhole, (Option.some.inj hkey).symm⟩
      | wrap | look _ => cases hkey
      | alone id => simp at hwhole
  · obtain ⟨id, hid, rfl⟩ := List.mem_map.mp halone
    cases hkey
    refine ⟨_, List.mem_append_right _ (List.mem_map.mpr ⟨id, List.mem_filter.mpr ⟨hid, hdue⟩, rfl⟩), ?_⟩
    simp [StateMessage.told]

end

/-! ### The statement -/

section
variable (global : Option (Global × Option Value)) (streams : List (Stream × Option Value)) (ops : List Op)

theorem shared_used (h : (used global streams ops).global.isSome = true) :
    ((used global streams ops).slots.find? .shared).isSome = true := by
  rw [global_used, Option.isSome_map] at h
  rw [isSome_find?_used]
  exact h

/-- A checkpoint says what there is to tell when nothing counts as wiped. -/
theorem messages_used :
    (used global streams ops).checkpoint.2 = (used global streams ops).tidings fun _ => false := by
  have hnodup : ((used global streams ops).streams.map (·.id)).Nodup := by
    rw [streams_used]
    exact (enrolled_make global streams).nodup
  rw [messages_checkpoint (capped_used global streams ops) hnodup]
  · rfl
  · intro g hg
    refine ⟨shared_used global streams ops (by rw [hg]; rfl), fun id hid => ?_⟩
    rw [global_used] at hg
    obtain ⟨entry, rfl, rfl⟩ := Option.map_eq_some_iff.mp hg
    rw [isSome_find?_used]
    simp [tracks, Global.contains, hid]

end

/-- A reset of a feed, whatever was asked of the ledger before and whatever the feed is, reaches the slot of the
feed, if it is tracked, and the slots of its streams, as far as there are such. Each of them has no current state after
it, and that it has none is pending, with no records; every other slot is as before, and a second reset changes
nothing. What a checkpoint says then is what it would have said without the reset, but that these slots are told of,
with null and no records: whatever it tells of another slot, and whatever this brings to a count, is the same. -/
theorem reset_wipes_own_slots (global : Option (Global × Option Value)) (streams : List (Stream × Option Value))
    (requests : List Request) (f : Feed) :
    let l := requests.foldl serve (make global streams)
    let after := l.resetAll f
    (∀ key, l.holds f key = true ∧ (l.slots.find? key).isSome = true ↔
      l.scope? f = some key ∨ ∃ s ∈ f.streams, l.streamScope? s.id = some key) ∧
    (∀ key, after.slots.find? key =
      if l.holds f key = true then
        (l.slots.find? key).map fun _ => { current := none, latest := none, pending := true, records := 0 }
      else l.slots.find? key) ∧
    after.resetAll f = after ∧
    l.checkpoint.2 = l.tidings (fun _ => false) ∧
    after.checkpoint.2 = l.tidings (l.holds f) ∧
    ∀ key, (l.holds f key = true → (l.slots.find? key).isSome = true →
        ∃ m ∈ after.checkpoint.2, .null ∈ m.told key) ∧
      ∀ m ∈ after.checkpoint.2, ∀ v ∈ m.told key,
        v = if l.holds f key = true then .null else .ofOption (l.newestAt key) := by
  intro l after
  have hl : l = used global streams _ := served_eq_used global streams requests
  have hafter : after = used global streams
      ((requests ++ [Request.resetAll f]).flatMap (Request.ops (make global streams))) := by
    rw [← served_eq_used, List.foldl_append]
    rfl
  have hshared : l.global.isSome = true → (l.slots.find? .shared).isSome = true := by
    rw [hl]
    exact shared_used global streams _
  have hcovered : l.Covered := by
    rw [hl]
    exact covered_used global streams _
  have hmessages : after.checkpoint.2 = l.tidings (l.holds f) := by
    rw [← tidings_resetAll hshared]
    show after.checkpoint.2 = after.tidings _
    rw [hafter]
    exact messages_used global streams _
  refine ⟨fun key => ?_, fun key => find?_resetAll hshared key, resetAll_resetAll l f, ?_, hmessages,
    fun key => ⟨?_, ?_⟩⟩
  · rw [← mem_scopesOf_iff, mem_scopesOf_iff_holds hshared]
  · rw [hl]
    exact messages_used global streams _
  · intro hholds hthere
    have hdue : l.isDue (l.holds f) key = true := by rw [isDue, if_pos hholds, hthere]
    rw [hmessages]
    simpa only [toldAt, hholds, if_true] using exists_told_of_isDue hcovered hdue
  · intro m hm v hv
    rw [hmessages] at hm
    exact eq_toldAt_of_mem hm hv

/-- Somebody works for a global feed that is not the ledger's own. It has a stream with a slot of its own, a member and
a stream that nobody knows. -/
theorem reset_wipes_own_slots_other_global :
    let a : Stream := { id := { name := "a" } }
    let b : Stream := { id := { name := "b" } }
    let c : Stream := { id := { name := "c" } }
    let d : Stream := { id := { name := "d" } }
    let f : Feed := .global ⟨[c, a, { id := { name := "x" } }]⟩
    let requests : List Request :=
      [.set (.stream a.id) (.text "a1") 2, .set (.feed (.global ⟨[a, b]⟩)) (.text "s1") 5, .handOut,
       .set (.stream b.id) (.text "b2") 3, .set (.stream a.id) (.text "a2") 4, .set (.stream d.id) (.text "d1") 6]
    let l := requests.foldl serve (make (some (⟨[a, b]⟩, none)) [(c, some (.text "c0")), (d, none), (a, none)])
    l.checkpoint.2 = [.global (.text "s1") [(a.id, .text "a2"), (b.id, .text "b2")] 7, .stream d.id (.text "d1") 6] ∧
    (l.resetAll f).checkpoint.2 = [.global (.text "s1") [(a.id, .null), (b.id, .text "b2")] 3, .stream c.id .null 0,
      .stream d.id (.text "d1") 6] ∧
    (l.resetAll f).resetAll f = l.resetAll f ∧
    ∃ m ∈ (l.resetAll f).checkpoint.2, .null ∈ m.told (.stream c.id) := by
  intro a b c d f requests l
  obtain ⟨-, -, htwice, hbefore, hafter, hslots⟩ := reset_wipes_own_slots (some (⟨[a, b]⟩, none))
    [(c, some (.text "c0")), (d, none), (a, none)] requests f
  have hheld : l.holds f (.stream c.id) = true := by decide
  have hthere : (l.slots.find? (.stream c.id)).isSome = true := by decide +kernel
  refine ⟨hbefore.trans ?_, hafter.trans ?_, htwice, (hslots (.stream c.id)).1 hheld hthere⟩
  · cbv
  · cbv

end Ledger

end Intake
