import Intake.Ledger
import Mathlib.Data.List.Induction
/-!
# What a new ledger holds

A ledger is made from an optional global feed and a list of streams, either of which may name a stream
more than once. What comes out is in good order all the same: no two feeds have one key
(`nodup_keys_feeds`), every stream that is read on its own has a slot (`Enrolled`), nothing is pending
(`fresh_make`), and handing out visits every slot (`covered_make`). `find?_make` says which slots there are and what
is in them, and `ids_make` which streams are read on their own, in which order.
-/

namespace Intake.Ledger

/-- The streams of a ledger have names of their own and a slot each. -/
structure Enrolled (l : Ledger) : Prop where
  nodup : (l.streams.map (·.id)).Nodup
  tracked : ∀ st ∈ l.streams, (l.slots.find? (.stream st.id)).isSome = true

/-- Every slot is as it started. -/
def Fresh (l : Ledger) : Prop :=
  ∀ key slot, l.slots.find? key = some slot → ∃ initial, slot = .start initial

/-- A slot that a table gains does not take one away. -/
theorem isSome_find?_put {slots : Table SlotKey Slot} {key other : SlotKey} {slot : Slot}
    (h : (slots.find? other).isSome = true) : ((slots.put key slot).find? other).isSome = true := by
  rw [Table.find?_put]
  split
  · rfl
  · exact h

/-- A slot that is put in as it starts leaves all slots as they started. -/
theorem fresh_put {l : Ledger} (h : l.Fresh) (key : SlotKey) (initial : Option Value) :
    ∀ other slot, (l.slots.put key (.start initial)).find? other = some slot →
      ∃ initial', slot = .start initial' := by
  intro other slot hs
  rw [Table.find?_put] at hs
  split at hs
  · exact ⟨initial, (Option.some.inj hs).symm⟩
  · exact h other slot hs

/-! ### Enrolling streams -/

/-- A stream that comes is listed once and has its slot, or its name is there already and nothing changes. -/
theorem Enrolled.enroll {l : Ledger} (h : l.Enrolled) (stream : Stream) (initial : Option Value) :
    (l.enroll stream initial).Enrolled := by
  unfold Ledger.enroll
  split
  · exact h
  · rename_i hnew
    refine ⟨?_, fun st hst => ?_⟩
    · rw [List.map_append, List.nodup_append]
      refine ⟨h.nodup, by simp, ?_⟩
      -- a stream of that name would have a slot
      intro a ha b hb hab
      obtain ⟨st, hst, rfl⟩ := List.mem_map.mp ha
      have hid : st.id = stream.id := by simpa [hab] using hb
      exact hnew (hid ▸ h.tracked st hst)
    · rcases List.mem_append.mp hst with hst | hst
      · exact isSome_find?_put (h.tracked st hst)
      · rw [List.mem_singleton.mp hst, Table.find?_put, if_pos rfl]
        rfl

/-- A slot for a member takes nothing away from the streams. -/
theorem Enrolled.ensure {l : Ledger} (h : l.Enrolled) (id : StreamId) : (l.ensure id).Enrolled := by
  unfold Ledger.ensure
  split
  · exact h
  · exact ⟨h.nodup, fun st hst => isSome_find?_put (h.tracked st hst)⟩

/-- The slot of a stream that comes is as it starts. -/
theorem Fresh.enroll {l : Ledger} (h : l.Fresh) (stream : Stream) (initial : Option Value) :
    (l.enroll stream initial).Fresh := by
  unfold Ledger.enroll
  split
  · exact h
  · exact fresh_put h _ _

/-- The slot of a member that comes is as it starts. -/
theorem Fresh.ensure {l : Ledger} (h : l.Fresh) (id : StreamId) : (l.ensure id).Fresh := by
  unfold Ledger.ensure
  split
  · exact h
  · exact fresh_put h _ _

/-- What holds of the ledger without streams, and goes on holding as streams and members come, holds of
every new ledger. -/
theorem make_induction {P : Ledger → Prop} (global : Option (Global × Option Value))
    (streams : List (Stream × Option Value)) (hempty : P (empty global))
    (henroll : ∀ l st initial, P l → P (l.enroll st initial))
    (hensure : ∀ l id, (∃ g ∈ global.map Prod.fst, id ∈ g.ids) → P l → P (l.ensure id)) :
    P (make global streams) := by
  have hstreams : P (streams.foldl (fun l entry => l.enroll entry.1 entry.2) (empty global)) :=
    List.foldlRecOn streams _ hempty fun l hl entry _ => henroll l entry.1 entry.2 hl
  rcases global with _ | ⟨g, initial⟩
  · exact hstreams
  · exact List.foldlRecOn g.ids _ hstreams fun l hl id hid => hensure l id ⟨g, rfl, hid⟩ hl

/-- In a new ledger every stream is listed once and has its slot. -/
theorem enrolled_make (global : Option (Global × Option Value))
    (streams : List (Stream × Option Value)) : (make global streams).Enrolled := by
  refine make_induction global streams ?_ (fun l st initial h => h.enroll st initial)
    fun l id _ h => h.ensure id
  have hnone : (empty global).streams = [] := by rcases global with _ | ⟨g, initial⟩ <;> rfl
  constructor
  · simp [hnone]
  · simp [hnone]

/-- In a new ledger every slot is as it starts. -/
theorem fresh_make (global : Option (Global × Option Value))
    (streams : List (Stream × Option Value)) : (make global streams).Fresh := by
  refine make_induction global streams ?_ (fun l st initial h => h.enroll st initial)
    fun l id _ h => h.ensure id
  intro key slot hs
  rcases global with _ | ⟨g, initial⟩
  · cases hs
  · simp only [empty, Table.find?_cons, Table.find?_nil] at hs
    split at hs
    · exact ⟨initial, (Option.some.inj hs).symm⟩
    · cases hs

/-- A global feed has the shared slot. -/
theorem isSome_shared_make (global : Option (Global × Option Value))
    (streams : List (Stream × Option Value)) (hg : (make global streams).global.isSome = true) :
    ((make global streams).slots.find? .shared).isSome = true := by
  revert hg
  refine make_induction (P := fun l => l.global.isSome = true → (l.slots.find? .shared).isSome = true)
    global streams ?_ ?_ ?_
  · intro hg
    rcases global with _ | ⟨g, initial⟩
    · cases hg
    · rfl
  · intro l st initial ih
    unfold Ledger.enroll
    split
    · exact ih
    · exact fun hg => isSome_find?_put (ih hg)
  · intro l id _ ih
    unfold Ledger.ensure
    split
    · exact ih
    · exact fun hg => isSome_find?_put (ih hg)

/-! ### Feeds and visits -/

/-- Only with a global feed there is a visit to the shared slot. -/
theorem isSome_global_of_mem_plan {l : Ledger} (h : Visit.shared ∈ l.plan) :
    l.global.isSome = true := by
  rcases hg : l.global with _ | g
  · simp [plan, hg] at h
  · rfl

/-- No two feeds of a ledger have one key. -/
theorem nodup_keys_feeds {l : Ledger} (h : l.Enrolled) : (l.feeds.map Feed.key).Nodup := by
  have hids : l.streams.Pairwise fun a b => a.id ≠ b.id := List.pairwise_map.mp h.nodup
  have hstreams : (l.streams.map fun st => FeedKey.stream st.id).Nodup :=
    List.pairwise_map.mpr (hids.imp fun hne he => hne (FeedKey.stream.inj he))
  rw [feeds, List.map_append, List.map_map]
  rcases l.global with _ | g
  · exact hstreams
  · refine List.nodup_cons.mpr ⟨?_, hstreams⟩
    intro hmem
    obtain ⟨st, -, hst⟩ := List.mem_map.mp hmem
    cases hst

/-- Handing out visits the slot of every stream that is read on its own, with the global feed or
alone. -/
theorem exists_visit_of_mem {l : Ledger} {st : Stream} (hst : st ∈ l.streams) :
    ∃ v ∈ l.plan, v.key? = some (.stream st.id) := by
  by_cases hm : l.isMember st.id = true
  · refine ⟨.member st.id, ?_, rfl⟩
    rcases hg : l.global with _ | g
    · simp [isMember, hg] at hm
    · have hid : st.id ∈ g.ids := by
        simpa [isMember, hg, Global.contains] using hm
      simp [plan, hg, hid]
  · refine ⟨.alone st.id, ?_, rfl⟩
    refine List.mem_append_right _ (List.mem_map.mpr ⟨st.id, ?_, rfl⟩)
    exact List.mem_filter.mpr ⟨List.mem_map.mpr ⟨st, hst, rfl⟩, by simp [hm]⟩

/-- Handing out visits every slot there is. -/
def Covered (l : Ledger) : Prop :=
  ∀ key, (l.slots.find? key).isSome = true → ∃ v ∈ l.plan, v.key? = some key

/-- A slot that is found after one was put in is that one, or it was there before. -/
theorem isSome_of_put {slots : Table SlotKey Slot} {key other : SlotKey} {slot : Slot}
    (h : ((slots.put key slot).find? other).isSome = true) :
    key = other ∨ (slots.find? other).isSome = true := by
  rw [Table.find?_put] at h
  split at h
  · rename_i heq
    exact Or.inl heq
  · exact Or.inr h

/-- The slot of a stream that comes is visited, with the global feed or alone, and so is what was visited
before. -/
theorem Covered.enroll {l : Ledger} (h : l.Covered) (stream : Stream) (initial : Option Value) :
    (l.enroll stream initial).Covered := by
  unfold Ledger.enroll
  split
  · exact h
  · intro key hkey
    rcases isSome_of_put hkey with rfl | hold
    · exact exists_visit_of_mem (List.mem_append_right _ List.mem_cons_self)
    · obtain ⟨v, hv, hvk⟩ := h key hold
      refine ⟨v, ?_, hvk⟩
      -- what there was to visit is still to be visited
      rcases List.mem_append.mp hv with hv | hv
      · exact List.mem_append_left _ hv
      · obtain ⟨id, hid, rfl⟩ := List.mem_map.mp hv
        refine List.mem_append_right _ (List.mem_map.mpr ⟨id, ?_, rfl⟩)
        obtain ⟨hmem, halone⟩ := List.mem_filter.mp hid
        refine List.mem_filter.mpr ⟨?_, halone⟩
        rw [List.map_append]
        exact List.mem_append_left _ hmem

/-- The slot of a member is visited with the global feed that lists it. -/
theorem Covered.ensure {l : Ledger} {g : Global} {id : StreamId} (h : l.Covered)
    (hg : l.global = some g) (hid : id ∈ g.ids) : (l.ensure id).Covered := by
  unfold Ledger.ensure
  split
  · exact h
  · intro key hkey
    rcases isSome_of_put hkey with rfl | hold
    · exact ⟨.member id, by simp [plan, hg, hid], rfl⟩
    · exact h key hold

/-- Members come only from the global feed of the ledger, so their slots are visited with it. -/
theorem global_and_covered_make (global : Option (Global × Option Value))
    (streams : List (Stream × Option Value)) :
    (make global streams).global = global.map Prod.fst ∧ (make global streams).Covered := by
  refine make_induction (P := fun l => l.global = global.map Prod.fst ∧ l.Covered) global streams
    ?_ ?_ ?_
  · rcases global with _ | ⟨g, initial⟩
    · exact ⟨rfl, nofun⟩
    · refine ⟨rfl, fun key hkey => ⟨.shared, by simp [plan, empty], ?_⟩⟩
      simp only [empty, Table.find?_cons, Table.find?_nil] at hkey
      split at hkey
      · rename_i heq
        rw [← heq]
        rfl
      · cases hkey
  · rintro l st initial ⟨hg, hc⟩
    refine ⟨?_, hc.enroll st initial⟩
    unfold Ledger.enroll
    split <;> exact hg
  · rintro l id ⟨g, hmem, hid⟩ ⟨hg, hc⟩
    refine ⟨?_, hc.ensure (hg.trans hmem) hid⟩
    unfold Ledger.ensure
    split <;> exact hg

/-- The global feed of a new ledger is the one that was given. -/
theorem global_make (global : Option (Global × Option Value)) (streams : List (Stream × Option Value)) :
    (make global streams).global = global.map Prod.fst :=
  (global_and_covered_make global streams).1

/-- Handing out a new ledger visits every slot. -/
theorem covered_make (global : Option (Global × Option Value))
    (streams : List (Stream × Option Value)) : (make global streams).Covered :=
  (global_and_covered_make global streams).2

/-- There is a slot for every visit to the shared one, and a visit for every slot. -/
structure Stocked (l : Ledger) : Prop where
  shared : Visit.shared ∈ l.plan → (l.slots.find? .shared).isSome = true
  covered : l.Covered

/-- In a new ledger there is a slot for the visit to the shared one, and a visit for every slot. -/
theorem stocked_make (global : Option (Global × Option Value))
    (streams : List (Stream × Option Value)) : (make global streams).Stocked where
  shared := fun hmem => isSome_shared_make global streams (isSome_global_of_mem_plan hmem)
  covered := covered_make global streams

/-! ### Which slots there are -/

/-- Whether a read of some feeds has a slot of its own for something: for the shared state of a global feed, and for
the streams that are to be read or that the global feed lists. -/
def tracks (global : Option (Global × Option Value)) (streams : List (Stream × Option Value)) : SlotKey → Bool
  | .shared => global.isSome
  | .stream id => streams.any (·.1.id == id) || global.any (·.1.contains id)

/-- The state that is given for it. Of two streams with one name the first counts. -/
def initialAt (global : Option (Global × Option Value)) (streams : List (Stream × Option Value)) :
    SlotKey → Option Value
  | .shared => global.bind (·.2)
  | .stream id => (streams.find? (·.1.id == id)).bind (·.2)

/-- A slot is put into a table only if there is none. -/
theorem find?_supply (slots : Table SlotKey Slot) (key other : SlotKey) (slot : Slot) :
    (if (slots.find? key).isSome = true then slots else slots.put key slot).find? other =
      (slots.find? other).or (if key = other then some slot else none) := by
  by_cases hkey : key = other
  · subst hkey
    rcases hold : slots.find? key with _ | old
    · simp [Table.find?_put]
    · simp [hold]
  · split <;> simp [Table.find?_put, hkey]

/-- A stream that comes gets a slot with its state, unless there is one for its name. -/
theorem find?_enroll (l : Ledger) (stream : Stream) (initial : Option Value) (key : SlotKey) :
    (l.enroll stream initial).slots.find? key =
      (l.slots.find? key).or (if .stream stream.id = key then some (.start initial) else none) := by
  rw [← find?_supply, enroll]
  split <;> rfl

/-- A member that comes gets a slot without a state, unless there is one for its name. -/
theorem find?_ensure (l : Ledger) (id : StreamId) (key : SlotKey) : (l.ensure id).slots.find? key =
    (l.slots.find? key).or (if .stream id = key then some (.start none) else none) := by
  rw [← find?_supply, ensure]
  split <;> rfl

/-- The streams that come get the slots they need, each from the first of its name. -/
theorem find?_enrollAll (l : Ledger) (streams : List (Stream × Option Value)) (key : SlotKey) :
    (streams.foldl (fun l entry => l.enroll entry.1 entry.2) l).slots.find? key =
      (l.slots.find? key).or ((streams.find? (.stream ·.1.id == key)).map (.start ·.2)) := by
  induction streams generalizing l with
  | nil => simp
  | cons entry rest ih =>
    rw [List.foldl_cons, ih, find?_enroll, Option.or_assoc]
    by_cases hkey : SlotKey.stream entry.1.id = key
    · simp [hkey]
    · simp [hkey]

/-- The members that come get slots without a state, where there are none. -/
theorem find?_ensureAll (l : Ledger) (ids : List StreamId) (key : SlotKey) :
    (ids.foldl ensure l).slots.find? key =
      (l.slots.find? key).or (if ids.any (.stream · == key) = true then some (.start none) else none) := by
  induction ids generalizing l with
  | nil => simp
  | cons id rest ih =>
    rw [List.foldl_cons, ih, find?_ensure, Option.or_assoc]
    by_cases hkey : SlotKey.stream id = key
    · simp [hkey]
    · simp [hkey]

/-- The slots of a new ledger, and what is in them. -/
theorem find?_make (global : Option (Global × Option Value)) (streams : List (Stream × Option Value))
    (key : SlotKey) : (make global streams).slots.find? key =
      if tracks global streams key = true then some (.start (initialAt global streams key)) else none := by
  have hmake : (make global streams).slots.find? key =
      ((empty global).slots.find? key).or (((streams.find? (.stream ·.1.id == key)).map (.start ·.2)).or
        (if global.any (·.1.ids.any (.stream · == key)) = true then some (.start none) else none)) := by
    rcases global with _ | ⟨g, initial⟩
    · simp [make, find?_enrollAll]
    · simp [make, find?_ensureAll, find?_enrollAll, Option.or_assoc]
  rw [hmake]
  cases key with
  | shared => rcases global with _ | ⟨g, initial⟩ <;> simp [empty, tracks, initialAt, Table.find?_cons]
  | stream id =>
    have hempty : (empty global).slots.find? (.stream id) = none := by
      rcases global with _ | ⟨g, initial⟩ <;> simp [empty, Table.find?_cons]
    have hsame : ∀ other : StreamId, (SlotKey.stream other == SlotKey.stream id) = (other == id) := by
      intro other
      by_cases heq : other = id <;> simp [heq]
    simp only [hempty, hsame, Option.none_or, tracks, initialAt, Global.contains]
    rcases hfind : streams.find? (·.1.id == id) with _ | entry
    · have hnone : streams.any (·.1.id == id) = false := by simpa using hfind
      simp [hfind, hnone]
    · have hentry := List.find?_some hfind
      have hthere : streams.any (·.1.id == id) = true :=
        List.any_eq_true.mpr ⟨entry, List.mem_of_find?_eq_some hfind, hentry⟩
      simp [hfind, hthere]

/-- Members that come are not among the streams that are read on their own. -/
theorem streams_ensureAll (l : Ledger) (ids : List StreamId) : (ids.foldl ensure l).streams = l.streams := by
  refine List.foldlRecOn (motive := fun l' => l'.streams = l.streams) ids ensure rfl fun l' hl' id _ => ?_
  rw [← hl', ensure]
  split <;> rfl

/-- Of the streams that come each name is taken once, in the order in which the names come first. -/
theorem ids_enrollAll (global : Option (Global × Option Value)) (streams : List (Stream × Option Value)) :
    (streams.foldl (fun l entry => l.enroll entry.1 entry.2) (empty global)).streams.map (·.id) =
      (streams.map (·.1.id)).eraseDups := by
  induction streams using List.reverseRecOn with
  | nil => rcases global with _ | ⟨g, initial⟩ <;> rfl
  | append_singleton streams entry ih =>
    have hempty : (empty global).slots.find? (.stream entry.1.id) = none := by
      rcases global with _ | ⟨g, initial⟩ <;> simp [empty, Table.find?_cons]
    have hthere : ((streams.foldl (fun l entry => l.enroll entry.1 entry.2) (empty global)).slots.find?
        (.stream entry.1.id)).isSome = true ↔ entry.1.id ∈ streams.map (·.1.id) := by
      simp [find?_enrollAll, hempty]
    rw [List.foldl_append, List.foldl_cons, List.foldl_nil, List.map_append, List.map_cons, List.map_nil,
      eraseDups_snoc, ← ih, enroll]
    by_cases hmem : entry.1.id ∈ streams.map (·.1.id)
    · rw [if_pos (hthere.mpr hmem), if_pos hmem]
    · rw [if_neg (hthere.not.mpr hmem), if_neg hmem, List.map_append]
      rfl

/-- The streams that are read on their own: those given, without repetition. -/
theorem ids_make (global : Option (Global × Option Value)) (streams : List (Stream × Option Value)) :
    (make global streams).streams.map (·.id) = (streams.map (·.1.id)).eraseDups := by
  rw [← ids_enrollAll global streams]
  rcases global with _ | ⟨g, initial⟩
  · rfl
  · exact congrArg _ (streams_ensureAll _ _)

end Intake.Ledger
