import Intake.Proofs.Remainder
import Intake.Proofs.Roster
/-!
# What a checkpoint says

Handing out goes from slot to slot and gathers a draft. Here it is said what comes of it in terms of the slots as
they were before: one message of the global feed if anything of it is pending, with the newest state of all that it
lists, and one message for each other stream that is pending, in the order in which the streams were given.

A global feed may list a stream twice. The second visit finds a slot that has been swapped, so it tells the state
again and counts no records again (`Slot.newest_swap`). `draft_members` says what has been gathered after the visits to
the members, `messages_alones` which messages the visits to the other streams make. The main statement is
`checkpoint_tells_pending`.
-/

namespace Intake

namespace Slot

/-- After a swap the newest state is the current one. -/
theorem current_swap (s : Slot) : s.swap.1.current = s.newest := by
  cases hp : s.pending <;> simp [swap, newest, hp]

/-- A slot that has just been swapped has the same state to tell, and no records. -/
theorem newest_swap (s : Slot) : s.swap.1.newest = s.newest := by
  rw [newest, pending_swap, if_neg Bool.false_ne_true, current_swap]

/-- After a swap no records are pending. -/
theorem unreported_swap (s : Slot) : s.swap.1.unreported = 0 := by
  rw [unreported, pending_swap, if_neg Bool.false_ne_true]

/-- A second swap changes nothing. -/
theorem swap_swap (s : Slot) : s.swap.1.swap.1 = s.swap.1 := by
  rw [swap_of_not_pending (pending_swap s)]

end Slot

namespace Ledger

/-! ### What is pending -/

/-- Whether there is a slot, and something is pending in it. -/
def isPending (l : Ledger) (key : SlotKey) : Bool := (l.slots.find? key).any (·.pending)

/-- The newest state in a slot, if there is one. -/
def newestAt (l : Ledger) (key : SlotKey) : Option Value := (l.slots.find? key).bind (·.newest)

/-- The records that are pending in a slot; without a slot there are none. -/
def unreportedAt (l : Ledger) (key : SlotKey) : Nat := (l.slots.find? key).elim 0 (·.unreported)

/-- The number of records that are pending in the slots of a global feed. A stream that is listed twice has one
slot. -/
def unreportedIn (l : Ledger) (ids : List StreamId) : Nat :=
  l.unreportedAt .shared + (ids.eraseDups.map fun id => l.unreportedAt (.stream id)).sum

/-- The message of a global feed, if anything of it is pending. -/
def globalMessage? (l : Ledger) (g : Global) : Option StateMessage :=
  if l.isPending .shared || g.ids.any (l.isPending <| .stream ·) then
    some (.global (.ofOption (l.newestAt .shared))
      (g.ids.map fun id => (id, .ofOption (l.newestAt (.stream id))))
      (min (2 ^ 64 - 1) (l.unreportedIn g.ids)))
  else none

/-- The message of a stream. -/
def streamMessage (l : Ledger) (id : StreamId) : StateMessage :=
  .stream id (.ofOption (l.newestAt (.stream id))) (l.unreportedAt (.stream id))

/-! ### Visits -/

/-- Makes some visits, one after the other, with nothing in between. -/
def visits (l : Ledger) (d : Draft) (vs : List Visit) : Ledger × Draft :=
  vs.foldl (fun p v => p.1.attend p.2 v) (l, d)

section
variable {l : Ledger} {d : Draft} {key : SlotKey}

/-- Visits can be made in two parts. -/
theorem visits_append (l : Ledger) (d : Draft) (vs later : List Visit) :
    l.visits d (vs ++ later) = (l.visits d vs).1.visits (l.visits d vs).2 later :=
  List.foldl_append

/-- The last visit is made after the others. -/
theorem visits_snoc (l : Ledger) (d : Draft) (vs : List Visit) (v : Visit) :
    l.visits d (vs ++ [v]) = (l.visits d vs).1.attend (l.visits d vs).2 v :=
  visits_append l d vs [v]

/-- After some visits a slot is swapped if it was visited, once or more. -/
theorem find?_visits (l : Ledger) (d : Draft) (vs : List Visit) (key : SlotKey) :
    (l.visits d vs).1.slots.find? key =
      if some key ∈ vs.map Visit.key? then (l.slots.find? key).map (·.swap.1) else l.slots.find? key := by
  induction vs using List.reverseRecOn with
  | nil => rfl
  | append_singleton vs v ih =>
    rw [visits_snoc, attend_fst, find?_visit, ih]
    by_cases hv : v.key? = some key
    · by_cases hvs : some key ∈ vs.map Visit.key?
      · rcases l.slots.find? key with _ | slot
        · simp [hv, hvs]
        · simp [hv, hvs, Slot.swap_swap]
      · simp [hv, hvs]
    · have hne : some key ≠ v.key? := Ne.symm hv
      simp [hv, hne]

/-- What has been gathered from the slots of a global feed. -/
def gathered (l : Ledger) (ids : List StreamId) : Draft where
  swapped := l.isPending .shared || ids.any (l.isPending <| .stream ·)
  shared := l.newestAt .shared
  states := ids.map fun id => (id, .ofOption (l.newestAt (.stream id)))
  records := min (2 ^ 64 - 1) (l.unreportedIn ids)

/-- The counts of all slots keep to the limit. -/
def Capped (l : Ledger) : Prop := ∀ key slot, l.slots.find? key = some slot → slot.records ≤ recordLimit

/-- What is pending in a slot keeps to the limit. -/
theorem unreportedAt_le (hcap : l.Capped) (key : SlotKey) : l.unreportedAt key ≤ recordLimit := by
  unfold unreportedAt
  rcases hs : l.slots.find? key with _ | slot
  · exact Nat.zero_le _
  · simp only [Option.elim_some, Slot.unreported]
    split
    · exact hcap key slot hs
    · exact Nat.zero_le _

/-- Records are counted in 64 bits. -/
theorem limit_eq : recordLimit = 2 ^ 64 - 1 := rfl

/-- A stream that is listed again adds no records. -/
theorem unreportedIn_snoc (l : Ledger) (ids : List StreamId) (id : StreamId) :
    l.unreportedIn (ids ++ [id]) = l.unreportedIn ids + if id ∈ ids then 0 else l.unreportedAt (.stream id) := by
  rw [unreportedIn, eraseDups_snoc]
  split
  · rfl
  · rw [List.map_append, List.sum_append, ← Nat.add_assoc]
    rfl

/-- The visits to the shared slot and to the members gather what was in their slots before. -/
theorem draft_members (hcap : l.Capped) (hshared : (l.slots.find? .shared).isSome = true) (ids : List StreamId)
    (hids : ∀ id ∈ ids, (l.slots.find? (.stream id)).isSome = true) :
    (l.visits {} (.shared :: ids.map .member)).2 = l.gathered ids := by
  induction ids using List.reverseRecOn with
  | nil =>
    obtain ⟨slot, hslot⟩ := Option.isSome_iff_exists.mp hshared
    have hle := unreportedAt_le hcap .shared
    have hvisit : (l.visits {} [.shared]).2 = Draft.take {} slot .shared :=
      attend_of_some (v := .shared) rfl hslot {}
    rw [limit_eq] at hle
    simp only [List.map_nil, hvisit, Draft.take, Draft.addShared, gathered, isPending, newestAt, unreportedIn, hslot]
    simp [unreportedAt, hslot] at hle ⊢
    omega
  | append_singleton ids id ih =>
    obtain ⟨slot, hslot⟩ := Option.isSome_iff_exists.mp (hids id (by simp))
    have hbefore := ih fun other hother => hids other (List.mem_append_left _ hother)
    have hkeys : some (SlotKey.stream id) ∈ (Visit.shared :: ids.map .member).map Visit.key? ↔ id ∈ ids := by
      simp [Visit.key?]
    have hfind := find?_visits l {} (.shared :: ids.map .member) (.stream id)
    rw [List.map_append, ← List.cons_append]
    show (l.visits {} (.shared :: ids.map .member ++ [.member id])).2 = _
    rw [visits_snoc]
    by_cases hmem : id ∈ ids
    · -- the slot has been swapped by an earlier visit, which has told what was pending
      rw [if_pos (hkeys.mpr hmem), hslot] at hfind
      have hany : (ids ++ [id]).any (l.isPending <| .stream ·) = ids.any (l.isPending <| .stream ·) := by
        rw [Bool.eq_iff_iff, List.any_eq_true, List.any_eq_true]
        simpa using fun hp => ⟨id, hmem, hp⟩
      rw [attend_of_some (v := .member id) rfl hfind, hbefore]
      simp only [Draft.take, Slot.pending_swap, Slot.newest_swap, Slot.unreported_swap, Draft.addMember, gathered,
        hany, Bool.or_false, List.map_append, List.map_cons, List.map_nil, newestAt, hslot, Option.bind_some,
        unreportedIn_snoc, if_pos hmem, Nat.add_zero, addRecords]
      simp [limit_eq]
    · rw [if_neg (hkeys.not.mpr hmem), hslot] at hfind
      rw [attend_of_some (v := .member id) rfl hfind, hbefore]
      simp only [Draft.take, Draft.addMember, gathered, List.any_append, List.any_cons, List.any_nil, Bool.or_false,
        List.map_append, List.map_cons, List.map_nil, newestAt, isPending, hslot, Option.bind_some, Option.any_some,
        unreportedIn_snoc, if_neg hmem, addRecords, unreportedAt, Option.elim_some, Bool.or_assoc]
      simp only [Draft.mk.injEq, limit_eq, true_and, and_true]
      omega

/-- The message of the global feed is made of what has been gathered. -/
theorem wrap_gathered (l : Ledger) (g : Global) :
    (l.gathered g.ids).wrap = { messages := (l.globalMessage? g).toList } := by
  by_cases hany : (l.isPending .shared || g.ids.any (l.isPending <| .stream ·)) = true
  · have hswapped : (l.gathered g.ids).swapped = true := hany
    rw [Draft.wrap, if_pos hswapped, globalMessage?, if_pos hany]
    rfl
  · have hswapped : ¬ (l.gathered g.ids).swapped = true := hany
    rw [Draft.wrap, if_neg hswapped, globalMessage?, if_neg hany]
    rfl

/-- The visits to streams of their own make a message for each one that is pending. -/
theorem messages_alones {l₁ : Ledger} {ids : List StreamId} (hnodup : ids.Nodup)
    (hsame : ∀ id ∈ ids, l₁.slots.find? (.stream id) = l.slots.find? (.stream id)) (d : Draft) :
    (l₁.visits d (ids.map .alone)).2.messages =
      d.messages ++ (ids.filter (l.isPending <| .stream ·)).map l.streamMessage := by
  induction ids generalizing l₁ d with
  | nil => exact (List.append_nil _).symm
  | cons id rest ih =>
    obtain ⟨hnew, hrest⟩ := List.nodup_cons.mp hnodup
    have hlater : ∀ other ∈ rest,
        (l₁.attend d (.alone id)).1.slots.find? (.stream other) = l.slots.find? (.stream other) := by
      intro other hother
      have hne : ¬ Visit.key? (.alone id) = some (.stream other) := by
        rintro heq
        cases heq
        exact hnew hother
      rw [attend_fst, find?_visit, if_neg hne]
      exact hsame other (List.mem_cons_of_mem _ hother)
    show ((l₁.attend d (.alone id)).1.visits (l₁.attend d (.alone id)).2 (rest.map .alone)).2.messages = _
    rw [ih hrest hlater, List.filter_cons]
    have hfirst := hsame id List.mem_cons_self
    rcases hs : l.slots.find? (.stream id) with _ | slot
    · rw [hs] at hfirst
      rw [attend_of_none (v := .alone id) rfl hfirst]
      simp [isPending, hs]
    · rw [hs] at hfirst
      rw [attend_of_some (v := .alone id) rfl hfirst]
      rcases hp : slot.pending with _ | _
      · simp [isPending, hs, hp, Draft.take]
      · simp [isPending, hs, hp, Draft.take, Draft.addAlone, streamMessage, newestAt, unreportedAt]

/-- Handing out is to make all visits of the plan, from an empty draft. -/
theorem checkpoint_eq (l : Ledger) : l.checkpoint = ((l.visits {} l.plan).1, (l.visits {} l.plan).2.messages) := rfl

/-- Handing out swaps every slot. -/
theorem find?_checkpoint (hc : l.Covered) (key : SlotKey) :
    l.checkpoint.1.slots.find? key = (l.slots.find? key).map (·.swap.1) := by
  rw [checkpoint_eq, find?_visits]
  split
  · rfl
  · rename_i hvisits
    rcases hs : l.slots.find? key with _ | slot
    · rfl
    · obtain ⟨v, hv, hkey⟩ := hc key (by rw [hs]; rfl)
      exact absurd (List.mem_map.mpr ⟨v, hv, hkey⟩) hvisits

/-- After handing out the current state of every slot is the newest one of before. -/
theorem currentAt_checkpoint (hc : l.Covered) (key : SlotKey) : l.checkpoint.1.currentAt key = l.newestAt key := by
  rw [currentAt, find?_checkpoint hc, newestAt]
  rcases l.slots.find? key with _ | slot
  · rfl
  · exact slot.current_swap

/-- What handing out says, of a ledger in good order. -/
theorem messages_checkpoint (hcap : l.Capped) (hnodup : (l.streams.map (·.id)).Nodup)
    (hslots : ∀ g ∈ l.global, (l.slots.find? .shared).isSome = true ∧
      ∀ id ∈ g.ids, (l.slots.find? (.stream id)).isSome = true) :
    l.checkpoint.2 = (l.global.bind l.globalMessage?).toList ++
      (l.standalone.filter (l.isPending <| .stream ·)).map l.streamMessage := by
  have halone : l.standalone.Nodup := hnodup.filter _
  rw [checkpoint_eq, plan]
  rcases hg : l.global with _ | g
  · exact messages_alones halone (fun _ _ => rfl) {}
  · obtain ⟨hshared, hids⟩ := hslots g (by simp [hg])
    show (l.visits {} (Visit.shared :: g.ids.map Visit.member ++ [Visit.wrap] ++
      l.standalone.map Visit.alone)).2.messages = _
    have hsame : ∀ id ∈ l.standalone,
        (l.visits {} (Visit.shared :: g.ids.map Visit.member ++ [Visit.wrap])).1.slots.find? (.stream id) =
          l.slots.find? (.stream id) := by
      intro id hid
      have hother : id ∉ g.ids := by
        intro hmem
        have hapart := (List.mem_filter.mp hid).2
        simp [isMember, hg, Global.contains] at hapart
        exact hapart id hmem rfl
      rw [find?_visits, if_neg]
      simpa [Visit.key?] using hother
    have hdraft : (l.visits {} (Visit.shared :: g.ids.map Visit.member ++ [Visit.wrap])).2 =
        { messages := (l.globalMessage? g).toList } := by
      rw [visits_snoc, ← wrap_gathered, ← draft_members hcap hshared g.ids hids]
      rfl
    rw [visits_append, messages_alones halone hsame, hdraft]
    rfl

end

/-! ### The statement -/

section
variable (global : Option (Global × Option Value)) (streams : List (Stream × Option Value)) (ops : List Op)

/-- Whatever is done to a ledger, its counts keep to the limit. -/
theorem capped_used : (used global streams ops).Capped := by
  refine List.foldlRecOn (motive := Capped) ops apply ?_ ?_
  · intro key slot hslot
    obtain ⟨initial, rfl⟩ := fresh_make global streams key slot hslot
    exact Nat.zero_le _
  · intro l hl op _ key slot hslot
    rw [find?_apply] at hslot
    split at hslot
    · obtain ⟨before, hbefore, rfl⟩ := Option.map_eq_some_iff.mp hslot
      cases op with
      | set _ state records => exact Nat.min_le_right _ _
      | reset => exact Nat.zero_le _
      | swap =>
        show before.swap.1.records ≤ _
        unfold Slot.swap
        split
        · exact Nat.zero_le _
        · exact hl key before hbefore
    · exact hl key slot hslot

/-- Whatever is done to a ledger, its global feed is the one that was given. -/
theorem global_used : (used global streams ops).global = global.map Prod.fst := by
  rw [← global_make global streams]
  exact List.foldlRecOn (motive := fun l => l.global = (make global streams).global) ops apply rfl
    fun l hl op _ => (global_apply l op).trans hl

/-- Whatever is done to a ledger, its streams are those it was made with. -/
theorem streams_used : (used global streams ops).streams = (make global streams).streams :=
  List.foldlRecOn (motive := fun l => l.streams = (make global streams).streams) ops apply rfl
    fun l hl op _ => (streams_apply l op).trans hl

/-- The slots of a ledger in use are those it was made with. -/
theorem isSome_find?_used (key : SlotKey) :
    ((used global streams ops).slots.find? key).isSome = tracks global streams key := by
  rw [used, isSome_find?_foldl, find?_make]
  split
  · rename_i htracks
    exact htracks.symm
  · rename_i hnone
    exact (Bool.eq_false_iff.mpr hnone).symm

/-- Whatever is done to a ledger, what there is to visit stays. -/
theorem plan_used : (used global streams ops).plan = (make global streams).plan :=
  List.foldlRecOn (motive := fun l => l.plan = (make global streams).plan) ops apply rfl
    fun l hl op _ => (plan_apply l op).trans hl

/-- Whatever is done to a ledger, handing out visits every slot. -/
theorem covered_used : (used global streams ops).Covered := by
  intro key hkey
  rw [plan_used]
  apply covered_make global streams key
  rwa [used, isSome_find?_foldl] at hkey

end

/-- Handing out, whatever was done to the slots before, says just this: first the message of the global feed, if there
is one and anything of it is pending; then, in the order in which they were given, a message for each stream that the
global feed does not list and that is pending. After that the newest state of every slot is its current one, and a
slot in which nothing was pending is as before. -/
theorem checkpoint_tells_pending (global : Option (Global × Option Value)) (streams : List (Stream × Option Value))
    (ops : List Op) :
    let l := used global streams ops
    let isMember (id : StreamId) : Bool := global.any (·.1.contains id)
    l.checkpoint.2 = ((global.map Prod.fst).bind l.globalMessage?).toList ++
      ((streams.map (·.1.id)).eraseDups.filter fun id => !isMember id && l.isPending (.stream id)).map
        l.streamMessage ∧
    (∀ id state records, .stream id state records ∈ l.checkpoint.2 → isMember id = false) ∧
    ∀ key, l.checkpoint.1.currentAt key = l.newestAt key ∧
      (l.isPending key = false → l.checkpoint.1.slots.find? key = l.slots.find? key) := by
  intro l isMember
  have hglobal := global_used global streams ops
  have hmember : ∀ id, (used global streams ops).isMember id = isMember id := by
    intro id
    rw [Ledger.isMember, hglobal, Option.any_map]
  have hnodup : (l.streams.map (·.id)).Nodup := by
    rw [streams_used]
    exact (enrolled_make global streams).nodup
  have hslots : ∀ g ∈ l.global, (l.slots.find? .shared).isSome = true ∧
      ∀ id ∈ g.ids, (l.slots.find? (.stream id)).isSome = true := by
    intro g hg
    rw [hglobal] at hg
    obtain ⟨⟨g, initial⟩, rfl, rfl⟩ := Option.map_eq_some_iff.mp hg
    refine ⟨isSome_find?_used _ _ _ _, fun id hid => ?_⟩
    rw [isSome_find?_used]
    simp [tracks, Global.contains, hid]
  have hmessages : l.checkpoint.2 = ((global.map Prod.fst).bind l.globalMessage?).toList ++
      ((streams.map (·.1.id)).eraseDups.filter fun id => !isMember id && l.isPending (.stream id)).map
        l.streamMessage := by
    rw [messages_checkpoint (capped_used global streams ops) hnodup hslots, hglobal, standalone, streams_used,
      ids_make, List.filter_filter]
    simp only [hmember, Bool.and_comm]
    rfl
  refine ⟨hmessages, ?_, ?_⟩
  · intro id state records hmem
    rw [hmessages] at hmem
    rcases List.mem_append.mp hmem with hwhole | halone
    · obtain ⟨g, -, hg⟩ := Option.bind_eq_some_iff.mp (Option.mem_toList.mp hwhole)
      unfold globalMessage? at hg
      split at hg <;> cases hg
    · obtain ⟨other, hother, heq⟩ := List.mem_map.mp halone
      cases heq
      have hapart := (List.mem_filter.mp hother).2
      simp at hapart
      exact hapart.1
  · intro key
    have hcovered := covered_used global streams ops
    refine ⟨currentAt_checkpoint hcovered key, fun hidle => ?_⟩
    rw [find?_checkpoint hcovered]
    rcases hs : (used global streams ops).slots.find? key with _ | slot
    · rfl
    · simp only [l, isPending, hs, Option.any_some] at hidle
      rw [Option.map_some, Slot.swap_of_not_pending hidle]

/-- A global feed lists one stream twice and one that has no state, and a stream of its own has been reset. A second
one of its name does not count. -/
theorem checkpoint_tells_pending_listed_twice :
    let a : Stream := { id := { name := "a" } }
    let b : Stream := { id := { name := "b" } }
    let c : Stream := { id := { name := "c" } }
    let l := used (some (⟨[a, b, a]⟩, none)) [(c, some (.text "c0")), (a, some (.text "a0")), (c, none)]
      [.set (.stream a.id) (.text "a1") 2, .set .shared (.text "s1") 5, .reset (.stream c.id)]
    l.checkpoint.2 = [.global (.text "s1") [(a.id, .text "a1"), (b.id, .null), (a.id, .text "a1")] 7,
      .stream c.id .null 0] ∧
    l.isPending (.stream b.id) = false ∧
    l.checkpoint.1.slots.find? (.stream b.id) = l.slots.find? (.stream b.id) :=
  ⟨(checkpoint_tells_pending _ _ _).1, rfl, ((checkpoint_tells_pending _ _ _).2.2 _).2 rfl⟩

end Ledger

end Intake
