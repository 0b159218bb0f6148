import Intake.Proofs.Bookkeeping
import Intake.Proofs.Reporting
/-!
# What a read leaves pending

A read hands out what is pending at the end of every round. A checkpoint is applied in the middle of a round,
so the feed that applied it is still to visit every slot (`Phase.WillVisit`), and what it has put into its
slot is handed out before the read is over, by itself or by another feed. A reset can be made at any time. If
no feed is still to visit the slot then, nor comes to hand out later, the reset stays behind: a factory resets
a stream and the creator fails, say.

`Expects.step` says that a slot somebody is still to visit is swapped or still to be visited after every step,
and `Expects.run` what this comes to in a run. `pending_foldl_iff` reads off the operations of a run what is
pending after it, and `checkpoint_eq_nil_iff` says that handing out is silent just when nothing is pending. The
main statement is `pending_after_read_iff`.
-/

namespace Intake

namespace Ledger

/-! ### What operations leave pending -/

/-- Something is done to a slot, and the slot is not swapped then or later. -/
def Unswapped (key : SlotKey) (ops : List Op) : Prop :=
  ∃ earlier op later, ops = earlier ++ op :: later ∧ op.key = key ∧ Op.swap key ∉ op :: later

section
variable {l : Ledger} {key : SlotKey} {op : Op} {ops : List Op}

/-- After an operation a slot is pending if it was set or reset, or if it was pending before and was left
alone. -/
theorem pending_apply_iff (hthere : (l.slots.find? key).isSome = true) :
    (l.apply op).Pending key ↔ op ≠ .swap key ∧ (op.key = key ∨ l.Pending key) := by
  obtain ⟨slot, hslot⟩ := Option.isSome_iff_exists.mp hthere
  simp only [Pending, find?_apply, hslot]
  by_cases hkey : op.key = key
  · cases op with
    | set k state records =>
      simp [hkey, Op.onSlot, Slot.set]
    | reset k =>
      simp [hkey, Op.onSlot, Slot.reset]
    | swap k =>
      have hsame : k = key := hkey
      simp [hsame, Op.onSlot, Op.key, Slot.pending_swap]
  · have hne : op ≠ .swap key := fun he => hkey (by rw [he]; rfl)
    simp [hkey, hne]

/-- Something was done to a slot since its last swap if the last operation does so, or an earlier one did and the
last one does not swap it. -/
theorem unswapped_snoc_iff :
    Unswapped key (ops ++ [op]) ↔ op ≠ .swap key ∧ (op.key = key ∨ Unswapped key ops) := by
  constructor
  · rintro ⟨earlier, x, later, hsplit, hkey, hnot⟩
    rcases List.eq_nil_or_concat later with rfl | ⟨init, last, rfl⟩
    · obtain ⟨rfl, hx⟩ := List.append_inj' hsplit rfl
      obtain rfl : op = x := by simpa using hx
      exact ⟨fun he => hnot (he ▸ List.mem_cons_self), Or.inl hkey⟩
    · rw [List.concat_eq_append, ← List.cons_append, ← List.append_assoc] at hsplit
      obtain ⟨rfl, hlast⟩ := List.append_inj' hsplit rfl
      obtain rfl : op = last := by simpa using hlast
      refine ⟨fun he => hnot (by simp [he]), Or.inr ⟨earlier, x, init, rfl, hkey, fun hmem => hnot ?_⟩⟩
      rw [List.concat_eq_append, ← List.cons_append]
      exact List.mem_append_left _ hmem
  · rintro ⟨hne, hkey | ⟨earlier, x, later, rfl, hkey, hnot⟩⟩
    · exact ⟨ops, op, [], rfl, hkey, by simpa using Ne.symm hne⟩
    · refine ⟨earlier, x, later ++ [op], by simp, hkey, fun hmem => ?_⟩
      rw [← List.cons_append] at hmem
      rcases List.mem_append.mp hmem with hold | hnew
      · exact hnot hold
      · exact hne (List.mem_singleton.mp hnew).symm

theorem isSome_find?_foldl (l : Ledger) (ops : List Op) (key : SlotKey) :
    ((ops.foldl apply l).slots.find? key).isSome = (l.slots.find? key).isSome :=
  List.foldlRecOn (motive := fun l' => (l'.slots.find? key).isSome = (l.slots.find? key).isSome) ops apply
    rfl fun l' hl' op _ => (isSome_find?_apply l' op key).trans hl'

/-- After some operations a slot is pending if it was set or reset and not swapped since, or if it was pending
before and was never swapped. -/
theorem pending_foldl_iff (hthere : (l.slots.find? key).isSome = true) (ops : List Op) :
    (ops.foldl apply l).Pending key ↔ Unswapped key ops ∨ l.Pending key ∧ Op.swap key ∉ ops := by
  induction ops using List.reverseRecOn with
  | nil =>
    have hnone : ¬ Unswapped key [] := by
      rintro ⟨earlier, op, later, hsplit, -⟩
      simp at hsplit
    simp [hnone]
  | append_singleton ops op ih =>
    rw [List.foldl_append, List.foldl_cons, List.foldl_nil,
      pending_apply_iff ((isSome_find?_foldl l ops key).trans hthere), unswapped_snoc_iff, ih]
    by_cases hswap : op = .swap key
    · simp [hswap]
    · have hmem : Op.swap key ∈ ops ++ [op] ↔ Op.swap key ∈ ops := by simp [Ne.symm hswap]
      rw [hmem]
      simp only [ne_eq, hswap, not_false_eq_true, true_and, or_assoc]

/-- An operation has an effect only on a slot that exists. -/
theorem effective?_eq_some_iff {op? : Option Op} :
    l.effective? op? = some op ↔ op? = some op ∧ (l.slots.find? op.key).isSome = true := by
  rw [effective?, Option.filter_eq_some_iff]

/-- Handing out visits the slot of every feed that has one. -/
theorem exists_visit_of_scope? (hc : l.Covered) {feed : Feed} (h : l.scope? feed = some key) :
    ∃ v ∈ l.plan, v.key? = some key := by
  cases feed with
  | global g =>
    simp only [scope?] at h
    split at h
    · rename_i hids
      cases h
      obtain ⟨own, hown, -⟩ := Option.map_eq_some_iff.mp hids
      exact ⟨.shared, by simp [plan, hown], rfl⟩
    · cases h
  | stream st =>
    simp only [scope?, streamScope?] at h
    split at h
    · rename_i hthere
      cases h
      exact hc _ hthere
    · cases h

theorem Pending.isSome (h : l.Pending key) : (l.slots.find? key).isSome = true := by
  obtain ⟨slot, hslot, -⟩ := h
  exact Option.isSome_of_eq_some hslot

end

end Ledger

/-! ### Handing out in one go -/

namespace Slot

/-- The state last set or reset, if this is pending, else the current one. -/
def newest (s : Slot) : Option Value := if s.pending then s.latest else s.current

/-- The records that are pending. -/
def unreported (s : Slot) : Nat := if s.pending then s.records else 0

end Slot

namespace Ledger

/-- Takes in all that a slot has to tell, with nothing in between: what is pending or, of a slot of the global
feed in which nothing is, its current state. -/
def Draft.take (d : Draft) (slot : Slot) : Visit → Draft
  | .shared => d.addShared slot.pending ⟨slot.newest, slot.unreported⟩
  | .member id => d.addMember id slot.pending ⟨slot.newest, slot.unreported⟩
  | .alone id => if slot.pending then d.addAlone id ⟨slot.newest, slot.unreported⟩ else d
  | _ => d

section
variable {l : Ledger} {v : Visit} {key : SlotKey} {slot : Slot}

/-- Nothing follows a visit if nothing is to be read in its slot. -/
theorem follow_eq_nil (hv : v.key? = some key) (hlook : l.lookAt key = []) : l.follow v = [] := by
  cases v with
  | shared | member _ =>
    cases hv
    exact hlook
  | wrap | alone _ | look _ => rfl

/-- Nothing comes into the draft for a slot that does not exist. -/
theorem attend_of_none (hv : v.key? = some key) (hs : l.slots.find? key = none) (d : Draft) :
    (l.attend d v).2 = d := by
  rw [attend_of_follow (follow_eq_nil hv (Desk.lookAt_of_none hs)), (Desk.visit_of_none hv hs d).1]

/-- What comes into the draft for a slot, if nobody comes between the two locks. -/
theorem attend_of_some (hv : v.key? = some key) (hs : l.slots.find? key = some slot) (d : Draft) :
    (l.attend d v).2 = d.take slot v := by
  have hvisit := (Desk.visit_of_some hv hs d).1
  rcases hp : slot.pending with _ | _
  · -- nothing is pending: the visit changes nothing, and a slot of the global feed is read
    rw [Slot.swap_of_not_pending hp, Option.elim_none] at hvisit
    have hcurrent : (l.visit d v).1.currentAt key = slot.current := by
      rw [currentAt, find?_visit, if_pos hv, hs, Option.map_some, Slot.swap_of_not_pending hp, Option.bind_some]
    have hread : l.follow v = l.lookAt key → (l.attend d v).2 = d.addCurrent slot.current key := by
      intro hfollow
      rw [Desk.lookAt_of_some hs, if_neg (Bool.eq_false_iff.mp hp)] at hfollow
      rw [attend_of_look hfollow]
      show (l.visit d v).2.addCurrent ((l.visit d v).1.currentAt key) key = _
      rw [hvisit, hcurrent]
    cases v with
    | shared | member _ =>
      cases hv
      rw [hread rfl]
      simp [Draft.addCurrent, Draft.take, Slot.newest, Slot.unreported, hp]
    | alone id =>
      rw [attend_of_follow rfl, hvisit, Draft.take, if_neg (Bool.eq_false_iff.mp hp)]
    | wrap | look _ => cases hv
  · rw [Slot.swap_of_pending hp, Option.elim_some] at hvisit
    have hlook : l.lookAt key = [] := (Desk.lookAt_of_some hs).trans (if_pos hp)
    rw [attend_of_follow (follow_eq_nil hv hlook), hvisit]
    cases v <;> simp [Draft.add, Draft.take, Slot.newest, Slot.unreported, hp]

end

/-- The visits that are left after each visit to the shared slot or to a member bring the message of the global
feed. -/
def Visit.Wrapped : List Visit → Prop
  | [] => True
  | .alone _ :: rest => Wrapped rest
  | .wrap :: rest => Wrapped rest
  | .shared :: rest => .wrap ∈ rest ∧ .shared ∉ rest ∧ Wrapped rest
  | .member _ :: rest => .wrap ∈ rest ∧ .shared ∉ rest ∧ Wrapped rest
  | .look _ :: _ => False

theorem wrapped_alones (ids : List StreamId) : Visit.Wrapped (ids.map .alone) := by
  induction ids with
  | nil => trivial
  | cons id ids ih => exact ih

theorem wrapped_members (ids : List StreamId) {rest : List Visit} (hwrap : .wrap ∈ rest)
    (hshared : .shared ∉ rest) (hrest : Visit.Wrapped rest) :
    Visit.Wrapped (ids.map .member ++ rest) := by
  induction ids with
  | nil => exact hrest
  | cons id ids ih => exact ⟨List.mem_append_right _ hwrap, by simpa using hshared, ih⟩

/-- In the plan of a ledger the message of the global feed comes after its slot and its members. -/
theorem wrapped_plan (l : Ledger) : Visit.Wrapped l.plan := by
  unfold plan
  rcases l.global with _ | g
  · exact wrapped_alones _
  · show Visit.Wrapped (Visit.shared :: g.ids.map Visit.member ++ [Visit.wrap] ++ l.standalone.map Visit.alone)
    rw [List.append_assoc]
    refine ⟨by simp, by simp, ?_⟩
    exact wrapped_members g.ids List.mem_cons_self (by simp) (wrapped_alones l.standalone)

/-- What was gathered is in a message, or will be when the message of the global feed is made. -/
def Draft.Speaks (d : Draft) (left : List Visit) : Prop :=
  d.messages ≠ [] ∨ d.swapped = true ∧ Visit.wrap ∈ left ∧ Visit.shared ∉ left

section
variable {l : Ledger} {d : Draft} {v : Visit} {left : List Visit} {key : SlotKey}

/-- A visit takes no message away. -/
theorem messages_attend_ne_nil (h : d.messages ≠ []) (hlook : ∀ key, v ≠ .look key) :
    (l.attend d v).2.messages ≠ [] := by
  rcases hv : v.key? with _ | key
  · cases v with
    | shared | member _ | alone _ => cases hv
    | look key => exact absurd rfl (hlook key)
    | wrap =>
      simp only [attend_of_follow (v := .wrap) rfl, visit, Visit.key?, Draft.wrap]
      split
      · simp
      · exact h
  · rcases hs : l.slots.find? key with _ | slot
    · rw [attend_of_none hv hs]
      exact h
    · rw [attend_of_some hv hs]
      cases v with
      | alone id =>
        simp only [Draft.take]
        split
        · simp [Draft.addAlone]
        · exact h
      | _ => exact h

/-- Until the message of the global feed is made, what was pending for it is not forgotten. -/
theorem swapped_attend (h : d.swapped = true) (hwrap : v ≠ .wrap) (hshared : v ≠ .shared)
    (hlook : ∀ key, v ≠ .look key) : (l.attend d v).2.swapped = true := by
  rcases hv : v.key? with _ | key
  · cases v with
    | wrap => exact absurd rfl hwrap
    | look key => exact absurd rfl (hlook key)
    | shared | member _ | alone _ => cases hv
  · rcases hs : l.slots.find? key with _ | slot
    · rw [attend_of_none hv hs]
      exact h
    · rw [attend_of_some hv hs]
      cases v with
      | shared => exact absurd rfl hshared
      | member id => exact Bool.or_eq_true_iff.mpr (Or.inl h)
      | wrap | look _ => exact h
      | alone id =>
        simp only [Draft.take]
        split <;> exact h

theorem Visit.Wrapped.ne_look (hw : Visit.Wrapped (v :: left)) (key : SlotKey) : v ≠ .look key := by
  rintro rfl
  exact hw

theorem Visit.Wrapped.tail (hw : Visit.Wrapped (v :: left)) : Visit.Wrapped left := by
  cases v with
  | shared | member _ => exact hw.2.2
  | wrap | alone _ => exact hw
  | look _ => exact hw.elim

/-- What was gathered is in a message, or will be, after the next visit too. -/
theorem Draft.Speaks.attend (hd : d.Speaks (v :: left)) (hw : Visit.Wrapped (v :: left)) :
    (l.attend d v).2.Speaks left := by
  rcases hd with hmessages | ⟨hswapped, hwrap, hshared⟩
  · exact Or.inl (messages_attend_ne_nil hmessages hw.ne_look)
  · by_cases hv : v = .wrap
    · left
      subst hv
      simp [attend_of_follow (v := .wrap) rfl, Ledger.visit, Visit.key?, Draft.wrap, hswapped]
    · have hne : v ≠ .shared := fun he => hshared (he ▸ List.mem_cons_self)
      refine Or.inr ⟨swapped_attend hswapped hv hne hw.ne_look, ?_, fun hmem => hshared ?_⟩
      · exact (List.mem_cons.mp hwrap).resolve_left (Ne.symm hv)
      · exact List.mem_cons_of_mem _ hmem

/-- What was gathered is in a message at the end. -/
theorem Draft.Speaks.messages_ne_nil (hd : d.Speaks left) (hw : Visit.Wrapped left) :
    (left.foldl (fun p v => p.1.attend p.2 v) (l, d)).2.messages ≠ [] := by
  induction left generalizing l d with
  | nil =>
    rcases hd with hmessages | ⟨-, hwrap, -⟩
    · exact hmessages
    · cases hwrap
  | cons v left ih => exact ih (hd.attend hw) hw.tail

/-- What a visit finds pending is gathered. -/
theorem speaks_attend (hw : Visit.Wrapped (v :: left)) (hv : v.key? = some key) (hp : l.Pending key) :
    (l.attend d v).2.Speaks left := by
  obtain ⟨slot, hslot, hpending⟩ := hp
  rw [attend_of_some hv hslot]
  cases v with
  | shared => exact Or.inr ⟨hpending, hw.1, hw.2.1⟩
  | member id => exact Or.inr ⟨Bool.or_eq_true_iff.mpr (Or.inr hpending), hw.1, hw.2.1⟩
  | wrap | look _ => cases hv
  | alone id =>
    left
    simp [Draft.take, Draft.addAlone, hpending]

/-- Something pending that is visited comes to a message. -/
theorem messages_foldl_ne_nil (hw : Visit.Wrapped left) (hv : ∃ v ∈ left, v.key? = some key)
    (hp : l.Pending key) : (left.foldl (fun p v => p.1.attend p.2 v) (l, d)).2.messages ≠ [] := by
  induction left generalizing l d with
  | nil =>
    obtain ⟨v, hmem, -⟩ := hv
    cases hmem
  | cons v left ih =>
    by_cases hkey : v.key? = some key
    · exact (speaks_attend hw hkey hp).messages_ne_nil hw.tail
    · have hlater : ∃ v ∈ left, v.key? = some key := by
        obtain ⟨w, hmem, hfor⟩ := hv
        rcases List.mem_cons.mp hmem with rfl | hrest
        · exact absurd hfor hkey
        · exact ⟨w, hrest, hfor⟩
      have hstill : (l.attend d v).1.Pending key := by
        obtain ⟨slot, hslot, hpending⟩ := hp
        refine ⟨slot, ?_, hpending⟩
        rw [attend_fst, find?_visit, if_neg hkey]
        exact hslot
      exact ih hw.tail hlater hstill

/-- A visit gathers nothing when nothing is pending. -/
theorem messages_attend_of_not_pending (hl : ∀ key, ¬ l.Pending key)
    (hd : d.swapped = false ∧ d.messages = []) :
    (l.attend d v).2.swapped = false ∧ (l.attend d v).2.messages = [] := by
  rcases hv : v.key? with _ | key
  · cases v with
    | shared | member _ | alone _ => cases hv
    | wrap => simp [attend_of_follow (v := .wrap) rfl, visit, Visit.key?, Draft.wrap, hd.1, hd.2]
    | look key =>
      cases key with
      | shared => exact ⟨rfl, hd.2⟩
      | stream id => exact ⟨Bool.or_eq_false_iff.mpr ⟨hd.1, rfl⟩, hd.2⟩
  · rcases hs : l.slots.find? key with _ | slot
    · rw [attend_of_none hv hs]
      exact hd
    · have hidle : slot.pending = false := Bool.eq_false_iff.mpr fun hp => hl key ⟨slot, hs, hp⟩
      rw [attend_of_some hv hs]
      cases v with
      | shared => exact ⟨hidle, hd.2⟩
      | member id => exact ⟨Bool.or_eq_false_iff.mpr ⟨hd.1, hidle⟩, hd.2⟩
      | wrap | look _ => exact hd
      | alone id =>
        rw [Draft.take, if_neg (Bool.eq_false_iff.mp hidle)]
        exact hd

/-- Nothing is said if no slot is pending. -/
theorem messages_foldl_of_not_pending (left : List Visit) (hl : ∀ key, ¬ l.Pending key)
    (hd : d.swapped = false ∧ d.messages = []) :
    (left.foldl (fun p v => p.1.attend p.2 v) (l, d)).2.messages = [] := by
  induction left generalizing l d with
  | nil => exact hd.2
  | cons v left ih =>
    have hmid : ∀ key, ¬ (l.attend d v).1.Pending key := by
      intro key hp
      rw [attend_fst] at hp
      exact hl key hp.of_visit.2
    exact ih hmid (messages_attend_of_not_pending hl hd)

/-- Handing out is silent just when nothing is pending. -/
theorem checkpoint_eq_nil_iff (hl : l.Covered) : l.checkpoint.2 = [] ↔ ∀ key, ¬ l.Pending key := by
  constructor
  · intro hnil key hp
    exact messages_foldl_ne_nil (wrapped_plan l) (hl key hp.isSome) hp hnil
  · intro hnone
    exact messages_foldl_of_not_pending l.plan hnone ⟨rfl, rfl⟩

end

end Ledger

open Ledger (ops)

/-! ### Ledgers at a desk -/

namespace Desk

/-- The ledger of a desk changes by what the entries say and in no other way. -/
theorem ledger_step {d d' : Desk} {a : Act} {entries : List Ledger.Entry}
    (h : d.step a = some (d', entries)) : d'.ledger = (ops entries).foldl Ledger.apply d.ledger := by
  cases a with
  | set key state records =>
    rw [Desk.step] at h
    split at h
    · cases h
      rfl
    · cases h
  | reset key =>
    rw [Desk.step] at h
    split at h
    · cases h
      rfl
    · cases h
  | hand =>
    have hhand : d.hand = (d', entries) := Option.some.inj h
    unfold hand at hhand
    split at hhand
    · cases hhand
      rfl
    · rename_i v rest draft _
      cases hhand
      rcases notes_cases d.ledger v draft with ⟨hledger, hnotes⟩ | ⟨key, slot, hs, hledger, hnotes⟩ |
        ⟨key, hledger, hnotes⟩
      all_goals
        rw [hnotes]
        exact hledger
    all_goals
      cases hhand
      rfl

/-- The ledger of a desk is what the operations in its history make of it. -/
theorem ledger_run {d d' : Desk} {acts : List Act} {h : List Ledger.Entry}
    (hrun : d.run acts = some (d', h)) : d'.ledger = (ops h).foldl Ledger.apply d.ledger := by
  induction acts generalizing d h with
  | nil =>
    cases hrun
    rfl
  | cons a rest ih =>
    obtain ⟨next, first, more, hstep, hmore, rfl⟩ := run_cons.mp hrun
    rw [ih hmore, ledger_step hstep, ops, ops, ops, List.filterMap_append, List.foldl_append]

end Desk

namespace Read

/-! ### Who is still to visit a slot -/

/-- Whether there was nothing to read in a round. -/
def RoundEnd.isLast : RoundEnd → Bool
  | .last => true
  | _ => false

namespace FeedTask

/-- The feed is still to visit a slot before its round is over. -/
def Phase.WillVisit (key : SlotKey) : Phase → Prop
  | .reading _ => True
  | .locking _ => True
  | .visiting left _ _ => ∃ v ∈ left, v.key? = some key
  | _ => False

/-- The feed has begun to hand out after the last of its rounds, or has come to its end after that. -/
def Phase.closesWell : Phase → Bool
  | .visiting _ _ e => e.isLast
  | .writing _ _ e => e.isLast
  | .completing _ => true
  | .completed => true
  | .done (.ok _) => true
  | _ => false

section
variable {v : View} {t : FeedTask} {s : Shared} {a : Act} {next : Next} {key : SlotKey}

/-- A slot that a feed is still to visit is visited with a step of the feed, or still to be visited after
it. -/
theorem Rule.willVisit (h : Rule v t s a next)
    (hplan : ∃ visit ∈ s.ledger.plan, visit.key? = some key) (hw : t.phase.WillVisit key) :
    next.task.phase.WillVisit key ∨ t.op? s.ledger a = some (.swap key) := by
  cases h with
  | applies | closes | joins => exact Or.inl trivial
  | locks => exact Or.inl hplan
  | visits hp =>
    rw [hp] at hw
    obtain ⟨visit, hmem, hkey⟩ := hw
    rcases List.mem_cons.mp hmem with rfl | hrest
    · right
      simp only [op?, hp, hkey, Option.map_some]
    · exact Or.inl ⟨visit, List.mem_append_right _ hrest, hkey⟩
  | hasVisited hp =>
    rw [hp] at hw
    obtain ⟨visit, hmem, -⟩ := hw
    cases hmem
  | _ hp =>
    rw [hp] at hw
    cases hw

/-- A feed that swaps a slot was still to visit it. -/
theorem willVisit_of_swap {l : Ledger} (hop : t.op? l a = some (.swap key)) :
    t.phase.WillVisit key := by
  unfold op? at hop
  split at hop
  · split at hop
    · obtain ⟨c, -, hop⟩ := Option.bind_eq_some_iff.mp hop
      obtain ⟨k, -, hop⟩ := Option.bind_eq_some_iff.mp hop
      cases hop
    · rename_i visit rest draft next hp
      obtain ⟨k, hk, hop⟩ := Option.map_eq_some_iff.mp hop
      cases hop
      rw [hp]
      exact ⟨visit, List.mem_cons_self, hk⟩
    · cases hop
  · cases hop

/-- A feed that has applied a checkpoint is still to visit every slot. -/
theorem Rule.willVisit_of_set (h : Rule v t s a next) {state : Value} {records : Nat}
    (hop : t.op? s.ledger a = some (.set key state records)) : next.task.phase.WillVisit key := by
  cases h with
  | applies | closes | joins => trivial
  | visits hp =>
    simp only [op?, hp] at hop
    obtain ⟨k, -, hop⟩ := Option.map_eq_some_iff.mp hop
    cases hop
  | acquireMoves hp | acquireRetries hp | acquires hp | acquireFails hp | acquireCrashes hp =>
    rw [op?_of_acquiring hp] at hop
    cases hop
  | isDeclined | makes | makeCrashes | creates | createFails | createCrashes | quits => cases hop
  | _ hp =>
    simp only [op?, hp] at hop
    cases hop

/-- The slot that a checkpoint is applied to is that of the feed. -/
theorem scope?_of_set {l : Ledger} {state : Value} {records : Nat}
    (hop : t.op? l a = some (.set key state records)) : l.scope? t.feed = some key := by
  unfold op? at hop
  split at hop
  · split at hop
    · obtain ⟨c, -, hop⟩ := Option.bind_eq_some_iff.mp hop
      obtain ⟨k, hk, hop⟩ := Option.bind_eq_some_iff.mp hop
      cases hop
      exact hk
    · obtain ⟨k, -, hop⟩ := Option.map_eq_some_iff.mp hop
      cases hop
    · cases hop
  · cases hop

/-- A feed that comes to its end well hands out after its last round. -/
theorem Rule.closesWell (h : Rule v t s a next) (hclose : next.task.phase.closesWell = true) :
    t.phase.closesWell = true ∨ ∃ e, t.phase = .locking e := by
  cases h with
  | locks hp => exact Or.inr ⟨_, hp⟩
  | visits hp | hasVisited hp | writes hp | saysComplete hp | hasCompleted hp | finishes hp =>
    rw [hp]
    exact Or.inl hclose
  | @unlocks count next hp =>
    rw [hp]
    cases next with
    | last => exact Or.inl rfl
    | more | failed => cases hclose
  | _ => cases hclose

end

end FeedTask

namespace System

/-- Some feed is still to visit a slot. -/
def Expects (s : System) (key : SlotKey) : Prop :=
  ∃ (i : Nat) (t : FeedTask), s.feeds[i]? = some t ∧ t.phase.WillVisit key

/-- A slot is handed out in some steps. -/
def HandedOut (key : SlotKey) (steps : List Step) : Prop := ∃ st ∈ steps, st.op? = some (.swap key)

section
variable {s s' : System} {move : Move} {effects : List Effect} {key : SlotKey} {moves : List Move}

/-- A slot that somebody is still to visit is swapped with a step, or somebody is still to visit it after the
step. -/
theorem Expects.step (hs : s.Expects key)
    (hplan : ∃ visit ∈ s.shared.ledger.plan, visit.key? = some key)
    (h : s.step move = some (s', effects)) : s'.Expects key ∨ s.op? move = some (.swap key) := by
  obtain ⟨i, t, ht, hw⟩ := hs
  obtain ⟨t', ht', -⟩ := exists_after h ht
  rcases own_or_other h ht ht' with ⟨a, next, rfl, hr, rfl, -⟩ | ⟨-, hphase, -⟩
  · rcases hr.willVisit hplan hw with hstill | hswap
    · exact Or.inl ⟨i, _, ht', hstill⟩
    · right
      rw [op?, ht]
      exact hswap
  · exact Or.inl ⟨i, t', ht', hphase ▸ hw⟩

/-- A slot that somebody is still to visit is handed out in a run, or somebody is still to visit it after the
run. -/
theorem Expects.run (hs : s.Expects key)
    (hplan : ∃ visit ∈ s.shared.ledger.plan, visit.key? = some key)
    (h : s.run moves = some (s', effects)) : s'.Expects key ∨ HandedOut key (s.trace moves) := by
  induction moves generalizing s effects with
  | nil =>
    cases h
    exact Or.inl hs
  | cons move rest ih =>
    obtain ⟨mid, first, later, hstep, hrest, rfl⟩ := run_cons h
    rw [trace_cons hstep]
    rcases hs.step hplan hstep with hmid | hswap
    · rw [← plan_step hstep] at hplan
      rcases ih hmid hplan hrest with hstill | ⟨st, hst, hop⟩
      · exact Or.inl hstill
      · exact Or.inr ⟨st, List.mem_cons_of_mem _ hst, hop⟩
    · exact Or.inr ⟨_, List.mem_cons_self, hswap⟩

/-- Whoever swaps a slot was still to visit it. -/
theorem expects_of_swap (hop : s.op? move = some (.swap key)) : s.Expects key := by
  cases move with
  | feed i a =>
    obtain ⟨t, ht, hop⟩ := Option.bind_eq_some_iff.mp hop
    exact ⟨i, t, ht, FeedTask.willVisit_of_swap hop⟩
  | _ => cases hop

/-- After a set some feed is still to visit the slot. -/
theorem expects_of_set (h : s.step move = some (s', effects)) {state : Value} {records : Nat}
    (hop : s.op? move = some (.set key state records)) : s'.Expects key := by
  cases move with
  | feed i a =>
    obtain ⟨t, next, ht, hr, rfl, -⟩ := step_feed h
    rw [op?, ht] at hop
    exact ⟨i, next.task, List.getElem?_set_self (List.getElem?_eq_some_iff.mp ht).1,
      hr.willVisit_of_set hop⟩
  | _ => cases hop

/-- Handing out visits the slot that a checkpoint is applied to. -/
theorem exists_visit_of_set (hc : s.shared.ledger.Covered) {state : Value} {records : Nat}
    (hop : s.op? move = some (.set key state records)) :
    ∃ visit ∈ s.shared.ledger.plan, visit.key? = some key := by
  cases move with
  | feed i a =>
    obtain ⟨t, -, hop⟩ := Option.bind_eq_some_iff.mp hop
    exact Ledger.exists_visit_of_scope? hc (FeedTask.scope?_of_set hop)
  | _ => cases hop

/-- Nobody is still to visit a slot when all feeds are over. -/
theorem not_expects (hover : ∀ (i : Nat) (t : FeedTask), s.feeds[i]? = some t → t.finished = true) :
    ¬ s.Expects key := by
  rintro ⟨i, t, ht, hw⟩
  have hfinished := hover i t ht
  revert hfinished hw
  unfold FeedTask.finished
  cases t.phase <;> nofun

/-- A run starts where its first step starts. -/
theorem before_eq_of_trace {st : Step} {later : List Step} (h : s.trace moves = st :: later) :
    st.before = s := by
  rcases moves with _ | ⟨move, rest⟩
  · cases h
  · rcases hm : s.step move with _ | ⟨mid, first⟩
    · simp [trace, hm] at h
    · rw [trace_cons hm] at h
      cases h
      rfl

theorem isSome_find?_run (h : s.run moves = some (s', effects)) (key : SlotKey) :
    (s'.shared.ledger.slots.find? key).isSome = (s.shared.ledger.slots.find? key).isSome := by
  rw [ledger_eq_trace h]
  exact Ledger.isSome_find?_foldl _ _ key

theorem plan_run (h : s.run moves = some (s', effects)) :
    s'.shared.ledger.plan = s.shared.ledger.plan := by
  rw [ledger_eq_trace h]
  exact List.foldlRecOn (motive := fun l => l.plan = s.shared.ledger.plan) _ Ledger.apply rfl
    fun l hl op _ => (Ledger.plan_apply l op).trans hl

theorem covered_run (h : s.run moves = some (s', effects)) (hc : s.shared.ledger.Covered) :
    s'.shared.ledger.Covered := by
  intro key hkey
  rw [plan_run h]
  exact hc key ((isSome_find?_run h key).symm.trans hkey)

/-- A feed that has not begun its last handing out, and has come to its end well after a run, has waited for the
lock in between. -/
theorem exists_expects_of_done (h : s.run moves = some (s', effects)) {i : Nat} {t t' : FeedTask}
    (ht : s.feeds[i]? = some t) (ht' : s'.feeds[i]? = some t') (hopen : t.phase.closesWell = false)
    (hdone : t'.phase.closesWell = true) (key : SlotKey) :
    s.Expects key ∨ ∃ st ∈ s.trace moves, st.after.Expects key := by
  induction moves generalizing s t effects with
  | nil =>
    cases h
    rw [ht] at ht'; cases ht'
    rw [hopen] at hdone
    cases hdone
  | cons move rest ih =>
    obtain ⟨mid, first, later, hstep, hrest, rfl⟩ := run_cons h
    obtain ⟨u, hu, -⟩ := exists_after hstep ht
    rw [trace_cons hstep]
    rcases hclose : u.phase.closesWell with _ | _
    · rcases ih hrest hu hclose with hmid | ⟨st, hst, hexpects⟩
      · exact Or.inr ⟨_, List.mem_cons_self, hmid⟩
      · exact Or.inr ⟨st, List.mem_cons_of_mem _ hst, hexpects⟩
    · -- the feed begins to hand out with this step, so it had waited for the lock
      rcases own_or_other hstep ht hu with ⟨a, next, -, hr, rfl, -⟩ | ⟨-, hphase, -⟩
      · rcases hr.closesWell hclose with hbefore | ⟨e, hp⟩
        · rw [hopen] at hbefore
          cases hbefore
        · refine Or.inl ⟨i, t, ht, ?_⟩
          rw [hp]
          trivial
      · rw [hphase, hopen] at hclose
        cases hclose

end

/-! ### When the read is over -/

section
variable {s s' : System} {moves : List Move} {effects : List Effect} {key : SlotKey}
  {earlier later : List Step} {st : Step}

/-- A slot that somebody is still to visit is handed out before all feeds are over. -/
theorem handedOut_of_expects (hrun : s.run moves = some (s', effects)) (hnobody : ¬ s'.Expects key)
    (hplan : ∃ visit ∈ s.shared.ledger.plan, visit.key? = some key)
    (hsplit : s.trace moves = earlier ++ st :: later) (hst : st.after.Expects key) :
    HandedOut key later := by
  obtain ⟨first, more, before, after, hfirst, hmore, rfl⟩ := run_split hrun hsplit
  have hstep : st.before.step st.move = some (st.after, st.effects) :=
    step_of_mem_trace (hsplit ▸ List.mem_append_right _ List.mem_cons_self)
  rw [← plan_run hfirst, ← plan_step hstep] at hplan
  exact (hst.run hplan hmore).resolve_left hnobody

/-- A slot is handed out after a step just if somebody is still to visit it then or later. -/
theorem handedOut_iff (hrun : s.run moves = some (s', effects)) (hnobody : ¬ s'.Expects key)
    (hplan : ∃ visit ∈ s.shared.ledger.plan, visit.key? = some key)
    (hsplit : s.trace moves = earlier ++ st :: later) :
    HandedOut key later ↔ ∃ x ∈ st :: later, x.after.Expects key := by
  constructor
  · rintro ⟨x, hx, hop⟩
    -- whoever swaps the slot was still to visit it after the step before
    obtain ⟨between, rest, rfl⟩ := List.append_of_mem hx
    rcases List.eq_nil_or_concat between with rfl | ⟨init, last, rfl⟩
    · refine ⟨st, List.mem_cons_self, ?_⟩
      obtain ⟨first, more, before, after, hfirst, hmore, htrace⟩ := run_split hrun hsplit
      rw [← before_eq_of_trace htrace]
      exact expects_of_swap hop
    · refine ⟨last, by simp, ?_⟩
      have hsplit' : s.trace moves = (earlier ++ st :: init) ++ last :: (x :: rest) := by
        rw [hsplit]
        simp
      obtain ⟨first, more, before, after, hfirst, hmore, htrace⟩ := run_split hrun hsplit'
      rw [← before_eq_of_trace htrace]
      exact expects_of_swap hop
  · rintro ⟨x, hx, hexpects⟩
    rcases List.mem_cons.mp hx with rfl | hlater
    · exact handedOut_of_expects hrun hnobody hplan hsplit hexpects
    · obtain ⟨between, rest, rfl⟩ := List.append_of_mem hlater
      have hsplit' : s.trace moves = (earlier ++ st :: between) ++ x :: rest := by
        rw [hsplit]
        simp
      obtain ⟨y, hy, hop⟩ := handedOut_of_expects hrun hnobody hplan hsplit' hexpects
      exact ⟨y, List.mem_append_right _ (List.mem_cons_of_mem _ hy), hop⟩

/-- What a run leaves without a swap was done in one of its steps. -/
theorem unswapped_iff (steps : List Step) :
    Ledger.Unswapped key (steps.filterMap Step.op?) ↔ ∃ earlier st later op,
      steps = earlier ++ st :: later ∧ st.op? = some op ∧ op.key = key ∧ op ≠ .swap key ∧
        ¬ HandedOut key later := by
  have hswaps : ∀ later : List Step, Ledger.Op.swap key ∈ later.filterMap Step.op? ↔ HandedOut key later :=
    fun later => List.mem_filterMap
  constructor
  · rintro ⟨before, op, after, hsplit, hkey, hnot⟩
    obtain ⟨earlier, rest, rfl, -, hrest⟩ := List.filterMap_eq_append_iff.mp hsplit
    obtain ⟨skipped, st, later, rfl, -, hop, rfl⟩ := List.filterMap_eq_cons_iff.mp hrest
    refine ⟨earlier ++ skipped, st, later, op, by simp, hop, hkey, ?_, fun hout => ?_⟩
    · exact fun he => hnot (he ▸ List.mem_cons_self)
    · exact hnot (List.mem_cons_of_mem _ ((hswaps later).mpr hout))
  · rintro ⟨earlier, st, later, op, rfl, hop, hkey, hne, hnot⟩
    refine ⟨earlier.filterMap Step.op?, op, later.filterMap Step.op?, ?_, hkey, fun hmem => ?_⟩
    · rw [List.filterMap_append, List.filterMap_cons_some hop]
    · rcases List.mem_cons.mp hmem with he | hafter
      · exact hne he.symm
      · exact hnot ((hswaps later).mp hafter)

/-- A checkpoint that was applied is handed out before all feeds are over. -/
theorem handedOut_of_set (hrun : s.run moves = some (s', effects)) (hc : s.shared.ledger.Covered)
    (hnobody : ¬ s'.Expects key) (hsplit : s.trace moves = earlier ++ st :: later) {state : Value}
    {records : Nat} (hop : st.op? = some (.set key state records)) : HandedOut key later := by
  have hstep : st.before.step st.move = some (st.after, st.effects) :=
    step_of_mem_trace (hsplit ▸ List.mem_append_right _ List.mem_cons_self)
  obtain ⟨first, more, before, after, hfirst, -, -⟩ := run_split hrun hsplit
  have hplan := exists_visit_of_set (covered_run hfirst hc) hop
  rw [plan_run hfirst] at hplan
  exact handedOut_of_expects hrun hnobody hplan hsplit (expects_of_set hstep hop)

/-- A slot that is there in a step of a run is there from the beginning. -/
theorem isSome_of_effective? (hrun : s.run moves = some (s', effects))
    (hsplit : s.trace moves = earlier ++ st :: later) {op : Ledger.Op}
    (heffective : st.effective? = some op) :
    (s.shared.ledger.slots.find? op.key).isSome = true := by
  obtain ⟨first, more, before, after, hfirst, -, -⟩ := run_split hrun hsplit
  rw [← isSome_find?_run hfirst]
  exact (Ledger.effective?_eq_some_iff.mp heffective).2

/-- If every checkpoint is handed out, what a run leaves pending is a reset that was not handed out, or it was
pending before. -/
theorem pending_run_iff (hrun : s.run moves = some (s', effects))
    (hsets : ∀ earlier st later, s.trace moves = earlier ++ st :: later → ∀ state records,
      st.op? = some (.set key state records) → HandedOut key later) :
    s'.shared.ledger.Pending key ↔
      (∃ earlier st later, s.trace moves = earlier ++ st :: later ∧
        st.effective? = some (.reset key) ∧ ¬ HandedOut key later) ∨
      s.shared.ledger.Pending key ∧ ¬ HandedOut key (s.trace moves) := by
  have hswaps : Ledger.Op.swap key ∉ (s.trace moves).filterMap Step.op? ↔
      ¬ HandedOut key (s.trace moves) := not_congr List.mem_filterMap
  rw [ledger_eq_trace hrun]
  by_cases hslot : (s.shared.ledger.slots.find? key).isSome = true
  case neg =>
    -- without a slot nothing can be pending, before or after
    refine iff_of_false (fun hp => hslot ?_) ?_
    · rw [← Ledger.isSome_find?_foldl]
      exact hp.isSome
    · rintro (⟨earlier, st, later, hsplit, heffective, -⟩ | ⟨hp, -⟩)
      · exact hslot (isSome_of_effective? hrun hsplit heffective)
      · exact hslot hp.isSome
  rw [Ledger.pending_foldl_iff hslot, hswaps]
  refine or_congr_left ((unswapped_iff _).trans ⟨?_, ?_⟩)
  · rintro ⟨earlier, st, later, op, hsplit, hop, rfl, hne, hnot⟩
    refine ⟨earlier, st, later, hsplit, ?_, hnot⟩
    cases op with
    | set k state records => exact absurd (hsets earlier st later hsplit state records hop) hnot
    | reset k =>
      obtain ⟨first, more, before, after, hfirst, -, -⟩ := run_split hrun hsplit
      refine Ledger.effective?_eq_some_iff.mpr ⟨hop, ?_⟩
      rw [isSome_find?_run hfirst]
      exact hslot
    | swap k => exact absurd rfl hne
  · rintro ⟨earlier, st, later, hsplit, heffective, hnot⟩
    exact ⟨earlier, st, later, _, hsplit, (Ledger.effective?_eq_some_iff.mp heffective).1, rfl, nofun, hnot⟩

end

/-- What a read that is over has handed out of what was done in its steps, and what it leaves pending. -/
structure Settles (l : Ledger) (steps : List Step) (s' : System) : Prop where
  /-- A checkpoint that was applied is handed out. -/
  sets : ∀ earlier st later, steps = earlier ++ st :: later → ∀ key state records,
    st.op? = some (.set key state records) → HandedOut key later
  /-- A reset is handed out if some feed is still to visit the slot then or later, and else it is not. -/
  resets : ∀ earlier st later, steps = earlier ++ st :: later → ∀ key,
    st.effective? = some (.reset key) →
      (HandedOut key later ↔ ∃ x ∈ st :: later, x.after.Expects key)
  /-- So it is handed out if a feed that has not begun its last handing out comes to its end well. -/
  wells : ∀ earlier st later, steps = earlier ++ st :: later → ∀ key,
    st.effective? = some (.reset key) → ∀ (i : Nat) (t t' : FeedTask), st.after.feeds[i]? = some t →
      t.phase.closesWell = false → s'.feeds[i]? = some t' → t'.phase = .done (.ok ()) →
      HandedOut key later
  /-- What is left pending is a reset that was not handed out, or was left by somebody before. -/
  pending_iff : ∀ key, s'.shared.ledger.Pending key ↔
    (∃ earlier st later, steps = earlier ++ st :: later ∧ st.effective? = some (.reset key) ∧
      ¬ HandedOut key later) ∨
    l.Pending key ∧ ¬ HandedOut key steps
  /-- Handing out once more tells whether there is any of it. -/
  silent_iff : s'.shared.ledger.checkpoint.2 = [] ↔ ∀ key, ¬ s'.shared.ledger.Pending key

/-- A read all of whose feeds have finished settles its ledger. -/
theorem settles_of_finished {s s' : System} {moves : List Move} {effects : List Effect}
    (hrun : s.run moves = some (s', effects)) (hc : s.shared.ledger.Covered)
    (hover : ∀ (i : Nat) (t : FeedTask), s'.feeds[i]? = some t → t.finished = true) :
    Settles s.shared.ledger (s.trace moves) s' where
  sets earlier st later hsplit key state records hop :=
    handedOut_of_set hrun hc (not_expects hover) hsplit hop
  resets earlier st later hsplit key heffective :=
    handedOut_iff hrun (not_expects hover) (hc key (isSome_of_effective? hrun hsplit heffective)) hsplit
  wells earlier st later hsplit key heffective i t t' ht hopen ht' hdone := by
    have hplan := hc key (isSome_of_effective? hrun hsplit heffective)
    refine (handedOut_iff hrun (not_expects hover) hplan hsplit).mpr ?_
    obtain ⟨first, more, before, after, -, hmore, rfl⟩ := run_split hrun hsplit
    have hclosed : t'.phase.closesWell = true := by
      rw [hdone]
      rfl
    rcases exists_expects_of_done hmore ht ht' hopen hclosed key with hnow | ⟨x, hx, hthen⟩
    · exact ⟨st, List.mem_cons_self, hnow⟩
    · exact ⟨x, List.mem_cons_of_mem _ hx, hthen⟩
  pending_iff key := pending_run_iff hrun fun _ _ _ hsplit _ _ hop =>
    handedOut_of_set hrun hc (not_expects hover) hsplit hop
  silent_iff := Ledger.checkpoint_eq_nil_iff (covered_run hrun hc)

/-- A read of a ledger that was made and then used in any way, by reads or otherwise, leaves nothing pending but
resets: those for which no feed came to hand out any more, and what was left pending before. Everything that
was handed out is in the messages: for each slot, from the beginning on, they report the states it had when it
was swapped or looked at, in order, and every swap of something pending is among them. -/
theorem pending_after_read_iff (settings : Settings) (factories : Nat)
    {global : Option (Global × Option Value)} {streams : List (Stream × Option Value)}
    {acts : List Desk.Act} {l : Ledger} {past : List Ledger.Entry}
    (hpast : ({ ledger := .make global streams } : Desk).run acts = some (⟨l, .idle⟩, past))
    {moves : List Move} {s' : System} {effects : List Effect}
    (hrun : (start settings factories l).run moves = some (s', effects))
    (hover : s'.result?.isSome = true) :
    Settles l ((start settings factories l).trace moves) s' ∧
    ∃ h, ops h = ((start settings factories l).trace moves).filterMap Step.effective? ∧
      Ledger.output h = states effects ∧
      ∀ key, ∃ times,
        Desk.Ordered key ((Ledger.make global streams).currentAt key) (past ++ h) times
          (Desk.reported key (Ledger.output past ++ states effects)) ∧
        Desk.Complete key (past ++ h) times := by
  have hbooks := (Desk.books_make global streams).run hpast
  -- the feeds of the ledger are those it was made with
  have hkeys : (l.feeds.map Feed.key).Nodup := by
    have hl : l = .used global streams (ops past) := Desk.ledger_run hpast
    rw [hl]
    exact Ledger.nodup_keys_used global streams _
  obtain ⟨ha, -⟩ := (attended_start settings factories hkeys).run_heralded (heralded_start _ _ _) hrun
  obtain ⟨joined, hjoined⟩ := ha.joined
  have hfinished := (hjoined.of_awaited_eq_nil (unseen_of_result? hover).2.1).1
  refine ⟨settles_of_finished hrun hbooks.stocked.covered hfinished, ?_⟩
  obtain ⟨more, d, holder, h, hmore, hm, hops, hout⟩ :=
    (mirrors_start settings factories l).run hrun
  refine ⟨h, hops, hout, fun key => ?_⟩
  -- no feed that is over has the lock
  have hidle : d.job = .idle := by
    refine hm.idle (Option.not_isSome_iff_eq_none.mp fun hsome => ?_)
    obtain ⟨k, t, ht, hjob⟩ := hm.exists_holder (hm.locked.trans hsome)
    have hf := hfinished k t ht
    revert hf hjob
    unfold FeedTask.finished
    cases t.phase <;> nofun
  obtain ⟨times, hordered, hcomplete⟩ := (hbooks.run hmore).held.times key
  rw [List.nil_append, Desk.output_append, hout] at hordered
  rw [List.nil_append] at hcomplete
  exact ⟨times, hordered, hcomplete hidle⟩

/-- The creator of the first feed fails after a reset. The second feed finds nothing to read and hands out. Its
own stream is reset when it is over. -/
def resetsAround : List Move :=
  .supervise :: resetsAndFails 0 ⟨"users", none⟩ ++
  comesToRead 1 [] ++ List.replicate 9 (.feed 1 .go) ++ .reset (.stream ⟨"orders", none⟩) ::
  List.replicate 6 .supervise

/-- The stream of the first feed was set before the read. Its reset is handed out by the other feed, and the
later reset of the other stream is left. -/
theorem pending_after_read_iff_orders :
    ∃ l past s' effects,
      ({ ledger := .make none twoStreams } : Desk).run [.set (.stream ⟨"users", none⟩) (.int 1) 3] =
        some (⟨l, .idle⟩, past) ∧
      (start {} 1 l).run resetsAround = some (s', effects) ∧ s'.result?.isSome = true ∧
      states effects = [.stream ⟨"users", none⟩ .null 0] ∧
      s'.shared.ledger.Pending (.stream ⟨"orders", none⟩) ∧
      ¬ s'.shared.ledger.Pending (.stream ⟨"users", none⟩) ∧
      Settles l ((start {} 1 l).trace resetsAround) s' := by
  have hpast : ({ ledger := .make none twoStreams } : Desk).run
      [.set (.stream ⟨"users", none⟩) (.int 1) 3] = some (⟨_, .idle⟩, _) := rfl
  have hrun : (start {} 1 ((Ledger.make none twoStreams).set (.stream ⟨"users", none⟩) (.int 1) 3)).run
      resetsAround = some (_, _) := rfl
  refine ⟨_, _, _, _, hpast, hrun, rfl, rfl, ⟨_, rfl, rfl⟩, ?_,
    (pending_after_read_iff {} 1 hpast hrun rfl).1⟩
  rintro ⟨slot, hslot, hp⟩
  cases hslot
  cases hp

/-- The reset of a factory whose creator fails is never reported: no state is written, and the slot is still
pending when the read is over. -/
theorem reset_left_pending_by_failed_creator :
    ∃ s' effects e,
      (start {} 1 (.make none [({ id := ⟨"users", none⟩ }, some (.text "s0"))])).run
          (.supervise :: resetsAndFails 0 ⟨"users", none⟩ ++ List.replicate 5 .supervise) =
        some (s', effects) ∧
      s'.result? = some (.error e) ∧ states effects = [] ∧
      s'.shared.ledger.Pending (.stream ⟨"users", none⟩) ∧
      s'.shared.ledger.checkpoint.2 = [.stream ⟨"users", none⟩ .null 0] :=
  ⟨_, _, _, rfl, rfl, rfl, ⟨_, rfl, rfl⟩, rfl⟩

end System

end Read

end Intake
