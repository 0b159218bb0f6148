import Intake.Proofs.Checkpoint
/-!
# What a checkpoint leaves behind

Whoever has a ledger writes to its slots through scopes, the ones of feeds and the ones of streams, and two scopes may
lead to one slot. Here it is shown that a checkpoint leaves nothing behind: whatever was asked of the ledger before
(`Request`), all slots hold what was written last, and a second checkpoint says nothing and does nothing.

A request is some operations on slots (`Request.ops`, `serve_eq`), so what is known of operations is known of
requests. `newestAt_foldl` says that the newest state of a slot is what was written to it last; the main statement is
`checkpoint_flushes`.
-/

namespace Intake

namespace Ledger

/-! ### Requests -/

/-- The way by which somebody has come to a slot. -/
inductive Scope
  | feed (f : Feed)
  | stream (id : StreamId)

/-- The slot of a scope, if there is one. -/
def locate (l : Ledger) : Scope → Option SlotKey
  | .feed f => l.scope? f
  | .stream id => l.streamScope? id

/-- What can be asked of a ledger. -/
inductive Request
  | set (scope : Scope) (state : Value) (records : Nat)
  | reset (scope : Scope)
  | resetAll (feed : Feed)
  /-- Hands out what is pending, to whoever asks or to the output. -/
  | handOut
  /-- Makes one visit of somebody else's handing out. -/
  | visit (v : Visit)

/-- The ledger after a request. -/
def serve (l : Ledger) : Request → Ledger
  | .set scope state records => (l.locate scope).elim l fun key => l.set key state records
  | .reset scope => (l.locate scope).elim l l.reset
  | .resetAll feed => l.resetAll feed
  | .handOut => l.checkpoint.1
  | .visit v => (l.visit {} v).1

namespace Request

/-- Whether nothing is written. -/
def isSilent : Request → Bool
  | .handOut => true
  | .visit _ => true
  | _ => false

/-- The state that is written to a slot, if any; a reset writes that there is none. -/
def value? (l : Ledger) (key : SlotKey) : Request → Option (Option Value)
  | .set scope state _ => if l.locate scope = some key then some (some state) else none
  | .reset scope => if l.locate scope = some key then some none else none
  | .resetAll feed => if key ∈ l.scopesOf feed then some none else none
  | .handOut => none
  | .visit _ => none

/-- The operations on slots that a request comes to. -/
def ops (l : Ledger) : Request → List Op
  | .set scope state records => (l.locate scope).toList.map fun key => .set key state records
  | .reset scope => (l.locate scope).toList.map .reset
  | .resetAll feed => (l.scopesOf feed).map .reset
  | .handOut => (l.plan.filterMap Visit.key?).map .swap
  | .visit v => v.key?.toList.map .swap

end Request

/-- The state that was written to a slot last, if one was. -/
def lastWritten (l : Ledger) (key : SlotKey) (initial : Option Value) (requests : List Request) : Option Value :=
  (requests.filterMap (·.value? l key)).getLast?.getD initial

/-- The state that an operation writes to a slot. -/
def Op.value? (key : SlotKey) : Op → Option (Option Value)
  | .set k state _ => if k = key then some (some state) else none
  | .reset k => if k = key then some none else none
  | .swap _ => none

section
variable {l : Ledger} {key : SlotKey}

theorem foldl_swaps (l : Ledger) (d : Draft) (vs : List Visit) :
    (l.visits d vs).1 = ((vs.filterMap Visit.key?).map Op.swap).foldl apply l := by
  induction vs using List.reverseRecOn with
  | nil => rfl
  | append_singleton vs v ih =>
    rw [visits_snoc, attend_fst, visit_fst, ih, List.filterMap_append, List.map_append, List.foldl_append]
    rcases hv : v.key? with _ | k <;> simp [hv]

/-- A request does some operations to slots. -/
theorem serve_eq (l : Ledger) (r : Request) : l.serve r = (r.ops l).foldl apply l := by
  cases r with
  | set scope state records =>
    simp only [serve, Request.ops]
    cases l.locate scope <;> rfl
  | reset scope =>
    simp only [serve, Request.ops]
    cases l.locate scope <;> rfl
  | resetAll feed =>
    simp only [serve, Request.ops, resetAll, List.foldl_map]
    rfl
  | handOut => exact foldl_swaps l {} l.plan
  | visit v =>
    simp only [serve, Request.ops, visit_fst]
    cases v.key? <;> rfl

theorem streamScope?_apply (l : Ledger) (op : Op) (id : StreamId) :
    (l.apply op).streamScope? id = l.streamScope? id := by
  simp only [streamScope?, isSome_find?_apply]

theorem locate_apply (l : Ledger) (op : Op) (scope : Scope) : (l.apply op).locate scope = l.locate scope := by
  cases scope with
  | feed f => exact scope?_apply l op f
  | stream id => exact streamScope?_apply l op id

theorem locate_foldl (l : Ledger) (ops : List Op) (scope : Scope) :
    (ops.foldl apply l).locate scope = l.locate scope :=
  List.foldlRecOn (motive := fun l' => l'.locate scope = l.locate scope) ops apply rfl
    fun l' hl' op _ => (locate_apply l' op scope).trans hl'

/-- Operations do not change what a request comes to. -/
theorem ops_apply (l : Ledger) (op : Op) (r : Request) : r.ops (l.apply op) = r.ops l := by
  cases r with
  | set | reset => simp only [Request.ops, locate_apply]
  | resetAll feed => simp only [Request.ops, scopesOf, scope?_apply, funext (streamScope?_apply l op)]
  | handOut => simp only [Request.ops, plan_apply]
  | visit => rfl

theorem ops_foldl (l : Ledger) (ops : List Op) (r : Request) : r.ops (ops.foldl apply l) = r.ops l :=
  List.foldlRecOn (motive := fun l' => r.ops l' = r.ops l) ops apply rfl
    fun l' hl' op _ => (ops_apply l' op r).trans hl'

/-- A run of requests does all their operations to slots. -/
theorem serveAll_eq (l : Ledger) (requests : List Request) :
    requests.foldl serve l = (requests.flatMap (·.ops l)).foldl apply l := by
  induction requests using List.reverseRecOn with
  | nil => rfl
  | append_singleton requests r ih =>
    rw [List.foldl_append, List.foldl_cons, List.foldl_nil, ih, serve_eq, ops_foldl, List.flatMap_append,
      List.foldl_append]
    simp

/-! ### What is written last -/

/-- An operation that writes to a slot makes what it writes the newest state; handing out does not change it. -/
theorem newestAt_apply (hthere : (l.slots.find? key).isSome = true) (op : Op) :
    (l.apply op).newestAt key = (op.value? key).getD (l.newestAt key) := by
  obtain ⟨slot, hslot⟩ := Option.isSome_iff_exists.mp hthere
  rw [newestAt, newestAt, find?_apply, hslot]
  by_cases hkey : op.key = key
  · cases op with
    | set k state records =>
      have hk : k = key := hkey
      simp [Op.key, Op.value?, hk, Op.onSlot, Slot.set, Slot.newest]
    | reset k =>
      have hk : k = key := hkey
      simp [Op.key, Op.value?, hk, Op.onSlot, Slot.reset, Slot.newest]
    | swap k => simp [hkey, Op.value?, Op.onSlot, Slot.newest_swap]
  · have hnone : op.value? key = none := by
      cases op with
      | set k | reset k =>
        have hk : ¬ k = key := hkey
        simp [Op.value?, hk]
      | swap => rfl
    rw [if_neg hkey, hnone]
    rfl

theorem newestAt_foldl (hthere : (l.slots.find? key).isSome = true) (ops : List Op) :
    (ops.foldl apply l).newestAt key = (ops.filterMap (Op.value? key)).getLast?.getD (l.newestAt key) := by
  induction ops using List.reverseRecOn with
  | nil => rfl
  | append_singleton ops op ih =>
    rw [List.foldl_append, List.foldl_cons, List.foldl_nil,
      newestAt_apply ((isSome_find?_foldl l ops key).trans hthere), ih, List.filterMap_append]
    rcases hv : op.value? key with _ | value <;> simp [hv]

theorem getLast?_resets (key : SlotKey) (keys : List SlotKey) :
    ((keys.map Op.reset).filterMap (Op.value? key)).getLast? = if key ∈ keys then some none else none := by
  induction keys using List.reverseRecOn with
  | nil => rfl
  | append_singleton keys k ih =>
    rw [List.map_append, List.filterMap_append, List.getLast?_append, ih]
    by_cases hk : k = key
    · simp [Op.value?, hk]
    · simp [Op.value?, hk, Ne.symm hk]

/-- What a request writes to a slot last. -/
theorem value?_eq (l : Ledger) (key : SlotKey) (r : Request) :
    ((r.ops l).filterMap (Op.value? key)).getLast? = r.value? l key := by
  cases r with
  | set scope state records =>
    simp only [Request.ops, Request.value?]
    rcases l.locate scope with _ | k
    · rfl
    · by_cases hk : k = key <;> simp [Op.value?, hk]
  | reset scope =>
    simp only [Request.ops, Request.value?, getLast?_resets, Option.mem_toList]
  | resetAll feed => exact getLast?_resets key _
  | handOut =>
    simp [Request.ops, Request.value?, List.filterMap_map, Function.comp_def, Op.value?]
  | visit v =>
    simp [Request.ops, Request.value?, List.filterMap_map, Function.comp_def, Op.value?]

theorem lastWritten_eq (l : Ledger) (key : SlotKey) (initial : Option Value) (requests : List Request) :
    lastWritten l key initial requests =
      ((requests.flatMap (·.ops l)).filterMap (Op.value? key)).getLast?.getD initial := by
  induction requests using List.reverseRecOn with
  | nil => rfl
  | append_singleton requests r ih =>
    rw [List.flatMap_append, List.filterMap_append, List.getLast?_append, List.flatMap_cons, List.flatMap_nil,
      List.append_nil, value?_eq, lastWritten, List.filterMap_append, List.getLast?_append]
    rcases hv : r.value? l key with _ | value
    · rw [lastWritten] at ih
      simpa [hv] using ih
    · simp [hv]

end

/-! ### The statement -/

section
variable {l : Ledger} {key : SlotKey}

/-- Swapping a slot in which nothing is pending changes nothing. -/
theorem apply_swap_of_idle (h : l.isPending key = false) : l.apply (.swap key) = l := by
  simp only [apply, swapAt]
  rcases hs : l.slots.find? key with _ | slot
  · rfl
  · simp only [isPending, hs, Option.any_some] at h
    simp only [Slot.swap_of_not_pending h, Table.put_of_find? hs]

theorem foldl_swap_of_idle (h : ∀ key, l.isPending key = false) (keys : List SlotKey) :
    (keys.map Op.swap).foldl apply l = l := by
  induction keys with
  | nil => rfl
  | cons key rest ih => rw [List.map_cons, List.foldl_cons, apply_swap_of_idle (h key), ih]

/-- Who writes nothing changes nothing if nothing is pending. -/
theorem serve_of_idle (h : ∀ key, l.isPending key = false) {r : Request} (hr : r.isSilent = true) :
    l.serve r = l := by
  rw [serve_eq]
  cases r with
  | handOut | visit => exact foldl_swap_of_idle h _
  | set | reset | resetAll => cases hr

theorem isPending_checkpoint (hc : l.Covered) (key : SlotKey) : l.checkpoint.1.isPending key = false := by
  rw [isPending, find?_checkpoint hc]
  rcases l.slots.find? key with _ | slot
  · rfl
  · exact slot.pending_swap

theorem not_pending_iff : ¬ l.Pending key ↔ l.isPending key = false := by
  rw [Pending, isPending]
  rcases l.slots.find? key with _ | slot <;> simp

end

section
variable (global : Option (Global × Option Value)) (streams : List (Stream × Option Value)) (requests : List Request)

/-- What was asked of a ledger is done to its slots. -/
theorem served_eq_used : requests.foldl serve (make global streams) =
    used global streams (requests.flatMap (·.ops (make global streams))) :=
  serveAll_eq _ _

/-- The slot of a stream is found just if the stream is to be read or the global feed lists it. -/
theorem streamScope?_eq (id : StreamId) (ops : List Op) : (used global streams ops).streamScope? id =
    if tracks global streams (.stream id) = true then some (.stream id) else none := by
  rw [streamScope?, isSome_find?_used]

/-- Scopes lead to all slots there are, and to no others. -/
theorem exists_locate_iff (key : SlotKey) :
    (∃ scope, (make global streams).locate scope = some key) ↔ tracks global streams key = true := by
  have hstream : ∀ id, (make global streams).streamScope? id = some key →
      tracks global streams key = true := by
    intro id hid
    rw [show make global streams = used global streams [] from rfl, streamScope?_eq] at hid
    split at hid
    · cases hid
      assumption
    · cases hid
  constructor
  · rintro ⟨f | id, hkey⟩
    · cases f with
      | stream st => exact hstream st.id hkey
      | global g =>
        simp only [locate, scope?, global_make] at hkey
        split at hkey
        · rename_i hown
          cases hkey
          rcases global with _ | own
          · cases hown
          · rfl
        · cases hkey
    · exact hstream id hkey
  · intro htracks
    cases key with
    | shared =>
      rcases global with _ | ⟨g, initial⟩
      · cases htracks
      · refine ⟨.feed (.global g), ?_⟩
        simp [locate, scope?, global_make]
    | stream id =>
      refine ⟨.stream id, ?_⟩
      rw [locate, show make global streams = used global streams [] from rfl, streamScope?_eq, if_pos htracks]

end

/-- Whatever was asked of a ledger before, after a checkpoint nothing is pending in any slot, scopes lead to the same
slots as ever, and the current state of each is what was written to it last, or the one that was given for it. After
that a checkpoint says nothing and changes nothing, nor does anything else that writes nothing. -/
theorem checkpoint_flushes (global : Option (Global × Option Value)) (streams : List (Stream × Option Value))
    (requests : List Request) :
    let l := make global streams
    let flushed := (requests.foldl serve l).checkpoint.1
    (∀ key, flushed.isPending key = false) ∧
    (∀ key, (∃ scope, l.locate scope = some key) ↔ tracks global streams key = true) ∧
    (∀ scope key, l.locate scope = some key → flushed.locate scope = some key ∧
      flushed.currentAt key = lastWritten l key (initialAt global streams key) requests) ∧
    flushed.checkpoint = (flushed, []) ∧
    ∀ later : List Request, (∀ r ∈ later, r.isSilent = true) → later.foldl serve flushed = flushed := by
  intro l flushed
  have hserved := served_eq_used global streams requests
  have hcovered : (requests.foldl serve l).Covered := by
    rw [hserved]
    exact covered_used global streams _
  have hflushed : flushed = used global streams ((requests ++ [Request.handOut]).flatMap (Request.ops l)) := by
    rw [← served_eq_used, List.foldl_append]
    rfl
  have hidle : ∀ key, flushed.isPending key = false := isPending_checkpoint hcovered
  refine ⟨hidle, exists_locate_iff global streams, ?_, ?_, ?_⟩
  · intro scope key hkey
    have htracks := (exists_locate_iff global streams key).mp ⟨scope, hkey⟩
    have hslot := find?_make global streams key
    rw [if_pos htracks] at hslot
    have hinitial : l.newestAt key = initialAt global streams key := by
      rw [newestAt, hslot]
      rfl
    refine ⟨?_, ?_⟩
    · rw [hflushed, used, locate_foldl]
      exact hkey
    · rw [currentAt_checkpoint hcovered, hserved, used, newestAt_foldl (by rw [hslot]; rfl), hinitial, lastWritten_eq]
  · have hsilent : flushed.checkpoint.2 = [] := by
      have hagain : flushed.Covered := by
        rw [hflushed]
        exact covered_used global streams _
      rw [checkpoint_eq_nil_iff hagain]
      intro key
      exact not_pending_iff.mpr (hidle key)
    exact Prod.ext (serve_of_idle hidle (r := .handOut) rfl) hsilent
  · intro later hlater
    induction later with
    | nil => rfl
    | cons r rest ih =>
      rw [List.foldl_cons, serve_of_idle hidle (hlater r List.mem_cons_self)]
      exact ih fun other hother => hlater other (List.mem_cons_of_mem _ hother)

/-- A member that is not read on its own is set, a stream is set through the scope of its feed and then reset through
its own, and the global feed is set twice, with a checkpoint in between. -/
theorem checkpoint_flushes_member_alone :
    let a : Stream := { id := { name := "a" } }
    let m : Stream := { id := { name := "m" } }
    let g : Global := ⟨[m, a, m]⟩
    let l := make (some (g, none)) [(a, some (.text "a0"))]
    let requests : List Request := [.set (.stream m.id) (.text "m1") 2, .set (.feed (.stream a)) (.text "a1") 1,
      .set (.feed (.global g)) (.text "s1") 4, .handOut, .reset (.stream a.id),
      .set (.feed (.global g)) (.text "s2") 3]
    let flushed := (requests.foldl serve l).checkpoint.1
    flushed.currentAt (.stream m.id) = some (.text "m1") ∧ flushed.currentAt (.stream a.id) = none ∧
    flushed.currentAt .shared = some (.text "s2") ∧ flushed.checkpoint = (flushed, []) ∧
    [Request.handOut, .visit .shared].foldl serve flushed = flushed := by
  intro a m g l requests flushed
  obtain ⟨-, -, hcurrent, hagain, hlater⟩ := checkpoint_flushes (some (g, none)) [(a, some (.text "a0"))] requests
  refine ⟨?_, ?_, ?_, hagain, hlater _ (by decide)⟩
  · exact (hcurrent (.stream m.id) (.stream m.id) rfl).2
  · exact (hcurrent (.stream a.id) (.stream a.id) rfl).2
  · exact (hcurrent (.feed (.global g)) .shared rfl).2

end Ledger

end Intake
