import Intake.Proofs.Tracking
import Mathlib.Data.List.Induction
import Mathlib.Data.List.Permutation
/-!
# The running tasks of a history

The tracker keeps two small tables and forgets what is over. What it ought to know is said on the history alone:
`Running key events` says that a task was begun and that since then neither it nor its feed has ended, and `Shut`
that the feeds of a root are over.

When events come in the order of their numbers, each of them is newer than all that the tracker has noted (`Older`).
`find?_active_update` and `find?_stopped_update` say what such an event does to the two tables, `running_snoc_iff` and
`shut_snoc_iff` what it does to a history, and both say the same: `Recalls.step` is the step, `recalls_run` the run.
The main statement is `snapshot_lists_running`.

When events come in any order, what is not newer than a stop marker is refused, and so is a start or an end that is
not newer than what is known of its key. An outcome is not compared with what is known of the key
(`outdated_outcome_stops_feed`). The main statement is `stale_refused_unless_outcome`.
-/

namespace Intake

namespace EventKind

/-- The kinds that tell that a task begins. -/
def starts : List EventKind := [.feedStarting, .creatorStarting, .partitionReadStarting]

/-- The kinds that tell that a task other than a feed is over. -/
def ends : List EventKind :=
  [.partitionsCreated, .partitionReadCompleted, .partitionReadTimedOut, .partitionReadFailed,
   .partitionReadCancelled]

/-- The kinds that tell that a feed is over. -/
def outcomes : List EventKind := [.feedCompleted, .feedFailed, .feedCancelled]

theorem role_eq_start_iff (k : EventKind) : k.role = .start ↔ k ∈ starts := by cases k <;> decide

theorem role_eq_finish_iff (k : EventKind) : k.role = .finish ↔ k ∈ ends := by cases k <;> decide

theorem role_eq_outcome_iff (k : EventKind) : k.role = .outcome ↔ k ∈ outcomes := by cases k <;> decide

end EventKind

namespace Event

/-- The event tells that the task of a key begins. -/
def Begins (e : Event) (key : String) : Prop := e.kind ∈ EventKind.starts ∧ e.taskKey = some key

/-- The event tells that the task of a key is over. -/
def Finishes (e : Event) (key : String) : Prop := e.kind ∈ EventKind.ends ∧ e.taskKey = some key

/-- The event tells that a feed is over, and its key has the given root. -/
def Concludes (e : Event) (root : String) : Prop :=
  e.kind ∈ EventKind.outcomes ∧ e.taskKey.map Tracker.root = some root

/-- The event tells that a feed begins, and its key has the given root. -/
def Restarts (e : Event) (root : String) : Prop :=
  e.kind = .feedStarting ∧ e.taskKey.map Tracker.root = some root

/-- The root of an event is that of its task. -/
theorem root?_eq (e : Event) : e.root? = e.taskKey.map Tracker.root := by
  cases h : e.taskKey with
  | none => exact Tracker.root?_of_taskKey_eq_none h
  | some key => exact Tracker.root?_of_taskKey h

theorem concludes_iff (e : Event) (r : String) : e.Concludes r ↔ e.Shuts r := by
  rw [Concludes, Shuts, root?_eq, EventKind.role_eq_outcome_iff]

theorem restarts_iff (e : Event) (r : String) : e.Restarts r ↔ e.Opens r := by
  rw [Restarts, Opens, root?_eq]

end Event

theorem Table.nodup_filter {κ ν : Type} {t : Table κ ν} (p : κ × ν → Bool) (h : t.keys.Nodup) :
    (keys (t.filter p)).Nodup :=
  h.sublist (List.filter_sublist.map Prod.fst)

/-- Taking out a key that is not there changes nothing. -/
theorem Table.erase_of_find?_eq_none {κ ν : Type} [DecidableEq κ] {t : Table κ ν} {key : κ}
    (h : t.find? key = none) : t.erase key = t := by
  apply List.filter_eq_self.mpr
  rintro ⟨k, v⟩ hmem
  have hkey : k ∈ t.keys := List.mem_map_of_mem hmem
  rw [decide_eq_true_eq]
  rintro rfl
  rw [mem_keys_iff, h] at hkey
  cases hkey

namespace Tracker

instance (r : String) (t : Tracker) : Decidable (t.Halted r) := inferInstanceAs (Decidable (_ = true))

section
variable {t : Tracker} {e : Event} {key k r : String}

/-! ### Updates by newer events -/

/-- All that the tracker has noted is older than a number. -/
structure Older (n : Nat) (t : Tracker) : Prop where
  active : ∀ key last, t.active.find? key = some last → last < n
  stopped : ∀ r stop, t.stopped.find? r = some stop → stop < n

/-- A newer start or end decides about its key. -/
theorem find?_mark_of_newer (h : ∀ last, t.active.find? k = some last → last < e.seq) (starts : Bool) :
    (t.mark k e.seq starts).1.active.find? key =
      if key = k then (if starts then some e.seq else none) else t.active.find? key := by
  unfold mark
  split
  · rename_i last hlast
    rw [if_neg (Nat.not_le.mpr (h last hlast))]
    cases starts with
    | true => simp [Table.find?_put, eq_comm]
    | false => simp [Table.find?_erase, eq_comm]
  · rename_i hnone
    cases starts with
    | true => simp [Table.find?_put, eq_comm]
    | false =>
      by_cases hkey : key = k
      · simp [hkey, hnone]
      · simp [hkey]

/-- A newer start or end is refused if its root has a stop marker and it does not start a feed. Otherwise the marker
goes, if there is one, and the key is marked. -/
theorem note_of_newer (hnew : t.Older e.seq) (starts : Bool) :
    (t.note k e starts).1 =
      if t.Halted (root k) ∧ e.kind ≠ .feedStarting then t
      else ({ t with stopped := t.stopped.erase (root k) }.mark k e.seq starts).1 := by
  unfold note
  split
  · rename_i stop hstop
    have hhalted : t.Halted (root k) := by rw [Halted, hstop]; rfl
    have hlt := Nat.not_le.mpr (hnew.stopped _ _ hstop)
    simp only [hhalted, true_and, hlt, false_or]
    split
    · rfl
    · rfl
  · rename_i hnone
    have hfree : ¬ t.Halted (root k) := by simp [Halted, hnone]
    rw [if_neg fun h => hfree h.1, Table.erase_of_find?_eq_none hnone]

/-- A newer outcome stops the root. -/
theorem stop_of_newer {seq : Nat} (h : ∀ stop, t.stopped.find? (root k) = some stop → stop < seq) :
    t.stop (root k) seq =
      ({ active := t.active.filter fun entry => root entry.1 ≠ root k, stopped := t.stopped.put (root k) seq },
        (t.active.filter fun entry => root entry.1 ≠ root k).length != t.active.length) := by
  have hmarker : (t.stopped.find? (root k)).any (seq ≤ ·) = false := by
    cases hstop : t.stopped.find? (root k) with
    | none => rfl
    | some stop => simpa using h stop hstop
  simp only [stop_root, hmarker, Bool.false_eq_true, if_false]

/-- What a newer event does to the running tasks. -/
theorem find?_active_update (ht : t.Sound) (hnew : t.Older e.seq) (hk : e.taskKey = some k) (key : String) :
    (t.update e).1.active.find? key =
      match e.kind.role with
      | .start =>
        if key = k ∧ (e.kind = .feedStarting ∨ ¬ t.Halted (root k)) then some e.seq else t.active.find? key
      | .finish => if key = k then none else t.active.find? key
      | .outcome => if root key = root k then none else t.active.find? key
      | .none => t.active.find? key := by
  have hmark := @find?_mark_of_newer { t with stopped := t.stopped.erase (root k) } e key k (hnew.active k)
  rw [update, hk]
  cases hrole : e.kind.role with
  | start =>
    simp only [note_of_newer hnew]
    split
    · rename_i hrefused
      rw [if_neg fun h => h.2.elim hrefused.2 fun hfree => hfree hrefused.1]
    · rename_i htaken
      rw [hmark]
      have hfree : e.kind = .feedStarting ∨ ¬ t.Halted (root k) :=
        or_iff_not_imp_left.mpr fun hother hhalted => htaken ⟨hhalted, hother⟩
      simp only [hfree, and_true, if_true]
  | finish =>
    simp only [note_of_newer hnew]
    split
    · rename_i hrefused
      split
      · rename_i hkey
        rw [hkey]
        exact ht (root k) hrefused.1 k rfl
      · rfl
    · rw [hmark]
      rfl
  | outcome =>
    simp only [stop_of_newer (hnew.stopped _)]
    rw [Table.find?_filter t.active fun key => root key ≠ root k]
    by_cases hroot : root key = root k
    · simp [hroot]
    · simp [hroot]
  | none => rfl

/-- A note of a newer event takes a root off the stopped ones only if its feed starts. -/
theorem find?_stopped_note (hnew : t.Older e.seq) (starts : Bool) (r : String) :
    (t.note k e starts).1.stopped.find? r =
      if r = root k ∧ e.kind = .feedStarting then none else t.stopped.find? r := by
  rw [note_of_newer hnew]
  split
  · rename_i hrefused
    rw [if_neg fun h => hrefused.2 h.2]
  · rename_i htaken
    rw [(mark_frame _ k e.seq starts).1, Table.find?_erase]
    by_cases hroot : root k = r
    · subst hroot
      by_cases hstarts : e.kind = .feedStarting
      · simp [hstarts]
      · have hfree : ¬ t.Halted (root k) := fun hhalted => htaken ⟨hhalted, hstarts⟩
        rw [Halted, Option.isSome_iff_ne_none, not_not] at hfree
        simp [hstarts, hfree]
    · rw [if_neg hroot, if_neg fun h => hroot h.1.symm]

/-- What a newer event does to the stop markers. -/
theorem find?_stopped_update (hnew : t.Older e.seq) (hk : e.taskKey = some k) (r : String) :
    (t.update e).1.stopped.find? r =
      match e.kind.role with
      | .start => if r = root k ∧ e.kind = .feedStarting then none else t.stopped.find? r
      | .finish => t.stopped.find? r
      | .outcome => if r = root k then some e.seq else t.stopped.find? r
      | .none => t.stopped.find? r := by
  rw [update, hk]
  cases hrole : e.kind.role with
  | start => exact find?_stopped_note hnew true r
  | finish =>
    have hkind : e.kind ≠ .feedStarting := by
      intro heq
      rw [heq] at hrole
      cases hrole
    simp only [find?_stopped_note hnew, hkind, and_false, if_false]
  | outcome =>
    simp only [stop_of_newer (hnew.stopped _), Table.find?_put, eq_comm]
  | none => rfl

theorem update_of_taskKey_eq_none (hk : e.taskKey = none) : t.update e = (t, false) := by rw [update, hk]

/-- After a newer event a key is active if the event has begun its task, or if it was active and the event has ended
neither its task nor its feed. -/
theorem isSome_active_update_iff (ht : t.Sound) (hnew : t.Older e.seq) (key : String) :
    ((t.update e).1.active.find? key).isSome ↔
      e.Begins key ∧ (e.kind = .feedStarting ∨ ¬ t.Halted (root key)) ∨
      (t.active.find? key).isSome ∧ ¬ e.Finishes key ∧ ¬ e.Concludes (root key) := by
  simp only [Event.Begins, Event.Finishes, Event.Concludes, ← EventKind.role_eq_start_iff,
    ← EventKind.role_eq_finish_iff, ← EventKind.role_eq_outcome_iff]
  cases hk : e.taskKey with
  | none => simp [update_of_taskKey_eq_none hk]
  | some k =>
    rw [find?_active_update ht hnew hk]
    cases hrole : e.kind.role with
    | start =>
      by_cases hkey : key = k
      · subst hkey
        by_cases hfree : e.kind = .feedStarting ∨ ¬ t.Halted (root key)
        · simp [hfree]
        · simp [hfree]
      · simp [hkey, Ne.symm hkey]
    | finish =>
      by_cases hkey : key = k
      · simp [hkey]
      · simp [hkey, Ne.symm hkey]
    | outcome =>
      by_cases hroot : root key = root k
      · simp [hroot]
      · simp [hroot, Ne.symm hroot]
    | none => simp

/-- After a newer event a root has a stop marker if the event is an outcome of it, or if it had one and the event is
no start of a feed. -/
theorem halted_update_iff (hnew : t.Older e.seq) (r : String) :
    (t.update e).1.Halted r ↔ e.Concludes r ∨ t.Halted r ∧ ¬ e.Restarts r := by
  simp only [Event.Concludes, Event.Restarts, ← EventKind.role_eq_outcome_iff]
  cases hk : e.taskKey with
  | none => simp [update_of_taskKey_eq_none hk]
  | some k =>
    rw [Halted, find?_stopped_update hnew hk]
    cases hrole : e.kind.role with
    | start =>
      by_cases hroot : r = root k
      · by_cases hstarts : e.kind = .feedStarting
        · simp [hroot, hstarts]
        · simp [hroot, hstarts, Halted]
      · simp [hroot, Ne.symm hroot, Halted]
    | outcome =>
      have hkind : e.kind ≠ .feedStarting := fun h => by rw [h] at hrole; cases hrole
      by_cases hroot : r = root k
      · simp [hroot]
      · simp [hroot, Ne.symm hroot, hkind, Halted]
    | finish | none =>
      have hkind : e.kind ≠ .feedStarting := fun h => by rw [h] at hrole; cases hrole
      simp [hkind, Halted]

theorem Older.mono {n m : Nat} (h : t.Older n) (hle : n ≤ m) : t.Older m :=
  ⟨fun key last hlast => Nat.lt_of_lt_of_le (h.active key last hlast) hle,
    fun r stop hstop => Nat.lt_of_lt_of_le (h.stopped r stop hstop) hle⟩

/-- What is noted of a newer event is its own number. -/
theorem Older.update (ht : t.Sound) (hnew : t.Older e.seq) {n : Nat} (hn : e.seq < n) :
    (t.update e).1.Older n := by
  have hold := hnew.mono hn.le
  cases hk : e.taskKey with
  | none =>
    rw [update_of_taskKey_eq_none hk]
    exact hold
  | some k =>
    constructor
    · intro key last hlast
      rw [find?_active_update ht hnew hk] at hlast
      split at hlast
      · split at hlast
        · cases hlast
          exact hn
        · exact hold.active key last hlast
      · split at hlast
        · cases hlast
        · exact hold.active key last hlast
      · split at hlast
        · cases hlast
        · exact hold.active key last hlast
      · exact hold.active key last hlast
    · intro r stop hstop
      rw [find?_stopped_update hnew hk] at hstop
      split at hstop
      · split at hstop
        · cases hstop
        · exact hold.stopped r stop hstop
      · exact hold.stopped r stop hstop
      · split at hstop
        · cases hstop
          exact hn
        · exact hold.stopped r stop hstop
      · exact hold.stopped r stop hstop

end

/-! ### What a history leaves running -/

/-- A history leaves a task running: it was begun, and since then neither it nor its feed has ended. If its feed had
ended before, it has also been started again: the task is begun by that start, or after it. -/
def Running (key : String) (events : List Event) : Prop :=
  ∃ before e after, events = before ++ e :: after ∧ e.Begins key ∧
    (∀ late ∈ after, ¬ late.Finishes key ∧ ¬ late.Concludes (root key)) ∧
    (e.kind = .feedStarting ∨ ∀ earlier o between, before = earlier ++ o :: between →
      o.Concludes (root key) → ∃ s ∈ between, s.Restarts (root key))

section
variable {t : Tracker} {e : Event} {key r : String} {events : List Event}

/-- A root is not shut if it has restarted after each of its outcomes. -/
theorem not_shut_iff : ¬ Shut r events ↔ ∀ before o after, events = before ++ o :: after →
    o.Concludes r → ∃ s ∈ after, s.Restarts r := by
  simp only [Shut, Event.concludes_iff, Event.restarts_iff]
  push Not
  rfl

/-- An event of a history that has grown by one is the new one, or it was there before and the new one is after it. -/
theorem exists_split_snoc_iff {P : List Event → Event → List Event → Prop} :
    (∃ before x after, events ++ [e] = before ++ x :: after ∧ P before x after) ↔
      P events e [] ∨ ∃ before x after, events = before ++ x :: after ∧ P before x (after ++ [e]) := by
  constructor
  · rintro ⟨before, x, after, heq, hP⟩
    rcases List.eq_nil_or_concat after with rfl | ⟨after, last, rfl⟩
    · obtain ⟨rfl, hx⟩ := List.append_inj' heq rfl
      cases hx
      exact .inl hP
    · rw [List.concat_eq_append, ← List.cons_append, ← List.append_assoc] at heq
      obtain ⟨rfl, hlast⟩ := List.append_inj' heq rfl
      cases hlast
      exact .inr ⟨before, x, after, rfl, by rwa [List.concat_eq_append] at hP⟩
  · rintro (hP | ⟨before, x, after, rfl, hP⟩)
    · exact ⟨events, e, [], rfl, hP⟩
    · exact ⟨before, x, after ++ [e], by simp, hP⟩

/-- A root is shut by its outcome, and from then on until it restarts. -/
theorem shut_snoc_iff : Shut r (events ++ [e]) ↔ e.Concludes r ∨ Shut r events ∧ ¬ e.Restarts r := by
  rw [Shut, exists_split_snoc_iff, Event.concludes_iff, Event.restarts_iff]
  simp only [Shut, List.mem_append, List.mem_singleton, or_imp, forall_and, forall_eq, List.not_mem_nil,
    false_imp_iff, implies_true, and_true]
  apply or_congr_right
  constructor
  · rintro ⟨before, x, after, heq, hx, hafter, he⟩
    exact ⟨⟨before, x, after, heq, hx, hafter⟩, he⟩
  · rintro ⟨⟨before, x, after, heq, hx, hafter⟩, he⟩
    exact ⟨before, x, after, heq, hx, hafter, he⟩

/-- A task runs from its beginning to its end or to the outcome of its feed. -/
theorem running_snoc_iff : Running key (events ++ [e]) ↔
    e.Begins key ∧ (e.kind = .feedStarting ∨ ¬ Shut (root key) events) ∨
    Running key events ∧ ¬ e.Finishes key ∧ ¬ e.Concludes (root key) := by
  simp only [Running, ← not_shut_iff]
  rw [exists_split_snoc_iff]
  constructor
  · rintro (⟨hbegins, -, hfree⟩ | ⟨before, x, after, heq, hbegins, hlate, hfree⟩)
    · exact .inl ⟨hbegins, hfree⟩
    · refine .inr ⟨⟨before, x, after, heq, hbegins, ?_, hfree⟩, hlate e (by simp)⟩
      intro late hmem
      exact hlate late (List.mem_append_left _ hmem)
  · rintro (⟨hbegins, hfree⟩ | ⟨⟨before, x, after, heq, hbegins, hlate, hfree⟩, hlast⟩)
    · exact .inl ⟨hbegins, List.forall_mem_nil _, hfree⟩
    · refine .inr ⟨before, x, after, heq, hbegins, ?_, hfree⟩
      intro late hmem
      rcases List.mem_append.mp hmem with hmem | hmem
      · exact hlate late hmem
      · rw [List.mem_singleton.mp hmem]
        exact hlast

/-- The tracker knows of a history what is running and what is over, and no number that is newer. -/
structure Recalls (events : List Event) (t : Tracker) : Prop where
  sound : t.Sound
  older : ∀ n, (∀ e ∈ events, e.seq < n) → t.Older n
  running : ∀ key, (t.active.find? key).isSome ↔ Running key events
  halted : ∀ r, t.Halted r ↔ Shut r events

theorem recalls_nil : Recalls [] ({} : Tracker) where
  sound := nofun
  older _ _ := ⟨nofun, nofun⟩
  running key := by simp [Running]
  halted r := by simp [Halted, Shut]

/-- An event that is newer than all before it is taken as the history has it. -/
theorem Recalls.step (h : Recalls events t) (hnew : ∀ x ∈ events, x.seq < e.seq) :
    Recalls (events ++ [e]) (t.update e).1 := by
  have holder := h.older e.seq hnew
  constructor
  case sound => exact (rule_of_update t e).sound h.sound
  case older =>
    intro n hn
    exact holder.update h.sound (hn e (by simp))
  case running =>
    intro key
    rw [isSome_active_update_iff h.sound holder, running_snoc_iff, h.running, h.halted]
  case halted =>
    intro r
    rw [halted_update_iff holder, shut_snoc_iff, h.halted]

/-- A tracker recalls all events of a run whose numbers grow. -/
theorem recalls_run (hseq : events.Pairwise fun a b => a.seq < b.seq) :
    Recalls events (({} : Tracker).run events) := by
  induction events using List.reverseRecOn with
  | nil => exact recalls_nil
  | append_singleton events e ih =>
    obtain ⟨hbefore, -, hnew⟩ := List.pairwise_append.mp hseq
    rw [run_append]
    exact (ih hbefore).step fun x hx => hnew x hx e (List.mem_singleton_self e)

end

/-! ### The snapshot -/

section
variable {t : Tracker}

theorem nodup_mark (h : t.active.keys.Nodup) (key : String) (seq : Nat) (starts : Bool) :
    (t.mark key seq starts).1.active.keys.Nodup := by
  unfold mark
  split
  · split
    · exact h
    · split
      · exact Table.nodup_put _ key seq h
      · exact Table.nodup_filter _ h
  · split
    · exact Table.nodup_put _ key seq h
    · exact h

theorem nodup_note (h : t.active.keys.Nodup) (key : String) (e : Event) (starts : Bool) :
    (t.note key e starts).1.active.keys.Nodup := by
  unfold note
  split
  · split
    · exact h
    · apply nodup_mark
      exact h
  · exact nodup_mark h key e.seq starts

/-- The tracker has one entry for a key. -/
theorem nodup_update (h : t.active.keys.Nodup) (e : Event) : (t.update e).1.active.keys.Nodup := by
  unfold update
  split
  · exact h
  · rename_i key hkey
    split
    · exact nodup_note h key e true
    · exact nodup_note h key e false
    · unfold stop
      split
      · exact h
      · exact Table.nodup_filter _ h
    · exact h

theorem nodup_run (h : t.active.keys.Nodup) (events : List Event) : (t.run events).active.keys.Nodup := by
  induction events generalizing t with
  | nil => exact h
  | cons e rest ih => exact ih (nodup_update h e)

/-- The snapshot has the keys of the active tasks. -/
theorem mem_snapshot_iff (t : Tracker) (key : String) : key ∈ t.snapshot ↔ (t.active.find? key).isSome := by
  rw [snapshot, List.mem_mergeSort, Table.mem_keys_iff]

/-- The snapshot is sorted and has no key twice. -/
theorem snapshot_sorted (h : t.active.keys.Nodup) : t.snapshot.Pairwise (· < ·) := by
  have hnodup : t.snapshot.Nodup := (List.mergeSort_perm _ _).nodup_iff.mpr h
  have hsorted : t.snapshot.Pairwise (· ≤ ·) := by
    have hle := @List.pairwise_mergeSort _ (fun a b : String => decide (a ≤ b)) ?_ ?_ t.active.keys
    · exact hle.imp of_decide_eq_true
    · intro a b c hab hbc
      exact decide_eq_true (String.le_trans (of_decide_eq_true hab) (of_decide_eq_true hbc))
    · intro a b
      simpa using String.le_total a b
  apply (hsorted.and hnodup).imp
  rintro a b ⟨hle, hne⟩
  exact String.not_le.mp fun hge => hne (String.le_antisymm hle hge)

end

/-- The tracker computes the running tasks of the history. When events are applied in the order of their numbers, the
snapshot has exactly the keys of the tasks that the history leaves running, sorted and without repetition. The root of
a key is the part before its first slash. -/
theorem snapshot_lists_running (events : List Event) (hseq : events.Pairwise fun a b => a.seq < b.seq) :
    (∀ key, key ∈ (({} : Tracker).run events).snapshot ↔ Running key events) ∧
    (({} : Tracker).run events).snapshot.Pairwise (· < ·) ∧
    (∀ key r, root key = r ↔ '/' ∉ r.toList ∧ (key = r ∨ ∃ rest, key = r ++ "/" ++ rest)) := by
  have hnodup : ({} : Tracker).active.keys.Nodup := List.nodup_nil
  refine ⟨fun key => ?_, snapshot_sorted (nodup_run hnodup events), root_eq_iff⟩
  rw [mem_snapshot_iff]
  exact (recalls_run hseq).running key

/-- A feed is started again after its end, and a feed with a slash in its name has the root of the first. -/
theorem snapshot_lists_running_restarted :
    let events : List Event :=
      [{ kind := .partitionReadStarting, feed := some "a", round := some 1, partition := some 2, seq := 1 },
       { kind := .feedFailed, feed := some "a", seq := 4 },
       { kind := .creatorStarting, feed := some "a", round := some 1, seq := 5 },
       { kind := .feedStarting, feed := some "a/b", seq := 6 },
       { kind := .creatorStarting, feed := some "a", round := some 2, seq := 9 }]
    (events.Pairwise fun a b => a.seq < b.seq) ∧ (({} : Tracker).run events).snapshot = ["a/2", "a/b"] ∧
      Running "a/2" events ∧ ¬ Running "a/1/2" events ∧ ¬ Running "a/1" events := by
  intro events
  have hseq : events.Pairwise fun a b => a.seq < b.seq := by decide
  have hsnapshot : (({} : Tracker).run events).snapshot = ["a/2", "a/b"] := by cbv
  obtain ⟨hrunning, -⟩ := snapshot_lists_running events hseq
  rw [hsnapshot] at hrunning
  refine ⟨hseq, hsnapshot, (hrunning _).mp ?_, fun h => ?_, fun h => ?_⟩
  · simp
  · simpa using (hrunning _).mpr h
  · simpa using (hrunning _).mpr h

/-! ### Events in any order -/

section
variable {t : Tracker} {e : Event} {key : String}

/-- The root of an active key has no stop marker. -/
theorem Sound.stopped_eq_none {last : Nat} (ht : t.Sound) (hactive : t.active.find? key = some last) :
    t.stopped.find? (root key) = none := by
  by_contra hne
  have hclear := ht (root key) (Option.isSome_iff_ne_none.mpr hne) key rfl
  rw [hactive] at hclear
  cases hclear

/-- What is not newer than the stop marker of its root is refused. -/
theorem update_of_stopped {marker : Nat} (hkey : e.taskKey = some key)
    (hstop : t.stopped.find? (root key) = some marker) (hseq : e.seq ≤ marker) : t.update e = (t, false) := by
  have hnote : ∀ starts, t.note key e starts = (t, false) := by
    intro starts
    simp only [note, hstop, hseq, true_or, if_true]
  rw [update, hkey]
  cases hrole : e.kind.role with
  | start | finish => exact hnote _
  | outcome => simp only [stop, hstop, Option.any_some, decide_eq_true hseq, if_true]
  | none => rfl

/-- A start or an end that is not newer than what is known of its key is refused. -/
theorem update_of_active {last : Nat} (ht : t.Sound) (hkey : e.taskKey = some key)
    (hactive : t.active.find? key = some last) (hseq : e.seq ≤ last) (hkind : e.kind ∉ EventKind.outcomes) :
    t.update e = (t, false) := by
  have hfree := ht.stopped_eq_none hactive
  have hnote : ∀ starts, t.note key e starts = (t, false) := by
    intro starts
    simp only [note, hfree, mark, hactive, hseq, if_true]
  rw [update, hkey]
  cases hrole : e.kind.role with
  | start | finish => exact hnote _
  | outcome => exact absurd ((EventKind.role_eq_outcome_iff _).mp hrole) hkind
  | none => rfl

/-- An outcome that is newer than the stop marker of its root stops the root, however new its running tasks are. The
answer says whether there were any. -/
theorem update_of_outcome (hkey : e.taskKey = some key) (hkind : e.kind ∈ EventKind.outcomes)
    (hnew : ∀ marker, t.stopped.find? (root key) = some marker → marker < e.seq) :
    (∀ other, (t.update e).1.active.find? other =
      if root other = root key then none else t.active.find? other) ∧
    (∀ r, (t.update e).1.stopped.find? r = if r = root key then some e.seq else t.stopped.find? r) ∧
    ((t.update e).2 = true ↔ ∃ other, root other = root key ∧ (t.active.find? other).isSome) := by
  have hupdate : t.update e = t.stop (root key) e.seq := by
    rw [update, hkey]
    simp only [(EventKind.role_eq_outcome_iff _).mpr hkind]
  rw [hupdate, stop_of_newer hnew]
  refine ⟨fun other => ?_, fun r => ?_, ?_⟩
  · rw [Table.find?_filter t.active fun key' => root key' ≠ root key]
    by_cases hroot : root other = root key
    · simp [hroot]
    · simp [hroot]
  · simp only [Table.find?_put, eq_comm]
  · rw [bne_iff_ne, Ne, List.length_filter_eq_length_iff]
    simp only [← Table.mem_keys_iff, Table.keys, List.mem_map, decide_eq_true_eq]
    push Not
    constructor
    · rintro ⟨entry, hmem, hroot⟩
      exact ⟨entry.1, hroot, entry, hmem, rfl⟩
    · rintro ⟨other, hroot, entry, hmem, rfl⟩
      exact ⟨entry, hmem, hroot⟩

end

/-- What is not newer than a stop marker of its feed is refused: the answer is no, and nothing changes. So is a start or
an end that is not newer than what is known of its key. An outcome is compared with the stop marker only: if it is
newer than the marker, or there is none, the feed is stopped with all that is running of it. As there is no marker
while anything is running, an outcome that comes late stops a feed that was started by a newer event. -/
theorem stale_refused_unless_outcome (events : List Event) (e : Event) (key : String)
    (hkey : e.taskKey = some key) :
    let t := ({} : Tracker).run events
    (∀ marker, t.stopped.find? (root key) = some marker → e.seq ≤ marker → t.update e = (t, false)) ∧
    (∀ last, t.active.find? key = some last → e.seq ≤ last → e.kind ∉ EventKind.outcomes →
      t.update e = (t, false)) ∧
    (e.kind ∈ EventKind.outcomes →
      (∀ marker, t.stopped.find? (root key) = some marker → marker < e.seq) →
      (∀ other, (t.update e).1.active.find? other =
        if root other = root key then none else t.active.find? other) ∧
      (∀ r, (t.update e).1.stopped.find? r = if r = root key then some e.seq else t.stopped.find? r) ∧
      ((t.update e).2 = true ↔ ∃ other, root other = root key ∧ (t.active.find? other).isSome)) ∧
    (e.kind ∈ EventKind.outcomes → ∀ last, t.active.find? key = some last →
      (t.update e).2 = true ∧ (t.update e).1.active.find? key = none) := by
  intro t
  have ht : t.Sound := sound_run recalls_nil.sound events
  refine ⟨fun marker => update_of_stopped hkey, fun last => update_of_active ht hkey, update_of_outcome hkey, ?_⟩
  intro hkind last hactive
  have hfree := ht.stopped_eq_none hactive
  obtain ⟨hgone, -, hchanged⟩ := update_of_outcome hkey hkind fun marker hmarker => by
    rw [hfree] at hmarker
    cases hmarker
  refine ⟨hchanged.mpr ⟨key, rfl, by rw [hactive]; rfl⟩, ?_⟩
  rw [hgone, if_pos rfl]

/-- A partition of a feed is running since event 6, and is said to be done by an event with the same number. -/
theorem stale_refused_unless_outcome_same_number :
    let start : Event :=
      { kind := .partitionReadStarting, feed := some "users", round := some 1, partition := some 1, seq := 6 }
    let done : Event := { start with kind := .partitionReadCompleted }
    let t := ({} : Tracker).run [{ kind := .feedStarting, feed := some "users", seq := 7 }, start]
    t.active.find? "users/1/1" = some 6 ∧ done.seq ≤ 6 ∧ t.update done = (t, false) := by
  intro start done t
  have hactive : t.active.find? "users/1/1" = some 6 := by cbv
  obtain ⟨-, hrefused, -⟩ := stale_refused_unless_outcome
    [{ kind := .feedStarting, feed := some "users", seq := 7 }, start] done "users/1/1" (by decide)
  exact ⟨hactive, Nat.le_refl 6, hrefused 6 hactive (Nat.le_refl 6) (by decide)⟩

/-- A feed was started by event 5. That it is done is told by event 3, and stops it. -/
theorem outdated_outcome_stops_feed :
    let t := ({} : Tracker).run [{ kind := .feedStarting, feed := some "users", seq := 5 }]
    let e : Event := { kind := .feedCompleted, feed := some "users", seq := 3 }
    e.taskKey = some "users" ∧ t.active.find? "users" = some 5 ∧ e.seq ≤ 5 ∧
      t.update e = ({ active := [], stopped := [("users", 3)] }, true) := by
  refine ⟨rfl, ?_, by decide, ?_⟩
  · cbv
  · cbv

end Tracker

end Intake
