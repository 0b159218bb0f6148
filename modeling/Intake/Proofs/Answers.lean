import Intake.Proofs.Running
import Mathlib.Data.Set.Basic
/-!
# What the tracker answers

The tracker answers to every update whether the set of running tasks is another one now. Each branch of the update
makes up its answer in a way of its own: a start and an end look at their own key, a stop counts the entries before
and after. `Tells` says that an answer is right, and `tells_mark`, `tells_note` and `tells_stop` that it is, branch by
branch; none of them needs an order of the events or anything about their numbers.

A stop looks at the text of a key: whether it is the root of the feed, or goes on after it with a slash. Those are just
the keys that have this root (`isUnder_root`), so `mem_activeKeys_of_outcome` says what is left running by the text and
nothing is left running of a root that is stopped. The main statement is `answers_exact_and_stopped_roots_idle`.
-/

namespace Intake.Tracker

/-- The keys of the running tasks. -/
def activeKeys (t : Tracker) : Set String := { key | t.isActive key = true }

/-- The answer of an update is right: it is yes if and only if the set of running tasks is another one. -/
def Tells (t : Tracker) (answer : Tracker × Bool) : Prop :=
  answer.2 = true ↔ answer.1.activeKeys ≠ t.activeKeys

section
variable {t t' : Tracker} {e : Event} {key : String}

theorem mem_activeKeys_iff (t : Tracker) (key : String) :
    key ∈ t.activeKeys ↔ (t.active.find? key).isSome = true := Iff.rfl

theorem tells_no (h : t'.activeKeys = t.activeKeys) : Tells t (t', false) :=
  ⟨fun hyes => absurd hyes Bool.false_ne_true, fun hne => absurd h hne⟩

/-- A key that has come or gone makes the answer yes a right one. -/
theorem tells_yes (key : String) (h : ¬ (key ∈ t'.activeKeys ↔ key ∈ t.activeKeys)) : Tells t (t', true) :=
  ⟨fun _ heq => h (by rw [heq]), fun _ => rfl⟩

/-! ### Branch by branch -/

theorem tells_mark (t : Tracker) (key : String) (seq : Nat) (starts : Bool) : Tells t (t.mark key seq starts) := by
  unfold mark
  split
  · rename_i last hactive
    have hmem : key ∈ t.activeKeys := by rw [mem_activeKeys_iff, hactive]; rfl
    split
    · exact tells_no rfl
    · split
      · -- the key stays where it is, with another number
        apply tells_no
        ext other
        simp only [mem_activeKeys_iff, Table.find?_put]
        split
        · rename_i heq
          simp [← heq, hactive]
        · rfl
      · apply tells_yes key
        rw [mem_activeKeys_iff, Table.find?_erase, if_pos rfl]
        simp [hmem]
  · rename_i hactive
    have hnew : key ∉ t.activeKeys := by rw [mem_activeKeys_iff, hactive]; simp
    split
    · apply tells_yes key
      rw [mem_activeKeys_iff, Table.find?_put, if_pos rfl]
      simp [hnew]
    · exact tells_no rfl

/-- Lifting a stop marker does not show in the running tasks. -/
theorem tells_note (t : Tracker) (key : String) (e : Event) (starts : Bool) : Tells t (t.note key e starts) := by
  unfold note
  split
  · split
    · exact tells_no rfl
    · exact tells_mark { t with stopped := t.stopped.erase (root key) } key e.seq starts
  · exact tells_mark t key e.seq starts

/-- A stop counts entries: their number is another one if and only if a key is gone. -/
theorem tells_stop (t : Tracker) (feed : String) (seq : Nat) : Tells t (t.stop feed seq) := by
  unfold stop
  split
  · exact tells_no rfl
  · have hafter : ∀ other, other ∈ activeKeys
        { active := t.active.filter fun entry => !isUnder feed entry.1, stopped := t.stopped.put feed seq } ↔
          (!isUnder feed other) = true ∧ other ∈ t.activeKeys := by
      intro other
      rw [mem_activeKeys_iff, Table.find?_filter t.active fun key => !isUnder feed key, mem_activeKeys_iff]
      cases isUnder feed other <;> simp
    rw [Tells, bne_iff_ne, Ne, not_iff_not, List.length_filter_eq_length_iff]
    constructor
    · intro hall
      ext other
      rw [hafter, and_iff_right_iff_imp, mem_activeKeys_iff, ← Table.mem_keys_iff]
      intro hmem
      obtain ⟨entry, hentry, rfl⟩ := List.mem_map.mp hmem
      exact hall entry hentry
    · intro heq entry hentry
      have hmem : entry.1 ∈ t.activeKeys :=
        (Table.mem_keys_iff t.active entry.1).mp (List.mem_map_of_mem hentry)
      rw [← heq, hafter] at hmem
      exact hmem.1

/-- Whatever the event is, the answer is right. -/
theorem tells_update (t : Tracker) (e : Event) : Tells t (t.update e) := by
  unfold update
  split
  · exact tells_no rfl
  · rename_i key _
    split
    · exact tells_note t key e true
    · exact tells_note t key e false
    · exact tells_stop t (root key) e.seq
    · exact tells_no rfl

/-! ### On the text of a key -/

/-- What an outcome leaves running that is newer than the stop marker of its feed, if there is one: every key but the
feed itself and those that go on after it with a slash. -/
theorem mem_activeKeys_of_outcome (hkey : e.taskKey = some key) (hkind : e.kind ∈ EventKind.outcomes)
    (hnew : ∀ marker, t.stopped.find? (root key) = some marker → marker < e.seq) (other : String) :
    other ∈ (t.update e).1.activeKeys ↔
      other ∈ t.activeKeys ∧ other ≠ root key ∧ ¬ ∃ rest, other = root key ++ "/" ++ rest := by
  obtain ⟨hactive, -⟩ := update_of_outcome hkey hkind hnew
  have hfree : '/' ∉ (root key).toList := ((root_eq_iff key (root key)).mp rfl).1
  have hroot := root_eq_iff other (root key)
  rw [mem_activeKeys_iff, hactive, mem_activeKeys_iff]
  split
  · rename_i heq
    rcases (hroot.mp heq).2 with hself | hbelow
    · simp [hself]
    · simp [hbelow]
  · rename_i hne
    have houtside : ¬ (other = root key ∨ ∃ rest, other = root key ++ "/" ++ rest) :=
      fun hor => hne (hroot.mpr ⟨hfree, hor⟩)
    rw [not_or] at houtside
    simp [houtside]

end

/-! ### After any history -/

/-- After any events, in any order and with any numbers and labels: no running task has a root with a stop marker;
whatever event comes next, the answer is yes if and only if the set of running tasks is another one after it; and an
outcome that is newer than the stop marker of its feed takes out the feed and exactly those keys that go on after it
with a slash. -/
theorem answers_exact_and_stopped_roots_idle (events : List Event) :
    let t := ({} : Tracker).run events
    (∀ key ∈ t.activeKeys, t.stopped.find? (root key) = none) ∧
    (∀ e, (t.update e).2 = true ↔ (t.update e).1.activeKeys ≠ t.activeKeys) ∧
    (∀ e key, e.taskKey = some key → e.kind ∈ EventKind.outcomes →
      (∀ marker, t.stopped.find? (root key) = some marker → marker < e.seq) →
      ∀ other, other ∈ (t.update e).1.activeKeys ↔
        other ∈ t.activeKeys ∧ other ≠ root key ∧ ¬ ∃ rest, other = root key ++ "/" ++ rest) := by
  intro t
  have ht : t.Sound := sound_run recalls_nil.sound events
  refine ⟨fun key hkey => ?_, fun e => tells_update t e, fun e key => mem_activeKeys_of_outcome⟩
  obtain ⟨last, hactive⟩ := Option.isSome_iff_exists.mp hkey
  exact ht.stopped_eq_none hactive

/-- A feed `a` fails by an event that is older than all that is running. A task of it, and a feed with a slash in its
name, are gone; a feed whose name only begins with the same letter goes on. That the outcome comes once more changes
nothing. -/
theorem answers_exact_and_stopped_roots_idle_slash :
    let events : List Event :=
      [{ kind := .feedStarting, feed := some "ab", seq := 7 },
       { kind := .feedStarting, feed := some "a/b", seq := 9 },
       { kind := .partitionReadStarting, feed := some "a", round := some 1, partition := some 2, seq := 3 }]
    let e : Event := { kind := .feedFailed, feed := some "a", seq := 1 }
    let t := ({} : Tracker).run events
    let t' := ({} : Tracker).run (events ++ [e])
    t' = { active := [("ab", 7)], stopped := [("a", 1)] } ∧ t'.stopped.find? (root "ab") = none ∧
      t'.activeKeys ≠ t.activeKeys ∧ (t'.update e).1.activeKeys = t'.activeKeys ∧ "a/b" ∉ t'.activeKeys := by
  intro events e t t'
  have hafter : t' = { active := [("ab", 7)], stopped := [("a", 1)] } := by cbv
  have hunmarked : t.stopped.find? (root "a") = none := by cbv
  have hyes : (t.update e).2 = true := by cbv
  have hno : (t'.update e).2 = false := by cbv
  obtain ⟨-, hanswer, houtcome⟩ := answers_exact_and_stopped_roots_idle events
  obtain ⟨hidle, hagain, -⟩ := answers_exact_and_stopped_roots_idle (events ++ [e])
  refine ⟨hafter, hidle "ab" ?_, (hanswer e).mp hyes, ?_, ?_⟩
  · rw [mem_activeKeys_iff]
    cbv
  · by_contra hne
    exact absurd ((hagain e).mpr hne) (by rw [hno]; exact Bool.false_ne_true)
  · have hgone := houtcome e "a" rfl (by decide) (fun marker hmarker => by rw [hunmarked] at hmarker; cases hmarker)
    exact fun hmem => ((hgone "a/b").mp hmem).2.2 ⟨"b", by cbv⟩

end Intake.Tracker
