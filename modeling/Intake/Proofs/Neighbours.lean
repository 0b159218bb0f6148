import Intake.Ledger
import Intake.Proofs.Running
/-!
# Feeds side by side

The tracker hears of all feeds of a read and tells them apart by their labels. A label is made of a name and a name
space, which are free, and the key of a task is made of a label. So two feeds may have one label, and the key of one may
read like the key of another.

What the tracker knows of a root is the running tasks of the root and its stop marker. `Alike r` says that two trackers
know the same of a root. An event of another root changes nothing of it (`alike_update_of_ne`), and trackers that know
the same of a root go on to do so, whatever comes (`Alike.run`). So feeds with different roots do not disturb each
other, and feeds with one root do. The main statement is `spares_iff_roots_differ`.
-/

namespace Intake

/-- A key names a task of a feed: the feed itself, the creator of a round, or a partition of a round. -/
inductive Feed.HasTask (f : Feed) : String → Prop
  | feed : HasTask f f.label
  | creator (round : Nat) : HasTask f (f.label ++ "/" ++ toString round)
  | reader (round index : Nat) : HasTask f (f.label ++ "/" ++ toString round ++ "/" ++ toString index)

/-- The event is about a task of a feed. -/
def Event.IsOf (e : Event) (f : Feed) : Prop := e.feed = some f.label

/-- An event of a feed is about the root of its label. -/
theorem Event.IsOf.root? {e : Event} {f : Feed} (h : e.IsOf f) : e.root? = some (Tracker.root f.label) :=
  congrArg (Option.map Tracker.root) h

namespace Tracker

/-- The event is refused: the answer is no, and nothing changes. -/
def Refuses (t : Tracker) (e : Event) : Prop := t.update e = (t, false)

/-- Two trackers know the same of a root. -/
structure Alike (r : String) (t t' : Tracker) : Prop where
  active : ∀ key, root key = r → t.active.find? key = t'.active.find? key
  stopped : t.stopped.find? r = t'.stopped.find? r

section
variable {t t' t'' : Tracker} {e : Event} {r key : String}

theorem Alike.refl (r : String) (t : Tracker) : Alike r t t := ⟨fun _ _ => rfl, rfl⟩

theorem Alike.symm (h : Alike r t t') : Alike r t' t := ⟨fun key hkey => (h.active key hkey).symm, h.stopped.symm⟩

theorem Alike.trans (h : Alike r t t') (h' : Alike r t' t'') : Alike r t t'' :=
  ⟨fun key hkey => (h.active key hkey).trans (h'.active key hkey), h.stopped.trans h'.stopped⟩

/-! ### Events of other roots -/

/-- An event changes nothing that is known of another root. -/
theorem alike_update_of_ne (h : e.root? ≠ some r) : Alike r t (t.update e).1 := by
  have hrule := rule_of_update t e
  generalize (t.update e).1 = next at hrule
  cases hrule with
  | ignores => exact .refl r t
  | @marks r' _ hroot _ _ hactive hstopped =>
    have hne : r ≠ r' := fun heq => h (heq ▸ hroot)
    refine ⟨fun key hkey => (hactive key (hkey ▸ hne)).symm, ?_⟩
    rw [hstopped, if_neg hne]
  | @stops r' hshuts =>
    have hne : r ≠ r' := fun heq => h (heq ▸ hshuts.2)
    refine ⟨fun key hkey => ?_, ?_⟩
    · rw [Table.find?_filter t.active fun key => root key ≠ r']
      simp [hkey, hne]
    · rw [Table.find?_put, if_neg hne.symm]

/-! ### Events of the root itself -/

/-- Marking a task of the root keeps two trackers alike there. -/
theorem Alike.mark (h : Alike r t t') (hkey : root key = r) (seq : Nat) (starts : Bool) :
    Alike r (t.mark key seq starts).1 (t'.mark key seq starts).1 := by
  have hput : Alike r { t with active := t.active.put key seq } { t' with active := t'.active.put key seq } := by
    refine ⟨fun other hother => ?_, h.stopped⟩
    rw [Table.find?_put, Table.find?_put, h.active other hother]
  have herase : Alike r { t with active := t.active.erase key } { t' with active := t'.active.erase key } := by
    refine ⟨fun other hother => ?_, h.stopped⟩
    rw [Table.find?_erase, Table.find?_erase, h.active other hother]
  unfold Tracker.mark
  rw [← h.active key hkey]
  split
  · split
    · exact h
    · split
      · exact hput
      · exact herase
  · split
    · exact hput
    · exact h

/-- Noting a task of the root keeps two trackers alike there. -/
theorem Alike.note (h : Alike r t t') (hkey : root key = r) (e : Event) (starts : Bool) :
    Alike r (t.note key e starts).1 (t'.note key e starts).1 := by
  unfold Tracker.note
  rw [hkey, ← h.stopped]
  split
  · split
    · exact h
    · have hlifted : Alike r { t with stopped := t.stopped.erase r } { t' with stopped := t'.stopped.erase r } := by
        refine ⟨h.active, ?_⟩
        rw [Table.find?_erase, Table.find?_erase, h.stopped]
      exact hlifted.mark hkey e.seq starts
  · exact h.mark hkey e.seq starts

/-- Stopping the root keeps two trackers alike there. -/
theorem Alike.stop (h : Alike r t t') (seq : Nat) : Alike r (t.stop r seq).1 (t'.stop r seq).1 := by
  unfold Tracker.stop
  rw [← h.stopped]
  split
  · exact h
  · refine ⟨fun key hkey => ?_, ?_⟩
    · rw [Table.find?_filter t.active fun key => !isUnder r key,
        Table.find?_filter t'.active fun key => !isUnder r key, h.active key hkey]
    · rw [Table.find?_put, Table.find?_put]
      simp

/-- Trackers that know the same of a root still do so after an event. -/
theorem Alike.update (h : Alike r t t') (e : Event) : Alike r (t.update e).1 (t'.update e).1 := by
  by_cases hroot : e.root? = some r
  · obtain ⟨key, hkey, rfl⟩ := Option.map_eq_some_iff.mp ((Event.root?_eq e).symm.trans hroot)
    rw [Tracker.update, Tracker.update, hkey]
    cases e.kind.role with
    | start => exact h.note rfl e true
    | finish => exact h.note rfl e false
    | outcome => exact h.stop e.seq
    | none => exact h
  · exact (alike_update_of_ne hroot).symm.trans (h.trans (alike_update_of_ne hroot))

/-- Trackers that are alike at a root stay so, whatever both of them hear. -/
theorem Alike.run (h : Alike r t t') (events : List Event) : Alike r (t.run events) (t'.run events) := by
  induction events generalizing t t' with
  | nil => exact h
  | cons e rest ih => exact ih (h.update e)

/-! ### What is refused -/

/-- A start or an end of a key that changes nothing of its root is refused. -/
theorem mark_of_alike {seq : Nat} {starts : Bool} (h : Alike (root key) t (t.mark key seq starts).1) :
    t.mark key seq starts = (t, false) := by
  have hactive := h.active key rfl
  unfold mark at hactive ⊢
  split
  · rename_i last hlast
    simp only [hlast] at hactive
    split
    · rfl
    · rename_i hnew
      simp only [hnew, if_false] at hactive
      cases starts with
      | true =>
        rw [if_pos rfl, Table.find?_put, if_pos rfl] at hactive
        exact absurd (Option.some.inj hactive).ge hnew
      | false => simp [Table.find?_erase] at hactive
  · rename_i hnone
    simp only [hnone] at hactive
    cases starts with
    | true => simp [Table.find?_put] at hactive
    | false => rfl

/-- A note that changes nothing at its own root changes nothing at all. -/
theorem note_of_alike {starts : Bool} (h : Alike (root key) t (t.note key e starts).1) :
    t.note key e starts = (t, false) := by
  unfold note at h ⊢
  split
  · rename_i stop hstop
    simp only [hstop] at h
    split
    · rfl
    · rename_i hlifts
      -- the marker would be gone
      have hstopped := h.stopped
      rw [if_neg hlifts, (mark_frame _ key e.seq starts).1, Table.find?_erase, if_pos rfl, hstop] at hstopped
      cases hstopped
  · rename_i hnone
    simp only [hnone] at h
    exact mark_of_alike h

/-- A stop that changes nothing at its root changes nothing at all. -/
theorem stop_of_alike {seq : Nat} (h : Alike r t (t.stop r seq).1) : t.stop r seq = (t, false) := by
  unfold stop at h ⊢
  split
  · rfl
  · rename_i hnew
    have hstopped := h.stopped
    rw [if_neg hnew, Table.find?_put, if_pos rfl] at hstopped
    rw [hstopped] at hnew
    simp at hnew

/-- An event is refused just if nothing changes that is known of its root. -/
theorem refuses_iff (hroot : e.root? = some r) : t.Refuses e ↔ Alike r t (t.update e).1 := by
  constructor
  · intro hrefused
    rw [Refuses] at hrefused
    rw [hrefused]
    exact .refl r t
  · obtain ⟨key, hkey, rfl⟩ := Option.map_eq_some_iff.mp ((Event.root?_eq e).symm.trans hroot)
    rw [Refuses, Tracker.update, hkey]
    cases e.kind.role with
    | start | finish => exact note_of_alike
    | outcome => exact stop_of_alike
    | none => exact fun _ => rfl

/-- Trackers that know the same of a root refuse the same events of it. -/
theorem Alike.refuses_iff (h : Alike r t t') (hroot : e.root? = some r) : t.Refuses e ↔ t'.Refuses e := by
  rw [Tracker.refuses_iff hroot, Tracker.refuses_iff hroot]
  constructor
  · intro hsame
    exact h.symm.trans (hsame.trans (h.update e))
  · intro hsame
    exact h.trans (hsame.trans (h.update e).symm)

end

end Tracker

/-- Events of a feed leave the tasks of another one alone: whatever the tracker has heard before, such an event does not
change which tasks of the other feed are active, and an event of the other feed that comes later is refused just if it
would have been refused without it. -/
def Feed.Spares (f g : Feed) : Prop :=
  ∀ (before : List Event) (e : Event), e.IsOf f →
    let t := ({} : Tracker).run before
    (∀ key, g.HasTask key → (t.update e).1.isActive key = t.isActive key) ∧
    ∀ (later : List Event) (x : Event), x.IsOf g →
      (((t.update e).1.run later).Refuses x ↔ (t.run later).Refuses x)

namespace Tracker

section
variable {f g : Feed}

/-- The tasks of a feed have the root of its label. -/
theorem root_of_hasTask {key : String} (h : g.HasTask key) : root key = root g.label := by
  cases h with
  | feed => rfl
  | creator => exact root_append _ _
  | reader => rw [root_append, root_append]

/-- Feeds with different roots leave each other alone. -/
theorem spares_of_roots_differ (h : root f.label ≠ root g.label) : f.Spares g := by
  intro before e he t
  have hother : e.root? ≠ some (root g.label) := by
    rw [he.root?]
    simpa using h
  have halike : Alike (root g.label) t (t.update e).1 := alike_update_of_ne hother
  refine ⟨fun key hkey => ?_, fun later x hx => ?_⟩
  · rw [isActive, isActive, halike.active key (root_of_hasTask hkey)]
  · exact (halike.run later).symm.refuses_iff hx.root?

/-- A feed that is running is taken to be over when a feed of the same root is. -/
theorem roots_differ_of_spares (h : f.Spares g) : root f.label ≠ root g.label := by
  intro hroots
  let start : Event := { kind := .feedStarting, feed := some g.label }
  let outcome : Event := { kind := .feedCompleted, feed := some f.label, seq := 1 }
  have hrunning : (({} : Tracker).run [start]).active.find? g.label = some 0 := by
    simp [run, update, start, Event.taskKey, EventKind.role, note, mark, Table.put, Table.find?]
  have hfree : ∀ marker, (({} : Tracker).run [start]).stopped.find? (root f.label) = some marker → marker < 1 := by
    simp [run, update, start, Event.taskKey, EventKind.role, note, mark]
  have hkey : outcome.taskKey = some f.label := rfl
  obtain ⟨hgone, -⟩ := update_of_outcome hkey List.mem_cons_self hfree
  have hsame := (h [start] outcome rfl).1 g.label .feed
  rw [isActive, isActive, hgone, if_pos hroots.symm, hrunning] at hsame
  cases hsame

end

end Tracker

/-! ### Names that cannot be mistaken -/

/-- Where something stands for the last time is told by what comes after it. -/
theorem append_cons_inj_of_not_mem {α : Type} {x : α} {a b c d : List α} (hb : x ∉ b) (hd : x ∉ d)
    (h : a ++ x :: b = c ++ x :: d) : a = c ∧ b = d := by
  rcases List.append_eq_append_iff.mp h with ⟨m, rfl, hm⟩ | ⟨m, rfl, hm⟩
  · cases m with
    | nil => simpa using hm
    | cons y m =>
      have hmem : x ∈ b := by
        rw [(List.cons.inj hm).2]
        simp
      exact absurd hmem hb
  · cases m with
    | nil => simpa [eq_comm] using hm
    | cons y m =>
      have hmem : x ∈ d := by
        rw [(List.cons.inj hm).2]
        simp
      exact absurd hmem hd

namespace StreamId

/-- The name of a stream has no underscore, and its label is free of slashes and is not that of a global feed. -/
structure Plain (id : StreamId) : Prop where
  name : '_' ∉ id.name.toList
  label : '/' ∉ id.label.toList
  apart : id.label ≠ "global"

/-- A label with a namespace, character by character. -/
theorem toList_label (name space : String) :
    (label { name, space := some space }).toList = space.toList ++ '_' :: name.toList := by
  simp [label]

theorem underscore_mem_label (name space : String) : '_' ∈ (label { name, space := some space }).toList := by
  simp [label]

/-- Names without underscores can be told from their labels, whatever the name spaces are. -/
theorem eq_of_label_eq {a b : StreamId} (ha : '_' ∉ a.name.toList) (hb : '_' ∉ b.name.toList)
    (h : a.label = b.label) : a = b := by
  rcases a with ⟨name, _ | space⟩
  · rcases b with ⟨name', _ | space'⟩
    · rw [show name = name' from h]
    · rw [show name = _ from h] at ha
      exact absurd (underscore_mem_label name' space') ha
  · rcases b with ⟨name', _ | space'⟩
    · rw [show name' = _ from h.symm] at hb
      exact absurd (underscore_mem_label name space) hb
    · have hlist := congrArg String.toList h
      rw [toList_label, toList_label] at hlist
      obtain ⟨hspace, hname⟩ := append_cons_inj_of_not_mem ha hb hlist
      rw [String.toList_inj.mp hspace, show name = name' from String.toList_inj.mp hname]

end StreamId

/-- The streams of a feed that stands alone have plain names. -/
def Feed.Plain : Feed → Prop
  | .stream s => s.id.Plain
  | .global _ => True

namespace Tracker

section
variable {f g : Feed}

/-- The label of a plain feed is a root itself. -/
theorem root_of_plain (h : f.Plain) : root f.label = f.label := by
  refine (root_eq_iff _ _).mpr ⟨?_, .inl rfl⟩
  cases f with
  | stream s => exact h.label
  | global => exact (by decide : '/' ∉ "global".toList)

/-- A read has one global feed at most. -/
theorem key_eq_of_isGlobal {l : Ledger} {g g' : Global} (h : .global g ∈ l.feeds) (h' : .global g' ∈ l.feeds) :
    (Feed.global g).key = (Feed.global g').key := by
  simp only [Ledger.feeds, List.mem_append, Option.mem_toList, List.mem_map, reduceCtorEq, and_false, exists_false,
    or_false] at h h'
  exact congrArg Feed.key (Option.some.inj (h.symm.trans h'))

/-- Two plain feeds of a ledger have roots of their own. -/
theorem roots_differ_of_plain {l : Ledger} (hf : f ∈ l.feeds) (hg : g ∈ l.feeds) (hne : f.key ≠ g.key)
    (hpf : f.Plain) (hpg : g.Plain) : root f.label ≠ root g.label := by
  rw [root_of_plain hpf, root_of_plain hpg]
  intro hlabel
  cases f with
  | stream s =>
    cases g with
    | stream s' => exact hne (congrArg FeedKey.stream (StreamId.eq_of_label_eq hpf.name hpg.name hlabel))
    | global => exact hpf.apart hlabel
  | global =>
    cases g with
    | stream => exact hpg.apart hlabel.symm
    | global => exact hne (key_eq_of_isGlobal hf hg)

end

/-- A feed leaves another feed of the read alone just if their labels differ before the first slash. So feeds whose
streams have plain names leave each other alone, but a feed whose label begins with the label of another one and a slash
is disturbed by it, and so is one that happens to have the same label. -/
theorem spares_iff_roots_differ (l : Ledger) (f g : Feed) (hf : f ∈ l.feeds) (hg : g ∈ l.feeds)
    (hne : f.key ≠ g.key) :
    (f.Spares g ↔ root f.label ≠ root g.label) ∧ (f.Plain → g.Plain → f.Spares g) :=
  ⟨⟨roots_differ_of_spares, spares_of_roots_differ⟩,
    fun hpf hpg => spares_of_roots_differ (roots_differ_of_plain hf hg hne hpf hpg)⟩

/-- The name of a stream goes on where that of another one ends, with a slash, but their name spaces differ. -/
theorem spares_iff_roots_differ_late_slash :
    let f : Feed := .stream { id := { name := "users", space := some "a" } }
    let g : Feed := .stream { id := { name := "users/1", space := some "b" } }
    let l := Ledger.make none [({ id := { name := "users", space := some "a" } }, none),
      ({ id := { name := "users/1", space := some "b" } }, none)]
    f ∈ l.feeds ∧ g ∈ l.feeds ∧ f.key ≠ g.key ∧ f.Spares g ∧ g.Spares f := by
  intro f g l
  have hf : f ∈ l.feeds := List.mem_cons_self
  have hg : g ∈ l.feeds := List.mem_cons_of_mem _ List.mem_cons_self
  have hne : f.key ≠ g.key := by decide
  refine ⟨hf, hg, hne, (spares_iff_roots_differ l f g hf hg hne).1.mpr ?_,
    (spares_iff_roots_differ l g f hg hf hne.symm).1.mpr ?_⟩
  · decide
  · decide

/-- The feeds of two streams are running, and the label of one goes on where that of the other ends, with a slash. When
the other one is over it is taken to be over as well, and what comes of it later is refused. Two more streams have one
label, and so have a stream and the global feed. -/
theorem running_feed_stopped_by_neighbour :
    let a : Stream := { id := { name := "a" } }
    let b : Stream := { id := { name := "a/b" } }
    let l := Ledger.make none [(a, none), (b, none)]
    let t := ({} : Tracker).run
      [{ kind := .feedStarting, feed := some "a", seq := 1 }, { kind := .feedStarting, feed := some "a/b", seq := 2 }]
    let e : Event := { kind := .feedCompleted, feed := some "a", round := some 1, seq := 3 }
    let x : Event := { kind := .creatorStarting, feed := some "a/b", round := some 1, seq := 4 }
    l.feeds = [.stream a, .stream b] ∧ (Feed.stream a).key ≠ (Feed.stream b).key ∧
      e.IsOf (.stream a) ∧ x.IsOf (.stream b) ∧ (Feed.stream b).HasTask "a/b" ∧ t.isActive "a/b" = true ∧
      (t.update e).1.isActive "a/b" = false ∧ (t.update x).2 = true ∧ (t.update e).1.Refuses x ∧
      StreamId.label { name := "b", space := some "a" } = StreamId.label { name := "a_b" } ∧
      (Feed.stream { id := { name := "global" } }).label = (Feed.global ⟨[a]⟩).label := by
  intro a b l t e x
  refine ⟨rfl, by decide, rfl, rfl, .feed, ?_, ?_, ?_, ?_, by decide, rfl⟩
  · cbv
  · cbv
  · cbv
  · rw [Refuses]
    cbv

end Tracker

end Intake
