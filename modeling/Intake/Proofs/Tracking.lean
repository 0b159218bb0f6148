import Intake.Tracker
import Mathlib.Data.List.Basic
import Mathlib.Data.List.TakeWhile
/-!
# What the tracker takes to be running

The tracker knows tasks by their keys and feeds by the roots of the keys. Labels of feeds are free, so that two
feeds may have one root, and a key may have more slashes than the event put in. What holds is said per root: the keys
that a stop finds under a root by their text are those that have it (`stop_root`).

`Rule` gives the updates rule by rule. `Rule.sound` is the invariant: of a root with a stop marker no key is
active. `Shut root events` says that the feeds of a root are over in a history: there was an outcome and no start
of a feed after it, whatever else came. `active_run_eq_nil` is the main statement: when each root of which something
was running or has been heard has been shut, nothing is left to run. It does not depend on the sequence numbers of
the events.
-/

namespace Intake

/-- What is left of a table when entries are taken out by their keys. -/
theorem Table.find?_filter {κ ν : Type} [DecidableEq κ] (t : Table κ ν) (p : κ → Bool) (key : κ) :
    find? (t.filter fun e => p e.1) key = if p key then t.find? key else none := by
  induction t with
  | nil => simp
  | cons e rest ih =>
    obtain ⟨k, v⟩ := e
    by_cases hk : k = key
    · subst hk
      cases hp : p k <;> simp [find?, hp, ih]
    · cases hp : p k <;> simp [find?, hp, ih, hk]

namespace Event

/-- The root of the task that an event is about. -/
def root? (e : Event) : Option String := e.feed.map Tracker.root

/-- The event tells that a feed of a root begins. -/
def Opens (e : Event) (root : String) : Prop := e.kind = .feedStarting ∧ e.root? = some root

/-- The event tells that a feed of a root is over. -/
def Shuts (e : Event) (root : String) : Prop := e.kind.role = .outcome ∧ e.root? = some root

/-- The event is about a task of one of some roots, or about none. -/
def Within (known : String → Prop) (e : Event) : Prop := ∀ r, e.root? = some r → known r

/-- What an event tells, and of which feed, whatever number it has. -/
def headline (e : Event) : EventKind × Option String := (e.kind, e.feed)

section
variable {e e' : Event} (h : e'.headline = e.headline) (r : String)
include h

theorem root?_of_headline : e'.root? = e.root? := congrArg (fun p => p.2.map Tracker.root) h

theorem opens_of_headline : e'.Opens r ↔ e.Opens r := by
  have hkind : e'.kind = e.kind := congrArg Prod.fst h
  rw [Opens, Opens, root?_of_headline h, hkind]

theorem shuts_of_headline : e'.Shuts r ↔ e.Shuts r := by
  have hkind : e'.kind = e.kind := congrArg Prod.fst h
  rw [Shuts, Shuts, root?_of_headline h, hkind]

end

/-- Of two histories with the same headlines, an event of one has its like in the other. -/
theorem exists_mem_of_headlines {events others : List Event} {e : Event}
    (heq : others.map headline = events.map headline) (he : e ∈ others) :
    ∃ x ∈ events, e.headline = x.headline := by
  have hmem : e.headline ∈ events.map headline := heq ▸ List.mem_map_of_mem he
  obtain ⟨x, hx, hsame⟩ := List.mem_map.mp hmem
  exact ⟨x, hx, hsame.symm⟩

end Event

namespace Tracker

/-- What comes after a slash does not count for the root. -/
theorem root_append (feed rest : String) : root (feed ++ "/" ++ rest) = root feed := by
  simp only [root, String.toList_append]
  congr 1
  rw [List.append_assoc, List.takeWhile_append]
  split
  · rename_i hall
    rw [(List.takeWhile_prefix _).eq_of_length hall]
    exact List.append_nil _
  · rfl

/-- The root of a key is free of slashes, and the key is the root or goes on after it with a slash. -/
theorem root_eq_iff (key r : String) :
    root key = r ↔ '/' ∉ r.toList ∧ (key = r ∨ ∃ rest, key = r ++ "/" ++ rest) := by
  have hfree : '/' ∉ (root key).toList := by
    rw [root, String.toList_ofList]
    intro hmem
    simpa using List.mem_takeWhile_imp hmem
  constructor
  · rintro rfl
    refine ⟨hfree, ?_⟩
    have hsplit := List.takeWhile_append_dropWhile (p := (· != '/')) (l := key.toList)
    cases hrest : key.toList.dropWhile (· != '/') with
    | nil =>
      rw [hrest, List.append_nil] at hsplit
      exact .inl (by rw [root, hsplit, String.ofList_toList])
    | cons c rest =>
      have hc := List.head?_dropWhile_not (· != '/') key.toList
      rw [hrest] at hc
      have hslash : c = '/' := by simpa using hc
      refine .inr ⟨String.ofList rest, ?_⟩
      apply String.toList_inj.mp
      rw [← hsplit, hrest, hslash]
      simp [root]
  · rintro ⟨hslash, hkey⟩
    have hself : root r = r := by
      rw [root, List.takeWhile_eq_self_iff.mpr, String.ofList_toList]
      intro c hc
      rw [bne_iff_ne]
      rintro rfl
      exact hslash hc
    rcases hkey with rfl | ⟨rest, rfl⟩
    · exact hself
    · rw [root_append, hself]

/-- The keys under a feed are its own and those that go on after a slash. -/
theorem isUnder_iff (feed key : String) :
    isUnder feed key = true ↔ key = feed ∨ ∃ rest, key = feed ++ "/" ++ rest := by
  rw [isUnder, Bool.or_eq_true, decide_eq_true_eq, List.isPrefixOf_iff_prefix]
  refine or_congr_right ⟨?_, ?_⟩
  · rintro ⟨rest, hrest⟩
    refine ⟨String.ofList rest, String.toList_inj.mp ?_⟩
    rw [← hrest]
    simp
  · rintro ⟨rest, rfl⟩
    exact ⟨rest.toList, String.toList_append.symm⟩

/-- The keys under a root are those that have it. -/
theorem isUnder_root (key other : String) : isUnder (root key) other = decide (root other = root key) := by
  have hfree : '/' ∉ (root key).toList := ((root_eq_iff key (root key)).mp rfl).1
  rw [Bool.eq_iff_iff, isUnder_iff, decide_eq_true_eq, root_eq_iff, and_iff_right hfree]

/-- To stop the root of a key takes out the keys that have this root. -/
theorem stop_root (t : Tracker) (key : String) (seq : Nat) :
    t.stop (root key) seq =
      if (t.stopped.find? (root key)).any (seq ≤ ·) then (t, false)
      else
        ({ active := t.active.filter fun entry => root entry.1 ≠ root key
           stopped := t.stopped.put (root key) seq },
          (t.active.filter fun entry => root entry.1 ≠ root key).length != t.active.length) := by
  simp only [stop, isUnder_root, decide_not]

/-- The key of a task belongs to the root of the feed that the event names. -/
theorem root?_of_taskKey {e : Event} {key : String} (h : e.taskKey = some key) :
    e.root? = some (root key) := by
  unfold Event.taskKey at h
  unfold Event.root?
  split at h
  · cases h
  · rename_i hfeed hround hpartition
    cases h
    rw [hfeed, root_append, root_append]
    rfl
  · rename_i hfeed hround hpartition
    cases h
    rw [hfeed, root_append]
    rfl
  · rename_i hfeed hround
    cases h
    rw [hfeed]
    rfl

/-- An event without a task is about no root. -/
theorem root?_of_taskKey_eq_none {e : Event} (h : e.taskKey = none) : e.root? = none := by
  unfold Event.taskKey at h
  split at h
  · rename_i hfeed
    rw [Event.root?, hfeed]
    rfl
  all_goals cases h

/-! ### Updates -/

/-- No key of a root is active. -/
def Clear (r : String) (t : Tracker) : Prop := ∀ key, root key = r → t.active.find? key = none

/-- A root has a stop marker. -/
def Halted (r : String) (t : Tracker) : Prop := (t.stopped.find? r).isSome = true

/-- No key is active but of some roots. -/
def Within (known : String → Prop) (t : Tracker) : Prop := ∀ r, ¬ known r → t.Clear r

/-- Of a root with a stop marker no key is active. -/
def Sound (t : Tracker) : Prop := ∀ r, t.Halted r → t.Clear r

/-- The rules by which the tracker takes an event. -/
inductive Rule (t : Tracker) (e : Event) : Tracker → Prop
  /-- Nothing changes. An outcome is ignored only for a root that has a stop marker. -/
  | ignores : (∀ r, e.Shuts r → t.Halted r) → Rule t e t
  /-- Something of a root begins or ends. The root has no stop marker, or loses it with the start of a feed. -/
  | marks {r : String} {t' : Tracker} : e.root? = some r → e.kind.role ≠ .outcome →
      (t.stopped.find? r = none ∨ e.Opens r) →
      (∀ key, root key ≠ r → t'.active.find? key = t.active.find? key) →
      (∀ other, t'.stopped.find? other = if other = r then none else t.stopped.find? other) → Rule t e t'
  /-- The feeds of a root are over. -/
  | stops {r : String} : e.Shuts r →
      Rule t e
        { active := t.active.filter fun entry => root entry.1 ≠ r
          stopped := t.stopped.put r e.seq }

/-- A start or an end is noted of the key itself and of no other. -/
theorem mark_frame (t : Tracker) (key : String) (seq : Nat) (starts : Bool) :
    (t.mark key seq starts).1.stopped = t.stopped ∧
      ∀ other, key ≠ other → (t.mark key seq starts).1.active.find? other = t.active.find? other := by
  have hput : ∀ other, key ≠ other → (t.active.put key seq).find? other = t.active.find? other :=
    fun other hne => by rw [Table.find?_put, if_neg hne]
  have herase : ∀ other, key ≠ other → (t.active.erase key).find? other = t.active.find? other :=
    fun other hne => by rw [Table.find?_erase, if_neg hne]
  unfold mark
  split
  · split
    · exact ⟨rfl, fun _ _ => rfl⟩
    · split
      · exact ⟨rfl, hput⟩
      · exact ⟨rfl, herase⟩
  · split
    · exact ⟨rfl, hput⟩
    · exact ⟨rfl, fun _ _ => rfl⟩

section
variable {t t' : Tracker} {e : Event} {r : String}

/-- An event that is not an outcome is noted by one of the rules. -/
theorem rule_of_note {key : String} (hkey : e.taskKey = some key) (hrole : e.kind.role ≠ .outcome)
    (starts : Bool) : Rule t e (t.note key e starts).1 := by
  have hroot := root?_of_taskKey hkey
  unfold note
  split
  · rename_i stop hstop
    split
    · exact .ignores fun r hshuts => absurd hshuts.1 hrole
    · rename_i hnew
      have hopens : e.Opens (root key) := ⟨by_contra fun hne => hnew (.inr hne), hroot⟩
      obtain ⟨hstopped, hactive⟩ :=
        mark_frame { t with stopped := t.stopped.erase (root key) } key e.seq starts
      refine .marks hroot hrole (.inr hopens) (fun other hne => hactive other ?_) fun other => ?_
      · rintro rfl
        exact hne rfl
      · rw [hstopped, Table.find?_erase]
        simp only [eq_comm]
  · rename_i hnone
    obtain ⟨hstopped, hactive⟩ := mark_frame t key e.seq starts
    refine .marks hroot hrole (.inl hnone) (fun other hne => hactive other ?_) fun other => ?_
    · rintro rfl
      exact hne rfl
    · rw [hstopped]
      split
      · rename_i heq
        rw [heq, hnone]
      · rfl

/-- Whatever an event does to the tracker is by one of the rules. -/
theorem rule_of_update (t : Tracker) (e : Event) : Rule t e (t.update e).1 := by
  unfold update
  split
  · rename_i hkey
    refine .ignores fun r hshuts => ?_
    rw [Event.Shuts, root?_of_taskKey_eq_none hkey] at hshuts
    cases hshuts.2
  · rename_i key hkey
    split
    · rename_i hrole
      exact rule_of_note hkey (by simp [hrole]) true
    · rename_i hrole
      exact rule_of_note hkey (by simp [hrole]) false
    · rename_i hrole
      have hshuts : e.Shuts (root key) := ⟨hrole, root?_of_taskKey hkey⟩
      rw [stop_root]
      split
      · rename_i hmarker
        refine .ignores fun r hr => ?_
        have heq := hr.2.symm.trans hshuts.2
        cases heq
        exact Option.isSome_of_any hmarker
      · exact .stops hshuts
    · rename_i hrole
      exact .ignores fun r hshuts => absurd hshuts.1 (by simp [hrole])

/-- A root without an active key stays so while the events are about others. -/
theorem Rule.clear (h : Rule t e t') (hclear : t.Clear r) (hother : e.root? ≠ some r) : t'.Clear r := by
  intro key hkey
  cases h with
  | ignores => exact hclear key hkey
  | @marks r' _ hroot _ _ hactive _ =>
    rw [hactive key ?_]
    · exact hclear key hkey
    · intro hr
      rw [hkey.symm.trans hr] at hother
      exact hother hroot
  | @stops r' hshuts =>
    rw [Table.find?_filter t.active (fun key => root key ≠ r'), hclear key hkey]
    simp

/-- A key becomes active only of a root that the event is about. -/
theorem Rule.within {known : String → Prop} (h : Rule t e t') (ht : t.Within known) (he : e.Within known) :
    t'.Within known :=
  fun r hr => h.clear (ht r hr) fun heq => hr (he r heq)

/-- The invariant: stop markers mean that nothing is running. -/
theorem Rule.sound (h : Rule t e t') (ht : t.Sound) : t'.Sound := by
  intro r hr key hkey
  cases h with
  | ignores => exact ht r hr key hkey
  | @marks r' _ hroot _ _ hactive hstopped =>
    rw [Halted, hstopped] at hr
    split at hr
    · cases hr
    · rename_i hne
      rw [hactive key (hkey ▸ hne)]
      exact ht r hr key hkey
  | @stops r' hshuts =>
    rw [Table.find?_filter t.active (fun key => root key ≠ r')]
    by_cases hr' : root key = r'
    · simp [hr']
    · rw [Halted, Table.find?_put, if_neg fun h => hr' (hkey.trans h.symm)] at hr
      rw [ht r hr key hkey]
      simp

/-- An outcome leaves a stop marker. -/
theorem Rule.halts (h : Rule t e t') (hshuts : e.Shuts r) : t'.Halted r := by
  cases h with
  | ignores hmarker => exact hmarker r hshuts
  | marks _ hrole => exact absurd hshuts.1 hrole
  | stops hshuts' =>
    have heq := hshuts'.2.symm.trans hshuts.2
    cases heq
    rw [Halted, Table.find?_put, if_pos rfl]
    rfl

/-- Nothing but the start of a feed lifts a stop marker: what comes late from a task that was left behind
changes nothing. -/
theorem Rule.stays_halted (h : Rule t e t') (hr : t.Halted r) (hopens : ¬ e.Opens r) : t'.Halted r := by
  cases h with
  | ignores => exact hr
  | @marks r' _ _ _ hfree _ hstopped =>
    rw [Halted, hstopped]
    split
    · rename_i heq
      subst heq
      rcases hfree with hnone | hopens'
      · rw [Halted, hnone] at hr
        cases hr
      · exact absurd hopens' hopens
    · exact hr
  | @stops r' _ =>
    rw [Halted, Table.find?_put]
    split
    · rfl
    · exact hr

end

/-! ### Histories -/

/-- The feeds of a root are over: an outcome came, and no start of a feed after it. -/
def Shut (r : String) (events : List Event) : Prop :=
  ∃ before e after, events = before ++ e :: after ∧ e.Shuts r ∧ ∀ late ∈ after, ¬ late.Opens r

/-- No event is about a task of a root. -/
def Unheard (r : String) (events : List Event) : Prop := ∀ e ∈ events, e.root? ≠ some r

section
variable {t : Tracker} {e : Event} {r : String} {events : List Event}

/-- A root is shut right after its outcome. -/
theorem shut_snoc (events : List Event) (h : e.Shuts r) : Shut r (events ++ [e]) :=
  ⟨events, e, [], rfl, h, List.forall_mem_nil _⟩

/-- A root that is shut stays so until it opens. -/
theorem Shut.append (h : Shut r events) {more : List Event} (hmore : ∀ e ∈ more, ¬ e.Opens r) :
    Shut r (events ++ more) := by
  obtain ⟨before, outcome, after, rfl, hshuts, hafter⟩ := h
  refine ⟨before, outcome, after ++ more, by simp, hshuts, ?_⟩
  intro late hlate
  rcases List.mem_append.mp hlate with hmem | hmem
  · exact hafter late hmem
  · exact hmore late hmem

/-- A root stays unheard of while the events are about others. -/
theorem Unheard.append (h : Unheard r events) {more : List Event} (hmore : ∀ e ∈ more, e.root? ≠ some r) :
    Unheard r (events ++ more) := by
  intro x hx
  rcases List.mem_append.mp hx with hmem | hmem
  · exact h x hmem
  · exact hmore x hmem

/-- Whether a root is shut does not depend on the numbers of the events. -/
theorem Shut.congr {others : List Event} (heq : others.map Event.headline = events.map Event.headline)
    (h : Shut r events) : Shut r others := by
  obtain ⟨before, e, after, rfl, hshuts, hafter⟩ := h
  rw [List.map_append, List.map_cons] at heq
  obtain ⟨before', rest, rfl, -, hrest⟩ := List.map_eq_append_iff.mp heq
  obtain ⟨e', after', rfl, he, hlater⟩ := List.map_eq_cons_iff.mp hrest
  refine ⟨before', e', after', rfl, (Event.shuts_of_headline he r).mpr hshuts, ?_⟩
  intro late hlate
  obtain ⟨x, hx, hsame⟩ := Event.exists_mem_of_headlines hlater hlate
  rw [Event.opens_of_headline hsame]
  exact hafter x hx

/-- Whether a root was heard of is read off the headlines. -/
theorem Unheard.congr {others : List Event} (heq : others.map Event.headline = events.map Event.headline)
    (h : Unheard r events) : Unheard r others := by
  intro e he
  obtain ⟨x, hx, hsame⟩ := Event.exists_mem_of_headlines heq he
  rw [Event.root?_of_headline hsame]
  exact h x hx

theorem run_cons (t : Tracker) (e : Event) (rest : List Event) :
    t.run (e :: rest) = (t.update e).1.run rest := rfl

theorem run_append (t : Tracker) (before after : List Event) :
    t.run (before ++ after) = (t.run before).run after := List.foldl_append

/-- A tracker that is sound stays so in a run. -/
theorem sound_run (ht : t.Sound) (events : List Event) : (t.run events).Sound := by
  induction events generalizing t with
  | nil => exact ht
  | cons e rest ih => exact ih ((rule_of_update t e).sound ht)

/-- A root without an active key stays so in a run that is not about it. -/
theorem clear_run_of_unheard (hclear : t.Clear r) (h : Unheard r events) : (t.run events).Clear r := by
  induction events generalizing t with
  | nil => exact hclear
  | cons e rest ih =>
    have hfirst := (rule_of_update t e).clear hclear (h e List.mem_cons_self)
    exact ih hfirst fun x hx => h x (List.mem_cons_of_mem _ hx)

/-- A root keeps its stop marker unless it opens in the run. -/
theorem halted_run (hr : t.Halted r) (h : ∀ e ∈ events, ¬ e.Opens r) : (t.run events).Halted r := by
  induction events generalizing t with
  | nil => exact hr
  | cons e rest ih =>
    have hfirst := (rule_of_update t e).stays_halted hr (h e List.mem_cons_self)
    exact ih hfirst fun x hx => h x (List.mem_cons_of_mem _ hx)

/-- Of a root whose feeds are over nothing is running, whatever was running before. -/
theorem clear_run_of_shut (ht : t.Sound) (h : Shut r events) : (t.run events).Clear r := by
  obtain ⟨before, e, after, rfl, hshuts, hafter⟩ := h
  have hhalted : ((t.run before).update e).1.Halted r := (rule_of_update _ e).halts hshuts
  refine sound_run ht _ r ?_
  rw [run_append, run_cons]
  exact halted_run hhalted hafter

/-- In a run keys become active only of the roots that the events are about. -/
theorem within_run {known : String → Prop} (ht : t.Within known) (h : ∀ e ∈ events, e.Within known) :
    (t.run events).Within known := by
  induction events generalizing t with
  | nil => exact ht
  | cons e rest ih =>
    have hfirst := (rule_of_update t e).within ht (h e List.mem_cons_self)
    exact ih hfirst fun x hx => h x (List.mem_cons_of_mem _ hx)

/-- When the feeds of each root that was known or heard of are over, nothing is running. -/
theorem active_run_eq_nil {known : String → Prop} (ht : t.Sound) (hwithin : t.Within known)
    (h : ∀ r, Shut r events ∨ (Unheard r events ∧ ¬ known r)) : (t.run events).active = [] := by
  have hclear : ∀ key, (t.run events).active.find? key = none := by
    intro key
    rcases h (root key) with hshut | ⟨hunheard, hstrange⟩
    · exact clear_run_of_shut ht hshut key rfl
    · exact clear_run_of_unheard (hwithin (root key) hstrange) hunheard key rfl
  apply List.eq_nil_iff_forall_not_mem.mpr
  rintro ⟨key, seq⟩ hmem
  have hkey := (Table.mem_keys_iff _ key).mp (List.mem_map_of_mem hmem)
  rw [hclear key] at hkey
  cases hkey

end

end Tracker

end Intake
