import Intake.Proofs.Blame
import Intake.Proofs.Enrolment
import Mathlib.Data.List.Basic
/-!
# The books of the supervisor

The supervisor waits for the stream feeds and then for the global feed, each in order, and notes the fault of
each. `System.awaited` is who is still to come. What has been noted is what the tasks ended with, no more and
no less: `Joined` says so with the feeds that were waited for, `Joined.step` that every step keeps it, and
`Joined.of_awaited_eq_nil` what it comes to when nobody is to come.
-/

namespace Intake

/-- A ledger as earlier reads may have left it: it was made, and then anything may have been done to its
slots. -/
def Ledger.used (global : Option (Global × Option Value)) (streams : List (Stream × Option Value))
    (ops : List Ledger.Op) : Ledger :=
  ops.foldl Ledger.apply (.make global streams)

/-- A ledger may be used in two parts. -/
theorem Ledger.used_append (global : Option (Global × Option Value))
    (streams : List (Stream × Option Value)) (ops later : List Ledger.Op) :
    Ledger.used global streams (ops ++ later) = later.foldl Ledger.apply (.used global streams ops) :=
  List.foldl_append

/-- Whatever is done to a ledger, its feeds are those it was made with. -/
theorem Ledger.feeds_used (global : Option (Global × Option Value))
    (streams : List (Stream × Option Value)) (ops : List Ledger.Op) :
    (Ledger.used global streams ops).feeds = (Ledger.make global streams).feeds := by
  refine List.foldlRecOn (motive := fun l => l.feeds = (Ledger.make global streams).feeds) ops
    Ledger.apply rfl fun l hl op _ => ?_
  rw [← hl, Ledger.feeds, Ledger.feeds, Ledger.global_apply, Ledger.streams_apply]

/-- No two feeds of a ledger have one key, whatever was done to its slots. -/
theorem Ledger.nodup_keys_used (global : Option (Global × Option Value))
    (streams : List (Stream × Option Value)) (ops : List Ledger.Op) :
    ((Ledger.used global streams ops).feeds.map Feed.key).Nodup := by
  rw [Ledger.feeds_used]
  exact Ledger.nodup_keys_feeds (Ledger.enrolled_make global streams)

namespace Read

namespace FeedTask

/-- How a task ended, if it is over. A crash is a fault of the feed. -/
def outcome? (t : FeedTask) : Option (Except Fault Unit) :=
  match t.phase with
  | .done r => some r
  | .crashed message => some (.error (.crashed t.label message))
  | _ => none

/-- The fault that a task ended with. -/
def fault? (t : FeedTask) : Option Fault :=
  match t.outcome? with
  | some (.error e) => some e
  | _ => none

/-- A task that is over has ended in some way. -/
theorem isSome_outcome? (t : FeedTask) : t.outcome?.isSome = t.finished := by
  unfold outcome? finished
  cases t.phase <;> rfl

/-- The fault of a task is how it ended. -/
theorem outcome?_of_fault? {t : FeedTask} {e : Fault} (h : t.fault? = some e) :
    t.outcome? = some (.error e) := by
  unfold fault? at h
  split at h
  · cases h
    assumption
  · cases h

/-- What a task ended with is said by its phase and its label. -/
theorem outcome?_congr {t t' : FeedTask} (hp : t'.phase = t.phase) (hf : t'.feed = t.feed) :
    t'.outcome? = t.outcome? := by
  unfold outcome? label
  rw [hp, hf]

/-- The fault of a task depends on its phase and its feed only. -/
theorem fault?_congr {t t' : FeedTask} (hp : t'.phase = t.phase) (hf : t'.feed = t.feed) :
    t'.fault? = t.fault? := by
  unfold fault?
  rw [outcome?_congr hp hf]

end FeedTask

namespace System

/-- The fault of the feed of an index, if it ended with one. -/
def faultAt (s : System) (i : Nat) : Option Fault := (s.feeds[i]?).bind (·.fault?)

/-- The fault of an index is that of its task. -/
theorem faultAt_of {s : System} {i : Nat} {t : FeedTask} (ht : s.feeds[i]? = some t) :
    s.faultAt i = t.fault? := by
  rw [faultAt, ht]
  rfl

/-- All feeds, in the order in which the supervisor waits for them. -/
def roster (s : System) : List Nat := s.indices .streams ++ s.indices .globals

/-- Who comes after the feeds of a stage, the global feeds being those of a list. -/
def Stage.later (globals : List Nat) : Stage → List Nat
  | .streams => globals
  | .globals => []

/-- Who is still to come from where the supervisor stands. -/
def Watch.ahead (streams globals : List Nat) : Watch → List Nat
  | .opening => streams ++ globals
  | .joining stage left => left ++ Stage.later globals stage
  | .burying stage left i _ _ => i :: (left ++ Stage.later globals stage)
  | .checking _ => globals
  | .halting _ _ => globals
  | .closing => []
  | .done _ => []

/-- The feeds that the supervisor has still to wait for. -/
def awaited (s : System) : List Nat :=
  Watch.ahead (s.indices .streams) (s.indices .globals) s.watch

/-- The faults of the feeds that failed: of the stream feeds in order, then of the global feed. -/
def failures (s : System) : List Fault :=
  ((s.feeds.filter fun t => !t.feed.isGlobal) ++ s.feeds.filter (·.feed.isGlobal)).filterMap (·.fault?)

/-! ### Who is on the roster -/

theorem indices_eq_map (s : System) (stage : Stage) :
    s.indices stage = ((s.feeds.map (·.feed)).zipIdx.filter
      fun e => e.1.isGlobal == (stage == .globals)).map Prod.snd := by
  unfold indices
  rw [List.zipIdx_map, List.filter_map, List.map_map]
  rfl

theorem exists_of_mem_indices {s : System} {stage : Stage} {i : Nat} (h : i ∈ s.indices stage) :
    ∃ t, s.feeds[i]? = some t ∧ t.feed.isGlobal = (stage == .globals) := by
  unfold indices at h
  obtain ⟨⟨t, k⟩, hmem, rfl⟩ := List.mem_map.mp h
  obtain ⟨ht, hg⟩ := List.mem_filter.mp hmem
  exact ⟨t, List.mk_mem_zipIdx_iff_getElem?.mp ht, beq_iff_eq.mp hg⟩

/-- No index is waited for twice in a stage. -/
theorem nodup_indices (s : System) (stage : Stage) : (s.indices stage).Nodup := by
  have hsub : (s.indices stage).Sublist (s.feeds.zipIdx.map Prod.snd) := List.filter_sublist.map _
  refine hsub.nodup ?_
  rw [List.zipIdx_map_snd]
  exact List.nodup_range'

/-- No index is waited for twice. -/
theorem nodup_roster (s : System) : s.roster.Nodup := by
  refine List.nodup_append.mpr ⟨s.nodup_indices _, s.nodup_indices _, ?_⟩
  rintro i hi j hj rfl
  obtain ⟨t, ht, hstream⟩ := exists_of_mem_indices hi
  have hglobal := (mem_indices_iff ht).mp hj
  rw [hstream] at hglobal
  cases hglobal

/-- Every task is waited for. -/
theorem mem_roster {s : System} {i : Nat} {t : FeedTask} (ht : s.feeds[i]? = some t) :
    i ∈ s.roster := by
  rw [roster, List.mem_append, mem_indices_iff ht, mem_indices_iff ht]
  cases t.feed.isGlobal
  · exact Or.inl rfl
  · exact Or.inr rfl

/-- The faults of the feeds of a stage, by index or as they are listed. -/
theorem filterMap_faultAt_indices (s : System) (stage : Stage) :
    (s.indices stage).filterMap s.faultAt =
      (s.feeds.filter fun t => t.feed.isGlobal == (stage == .globals)).filterMap (·.fault?) := by
  have hfst : s.feeds.filter (fun t => t.feed.isGlobal == (stage == .globals)) =
      (s.feeds.zipIdx.filter fun e => e.1.feed.isGlobal == (stage == .globals)).map Prod.fst := by
    conv_lhs => rw [← List.zipIdx_map_fst 0 s.feeds]
    rw [List.filter_map]
    rfl
  rw [hfst, indices, List.filterMap_map, List.filterMap_map]
  refine List.filterMap_congr fun e he => ?_
  exact faultAt_of (List.mk_mem_zipIdx_iff_getElem?.mp (List.mem_filter.mp he).1)

theorem failures_eq (s : System) : s.failures = s.roster.filterMap s.faultAt := by
  have hstreams : (fun t : FeedTask => !t.feed.isGlobal) =
      fun t => t.feed.isGlobal == (Stage.streams == .globals) := by
    funext t
    cases t.feed.isGlobal <;> rfl
  have hglobals : (fun t : FeedTask => t.feed.isGlobal) =
      fun t => t.feed.isGlobal == (Stage.globals == .globals) := by
    funext t
    cases t.feed.isGlobal <;> rfl
  rw [failures, roster, List.filterMap_append, List.filterMap_append, filterMap_faultAt_indices,
    filterMap_faultAt_indices, hstreams, ← hglobals]

section
variable {s s' : System} {move : Move} {effects : List Effect}

/-- No step changes what feeds there are. -/
theorem map_feed_step (h : s.step move = some (s', effects)) :
    s'.feeds.map (·.feed) = s.feeds.map (·.feed) := by
  apply List.ext_getElem?
  intro i
  rw [List.getElem?_map, List.getElem?_map]
  rcases ht' : s'.feeds[i]? with _ | t'
  · rw [List.getElem?_eq_none_iff, length_feeds_step h, ← List.getElem?_eq_none_iff] at ht'
    rw [ht']
  · obtain ⟨t, ht⟩ := exists_before h ht'
    rw [ht, Option.map_some, Option.map_some, feed_step h ht ht']

/-- No step changes who is waited for in a stage. -/
theorem indices_step (h : s.step move = some (s', effects)) (stage : Stage) :
    s'.indices stage = s.indices stage := by
  rw [indices_eq_map, indices_eq_map, map_feed_step h]

/-- No step changes who is waited for. -/
theorem roster_step (h : s.step move = some (s', effects)) : s'.roster = s.roster := by
  rw [roster, roster, indices_step h, indices_step h]

theorem awaited_step (h : s.step move = some (s', effects)) :
    s'.awaited = Watch.ahead (s.indices .streams) (s.indices .globals) s'.watch := by
  rw [awaited, indices_step h, indices_step h]

/-- A task that is over stays as it is, in every respect that says how it ended. -/
theorem fixed_step (h : s.step move = some (s', effects)) {i : Nat} {t : FeedTask}
    (ht : s.feeds[i]? = some t) (hf : t.finished = true) :
    ∃ t', s'.feeds[i]? = some t' ∧ t'.phase = t.phase ∧ t'.feed = t.feed := by
  have hlt := (List.getElem?_eq_some_iff.mp ht).1
  rw [← length_feeds_step h] at hlt
  refine ⟨_, List.getElem?_eq_getElem hlt, ?_⟩
  rcases step_task h ht (List.getElem?_eq_getElem hlt) with ⟨a, next, -, hr, -⟩ |
    ⟨parts, releases, heq⟩ | ⟨left, cause, -, heq⟩ | ⟨left, -, heq⟩
  · rw [hr.not_finished] at hf
    cases hf
  all_goals
    rw [heq]
    exact ⟨rfl, rfl⟩

/-- The fault of a task that is over stays. -/
theorem faultAt_step (h : s.step move = some (s', effects)) {i : Nat} {t : FeedTask}
    (ht : s.feeds[i]? = some t) (hf : t.finished = true) : s'.faultAt i = s.faultAt i := by
  obtain ⟨t', ht', hp, hfeed⟩ := fixed_step h ht hf
  rw [faultAt_of ht, faultAt_of ht', FeedTask.fault?_congr hp hfeed]

end

/-! ### Where the supervisor stands -/

/-- The lists that the supervisor goes through are ends of the lists of feeds, and a feed it buries has
crashed. -/
structure Posted (s : System) : Prop where
  joins : ∀ stage left, s.watch = .joining stage left → left <:+ s.indices stage
  buries : ∀ stage left i message ids, s.watch = .burying stage left i message ids →
    (i :: left) <:+ s.indices stage ∧
      ∃ t, s.feeds[i]? = some t ∧ t.phase = .crashed message ∧ ids <:+ t.feed.ids
  looks : Watch.targets s.watch <:+ s.indices .globals

/-- At the start the supervisor has all of its lists before it. -/
theorem posted_start (settings : Settings) (factories : Nat) (l : Ledger) :
    (start settings factories l).Posted := by
  refine ⟨fun stage left hw => ?_, fun stage left i message ids hw => ?_, List.nil_suffix⟩
  · cases hw
  · cases hw

section
variable {s s' : System} {move : Move} {effects : List Effect}

/-- What the supervisor has before it stays in order when another one moves. -/
theorem Posted.keep (hp : s.Posted) (h : s.step move = some (s', effects))
    (hw : s'.watch = s.watch) : s'.Posted := by
  refine ⟨fun stage left hjoin => ?_, fun stage left i message ids hbury => ?_, ?_⟩
  · rw [indices_step h]
    exact hp.joins stage left (hw.symm.trans hjoin)
  · obtain ⟨hsuffix, t, ht, hcrash, hids⟩ := hp.buries stage left i message ids (hw.symm.trans hbury)
    have hfinished : t.finished = true := by rw [FeedTask.finished, hcrash]
    obtain ⟨t', ht', hphase, hfeed⟩ := fixed_step h ht hfinished
    rw [indices_step h]
    exact ⟨hsuffix, t', ht', hphase.trans hcrash, hfeed ▸ hids⟩
  · rw [hw, indices_step h]
    exact hp.looks

theorem Posted.step (hp : s.Posted) (h : s.step move = some (s', effects)) : s'.Posted := by
  by_cases hm : move = .supervise
  · subst hm
    -- the supervisor has come to a point where it neither waits nor buries
    have looking : ∀ left, s'.watch = .checking left → left <:+ s.indices .globals → s'.Posted := by
      intro left hw hleft
      refine ⟨fun stage left hw' => ?_, fun stage left i message ids hw' => ?_, ?_⟩
      · rw [hw] at hw'; cases hw'
      · rw [hw] at hw'; cases hw'
      · rw [hw, indices_step h]
        exact hleft
    have waiting : ∀ stage left, s'.watch = .joining stage left → left <:+ s.indices stage →
        s'.Posted := by
      intro stage left hw hleft
      refine ⟨fun stage' left' hw' => ?_, fun stage' left' i message ids hw' => ?_, ?_⟩
      · rw [hw] at hw'; cases hw'
        rw [indices_step h]
        exact hleft
      · rw [hw] at hw'; cases hw'
      · rw [hw]
        exact List.nil_suffix
    cases supervision_of_supervise h with
    | opens => exact waiting _ _ rfl List.suffix_rfl
    | hasStreams => exact looking _ rfl List.suffix_rfl
    | hasChecked => exact waiting _ _ rfl List.suffix_rfl
    | joinsDone hw | joinsFailed hw =>
      exact waiting _ _ rfl ((List.suffix_cons _ _).trans (hp.joins _ _ hw))
    | hasBuried hw =>
      exact waiting _ _ rfl ((List.suffix_cons _ _).trans (hp.buries _ _ _ _ _ hw).1)
    | passesFinished hw | passesSound hw =>
      have hlooks := hp.looks
      rw [hw] at hlooks
      exact looking _ rfl ((List.suffix_cons _ _).trans hlooks)
    | halts hw =>
      have hlooks := hp.looks
      rw [hw] at hlooks
      exact looking _ rfl ((List.suffix_cons _ _).trans hlooks)
    | joinsCrashed hw ht hcrash =>
      refine ⟨nofun, ?_, List.nil_suffix⟩
      rintro _ _ _ _ _ ⟨⟩
      exact ⟨hp.joins _ _ hw, _, ht, hcrash, List.suffix_rfl⟩
    | buries hw =>
      refine ⟨nofun, ?_, List.nil_suffix⟩
      rintro _ _ _ _ _ ⟨⟩
      obtain ⟨hsuffix, t, ht, hcrash, hids⟩ := hp.buries _ _ _ _ _ hw
      exact ⟨hsuffix, t, ht, hcrash, (List.suffix_cons _ _).trans hids⟩
    | blames hw =>
      refine ⟨nofun, nofun, ?_⟩
      rw [indices_step h]
      have hlooks := hp.looks
      rw [hw] at hlooks
      exact hlooks
    | hasGlobals | closes => exact ⟨nofun, nofun, List.nil_suffix⟩
  · exact hp.keep h (books_step h hm).1

end

/-! ### What has been noted -/

/-- No two feeds have one key. -/
theorem Orderly.index_eq {feeds : List Feed} {s : System} (ho : Orderly feeds s)
    (hkeys : (feeds.map Feed.key).Nodup) {i k : Nat} {t u : FeedTask} (ht : s.feeds[i]? = some t)
    (hu : s.feeds[k]? = some u) (hkey : t.feed.key = u.feed.key) : i = k := by
  have hi := ho.feed_eq i t ht
  have hk := ho.feed_eq k u hu
  have hlt : i < (feeds.map Feed.key).length := by
    rw [List.length_map]
    exact (List.getElem?_eq_some_iff.mp hi).1
  apply (List.getElem?_inj hlt hkeys).mp
  rw [List.getElem?_map, List.getElem?_map, hi, hk, Option.map_some, Option.map_some, hkey]

/-- The supervisor has waited for some feeds, and has noted what they ended with. -/
structure Joined (joined : List Nat) (s : System) : Prop where
  roster : joined ++ s.awaited = s.roster
  ended : ∀ i ∈ joined, ∃ t, s.feeds[i]? = some t ∧ t.finished = true
  faults : s.faults = joined.filterMap s.faultAt
  noted : ∀ id e, s.streamFaults.find? id = some e ↔
    ∃ i ∈ joined, ∃ t, s.feeds[i]? = some t ∧ t.feed.key = .stream id ∧ t.fault? = some e

/-- Before the first step nobody was waited for. -/
theorem joined_start (settings : Settings) (factories : Nat) (l : Ledger) :
    Joined [] (start settings factories l) where
  roster := rfl
  ended := nofun
  faults := rfl
  noted := by
    intro id e
    constructor
    · intro h
      cases h
    · rintro ⟨i, hi, -⟩
      cases hi

section
variable {feeds : List Feed} {joined : List Nat} {s s' : System} {move : Move} {effects : List Effect}

/-- Who is still waited for was not waited for before. -/
theorem Joined.not_mem (hj : Joined joined s) {i : Nat} (hi : i ∈ s.awaited) : i ∉ joined := by
  have hnodup := s.nodup_roster
  rw [← hj.roster] at hnodup
  intro hmem
  exact (List.nodup_append.mp hnodup).2.2 i hmem i hi rfl

/-- Every task was waited for or is to be waited for. -/
theorem Joined.mem_or (hj : Joined joined s) {i : Nat} {t : FeedTask} (ht : s.feeds[i]? = some t) :
    i ∈ joined ∨ i ∈ s.awaited := by
  have hmem := mem_roster ht
  rw [← hj.roster] at hmem
  exact List.mem_append.mp hmem

/-- A task that goes on has not been waited for. -/
theorem Joined.awaited_of_not_finished (hj : Joined joined s) {i : Nat} {t : FeedTask}
    (ht : s.feeds[i]? = some t) (hf : t.finished = false) : i ∈ s.awaited := by
  rcases hj.mem_or ht with hmem | hmem
  · obtain ⟨u, hu, hover⟩ := hj.ended i hmem
    rw [ht] at hu; cases hu
    rw [hf] at hover
    cases hover
  · exact hmem

/-- Nothing is noted about the stream of a feed that is still to come. -/
theorem Joined.find?_eq_none (hj : Joined joined s) (ho : Orderly feeds s)
    (hkeys : (feeds.map Feed.key).Nodup) {i : Nat} {t : FeedTask} (ht : s.feeds[i]? = some t)
    (hi : i ∈ s.awaited) {id : StreamId} (hid : t.feed.key = .stream id) :
    s.streamFaults.find? id = none := by
  rcases hf : s.streamFaults.find? id with _ | e
  · rfl
  · obtain ⟨k, hk, u, hu, hkey, -⟩ := (hj.noted id e).mp hf
    have hik := ho.index_eq hkeys ht hu (hid.trans hkey.symm)
    exact absurd (hik ▸ hk) (hj.not_mem hi)

/-- The books stay right while nothing is noted. -/
theorem Joined.keep (hj : Joined joined s) (h : s.step move = some (s', effects))
    (ha : s'.awaited = s.awaited) (hf : s'.faults = s.faults)
    (hn : s'.streamFaults = s.streamFaults) : Joined joined s' where
  roster := by rw [ha, roster_step h, hj.roster]
  ended := by
    intro i hi
    obtain ⟨t, ht, hover⟩ := hj.ended i hi
    obtain ⟨t', ht', hp, -⟩ := fixed_step h ht hover
    refine ⟨t', ht', ?_⟩
    rw [FeedTask.finished, hp]
    exact hover
  faults := by
    rw [hf, hj.faults]
    refine List.filterMap_congr fun i hi => ?_
    obtain ⟨t, ht, hover⟩ := hj.ended i hi
    exact (faultAt_step h ht hover).symm
  noted := by
    intro id e
    rw [hn, hj.noted]
    refine exists_congr fun i => and_congr_right fun hi => ?_
    obtain ⟨t, ht, hover⟩ := hj.ended i hi
    obtain ⟨t', ht', hp, hfeed⟩ := fixed_step h ht hover
    rw [ht, ht']
    simp only [Option.some.injEq, exists_eq_left', FeedTask.fault?_congr hp hfeed, hfeed]

/-- The supervisor has waited for one more feed. -/
theorem Joined.snoc (hj : Joined joined s) {i : Nat} {t : FeedTask} {rest : List Nat}
    (hfeeds : s'.feeds = s.feeds) (ht : s.feeds[i]? = some t) (hover : t.finished = true)
    (ha : s.awaited = i :: rest) (ha' : s'.awaited = rest)
    (hf : s'.faults = s.faults ++ t.fault?.toList)
    (hn : ∀ id e, s'.streamFaults.find? id = some e ↔
      s.streamFaults.find? id = some e ∨ t.feed.key = .stream id ∧ t.fault? = some e) :
    Joined (joined ++ [i]) s' where
  roster := by
    have hsame : s'.roster = s.roster := by rw [System.roster, System.roster, indices, indices, hfeeds]; rfl
    rw [hsame, ← hj.roster, ha, ha', List.append_assoc]
    rfl
  ended := by
    intro k hk
    rw [hfeeds]
    rcases List.mem_append.mp hk with hold | hnew
    · exact hj.ended k hold
    · rw [List.mem_singleton.mp hnew]
      exact ⟨t, ht, hover⟩
  faults := by
    have hsame : s'.faultAt = s.faultAt := by
      funext k
      rw [faultAt, faultAt, hfeeds]
    rw [hf, hj.faults, hsame, List.filterMap_append, ← faultAt_of ht]
    simp only [List.filterMap_cons, List.filterMap_nil]
    rcases s.faultAt i with _ | e <;> rfl
  noted := by
    intro id e
    rw [hn, hj.noted, hfeeds]
    constructor
    · rintro (⟨k, hk, hrest⟩ | hlast)
      · exact ⟨k, List.mem_append_left _ hk, hrest⟩
      · exact ⟨i, List.mem_append_right _ List.mem_cons_self, t, ht, hlast⟩
    · rintro ⟨k, hk, u, hu, hrest⟩
      rcases List.mem_append.mp hk with hold | hnew
      · exact Or.inl ⟨k, hold, u, hu, hrest⟩
      · rw [List.mem_singleton.mp hnew, ht] at hu
        cases hu
        exact Or.inr hrest

/-- Noting the fault of a feed of a stage notes it for its stream, if it has one. -/
theorem find?_noteFault {stage : Stage} {i : Nat} {t : FeedTask} (ht : s.feeds[i]? = some t)
    (hi : i ∈ s.indices stage) (e : Fault) (id : StreamId) :
    (s.noteFault stage t.feed e).streamFaults.find? id =
      if t.feed.key = .stream id then some e else s.streamFaults.find? id := by
  have hstage := (mem_indices_iff ht).mp hi
  unfold noteFault
  rcases hfeed : t.feed with st | g
  · rw [hfeed] at hstage
    cases stage with
    | streams =>
      simp only [Feed.stream?, Table.find?_put, Feed.key, FeedKey.stream.injEq]
    | globals => cases hstage
  · cases stage <;> rfl

/-- The supervisor notes the fault of the feed that it has waited for. -/
theorem Joined.note (hj : Joined joined s) (ho : Orderly feeds s) (hkeys : (feeds.map Feed.key).Nodup)
    {stage : Stage} {i : Nat} {t : FeedTask} {e : Fault} {rest : List Nat} {watch : Watch}
    (ht : s.feeds[i]? = some t) (hi : i ∈ s.indices stage) (he : t.fault? = some e)
    (ha : s.awaited = i :: rest)
    (ha' : { s.noteFault stage t.feed e with watch }.awaited = rest) :
    Joined (joined ++ [i]) { s.noteFault stage t.feed e with watch } := by
  have hover : t.finished = true := by
    rw [← FeedTask.isSome_outcome?, FeedTask.outcome?_of_fault? he]
    rfl
  refine hj.snoc rfl ht hover ha ha' (by rw [he]; rfl) fun id e' => ?_
  show (s.noteFault stage t.feed e).streamFaults.find? id = some e' ↔ _
  rw [find?_noteFault ht hi, he, Option.some.injEq]
  split
  · rename_i hid
    rw [hj.find?_eq_none ho hkeys ht (ha ▸ List.mem_cons_self) hid]
    simp [hid]
  · rename_i hid
    simp [hid]

/-- Every step keeps the books right. -/
theorem Joined.step (hj : Joined joined s) (hp : s.Posted) (ho : Orderly feeds s)
    (hkeys : (feeds.map Feed.key).Nodup) (h : s.step move = some (s', effects)) :
    ∃ more, Joined (joined ++ more) s' := by
  -- a step after which the same feeds are to come
  have same : s'.awaited = s.awaited → s'.faults = s.faults → s'.streamFaults = s.streamFaults →
      ∃ more, Joined (joined ++ more) s' := by
    intro ha hf hn
    refine ⟨[], ?_⟩
    rw [List.append_nil]
    exact hj.keep h ha hf hn
  by_cases hm : move = .supervise
  · subst hm
    have ha := awaited_step h
    cases supervision_of_supervise h with
    | opens hw | hasStreams hw | hasGlobals hw | passesFinished hw | passesSound hw | closes hw
    | joinsCrashed hw | buries hw | blames hw | halts hw =>
      refine same ?_ rfl rfl
      rw [ha, awaited, hw]
      rfl
    | hasChecked hw =>
      refine same ?_ rfl rfl
      rw [ha, awaited, hw]
      exact List.append_nil _
    | @joinsDone _ _ _ t hw ht hdone =>
      have hover : t.finished = true := by rw [FeedTask.finished, hdone]
      have hnone : t.fault? = none := by rw [FeedTask.fault?, FeedTask.outcome?, hdone]
      refine ⟨[_], hj.snoc rfl ht hover (by rw [awaited, hw]; rfl) ha ?_ fun id e => ?_⟩
      · rw [hnone]
        exact (List.append_nil _).symm
      · rw [hnone]
        simp
    | @joinsFailed _ _ _ t e hw ht hdone =>
      have hi := (hp.joins _ _ hw).subset List.mem_cons_self
      have he : t.fault? = some e := by rw [FeedTask.fault?, FeedTask.outcome?, hdone]
      exact ⟨[_], hj.note ho hkeys ht hi he (by rw [awaited, hw]; rfl) ha⟩
    | @hasBuried _ _ _ message t hw ht =>
      obtain ⟨hsuffix, u, hu, hcrash, -⟩ := hp.buries _ _ _ _ _ hw
      rw [ht] at hu; cases hu
      have hi := hsuffix.subset List.mem_cons_self
      have he : t.fault? = some (.crashed t.label message) := by
        rw [FeedTask.fault?, FeedTask.outcome?, hcrash]
      exact ⟨[_], hj.note ho hkeys ht hi he (by rw [awaited, hw]; rfl) ha⟩
  · obtain ⟨hw, hf, hn⟩ := books_step h hm
    refine same ?_ hf hn
    rw [awaited_step h, hw]
    rfl

/-- When the read is about to be closed, or is over, every feed is over and the faults noted are all
there are. -/
theorem Joined.of_awaited_eq_nil (hj : Joined joined s) (ha : s.awaited = []) :
    (∀ (i : Nat) (t : FeedTask), s.feeds[i]? = some t → t.finished = true) ∧ s.faults = s.failures := by
  have hall : joined = s.roster := by
    rw [← hj.roster, ha, List.append_nil]
  refine ⟨fun i t ht => ?_, ?_⟩
  · obtain ⟨u, hu, hover⟩ := hj.ended i (hall ▸ mem_roster ht)
    rw [ht] at hu; cases hu
    exact hover
  · rw [hj.faults, hall, failures_eq]

end

/-- What a feed ended badly with is genuine, or says that the feed was stopped, and for which cause. -/
theorem Sincere.fault?_cases {s : System} (hs : s.Sincere) {i : Nat} {t : FeedTask} {e : Fault}
    (ht : s.feeds[i]? = some t) (he : t.fault? = some e) :
    e.Genuine s.cancelled ∨ ∃ cause, t.cause = some cause ∧ e = .feedHalted t.label cause := by
  have hout := FeedTask.outcome?_of_fault? he
  unfold FeedTask.outcome? at hout
  split at hout
  · rename_i r hp
    cases hout
    have hends := (hs.sound i t ht).done e hp
    generalize e.notice = n at hends
    cases hends with
    | failed hg => exact Or.inl hg
    | stopped hc => exact Or.inr ⟨_, hc, rfl⟩
  · cases hout
    exact Or.inl (Or.inl rfl)
  · cases hout

/-! ### All of it together -/

/-- The feeds are those of a list with a key each, the supervisor is in order, and so are its books and the
faults of the feeds. -/
structure Attended (feeds : List Feed) (s : System) : Prop where
  keys : (feeds.map Feed.key).Nodup
  orderly : Orderly feeds s
  sincere : s.Sincere
  posted : s.Posted
  joined : ∃ joined, Joined joined s

/-- A read is attended from the start. -/
theorem attended_start (settings : Settings) (factories : Nat) {l : Ledger}
    (hkeys : (l.feeds.map Feed.key).Nodup) : Attended l.feeds (start settings factories l) where
  keys := hkeys
  orderly := orderly_start settings factories l
  sincere := sincere_start settings factories l
  posted := posted_start settings factories l
  joined := ⟨[], joined_start settings factories l⟩

/-- Every step leaves a read attended. -/
theorem Attended.step {feeds : List Feed} {s s' : System} {move : Move} {effects : List Effect}
    (ha : Attended feeds s) (h : s.step move = some (s', effects)) : Attended feeds s' where
  keys := ha.keys
  orderly := ha.orderly.step h
  sincere := ha.sincere.step h
  posted := ha.posted.step h
  joined := by
    obtain ⟨joined, hj⟩ := ha.joined
    obtain ⟨more, hmore⟩ := hj.step ha.posted ha.orderly ha.keys h
    exact ⟨joined ++ more, hmore⟩

end System

end Read

end Intake
