import Intake.Proofs.Notices
import Intake.Proofs.Replay
/-!
# When and why the global feed is stopped

The supervisor looks at a global feed once, when it has waited for all stream feeds. If the feed is still
running then and some of its streams have failed, their faults become the cause, and the feed is stopped
(`Step.Decides`). `Coupled` is what a run keeps of this: no feed has a cause without such a look, and no such
look is without effect.

A task that has seen that it is stopped ends with the cause and with nothing else (`FeedTask.Phase.Yields`).
The main statement is `global_stopped_for_members`.
-/

namespace Intake.Read

namespace FeedTask

/-- The phases of a task that has seen that it is stopped, and gives way for a cause. -/
inductive Phase.Yields (label : String) (cause : Fault) : Phase → Prop
  | failing : Yields label cause (.failing .cancelled)
  | stopping (left : List StreamId) : Yields label cause (.stopping .stopped (.feedHalted label cause) left)
  | done : Yields label cause (.done (.error (.feedHalted label cause)))

/-- A task that gives way goes on doing so. -/
theorem Rule.yields {v : View} {t : FeedTask} {s : Shared} {a : Act} {next : Next} {cause : Fault}
    (h : Rule v t s a next) (hc : t.cause = some cause) (hy : t.phase.Yields t.label cause) :
    next.task.phase.Yields t.label cause := by
  generalize hphase : t.phase = p at hy
  cases hy with
  | failing =>
    cases h with
    | stopsForCause _ hc' =>
      rw [hc] at hc'; cases hc'
      exact .stopping _
    | stops hp hnone =>
      rw [hphase] at hp; cases hp
      rw [hnone rfl] at hc
      cases hc
    | _ hp => rw [hphase] at hp; cases hp
  | stopping left =>
    cases h with
    | saysStopped hp =>
      rw [hphase] at hp; cases hp
      exact .stopping _
    | hasStopped hp =>
      rw [hphase] at hp; cases hp
      exact .done
    | _ hp => rw [hphase] at hp; cases hp
  | done =>
    have hover := h.not_finished
    rw [finished, hphase] at hover
    cases hover

/-- A task that gives way and is over has the cause for its fault. -/
theorem fault?_of_yields {t : FeedTask} {cause : Fault} (hy : t.phase.Yields t.label cause)
    (hf : t.finished = true) : t.fault? = some (.feedHalted t.label cause) := by
  generalize hphase : t.phase = p at hy
  rw [finished, hphase] at hf
  rw [fault?, outcome?, hphase]
  cases hy with
  | failing | stopping => cases hf
  | done => rfl

theorem label_of_isGlobal {t : FeedTask} (h : t.feed.isGlobal = true) : t.label = "global" := by
  unfold label
  rcases hf : t.feed with st | g
  · rw [hf] at h
    cases h
  · rfl

@[simp] theorem outcome?_bare (t : FeedTask) : t.bare.outcome? = t.outcome? := by
  unfold bare
  split
  · rename_i next hp
    show none = t.outcome?
    unfold outcome?
    split
    · rename_i hdone
      rw [hdone] at hp
      cases hp
    · rename_i hcrash
      rw [hcrash] at hp
      cases hp
    · rfl
  · rfl

end FeedTask

namespace System

/-- The fault that the feed of a stream ended with, if it ended with one. -/
def faultOf (s : System) (id : StreamId) : Option Fault :=
  s.feeds.findSome? fun t => if t.feed.key = .stream id then t.fault? else none

/-- The cause there is for stopping a feed: the faults of its streams, in the order of its own list. -/
def blame? (s : System) (feed : Feed) : Option Fault :=
  Fault.aggregate? (feed.ids.filterMap s.faultOf)

/-- The supervisor looks at the global feed of an index. -/
def Step.LooksAt (g : Nat) (st : Step) : Prop :=
  st.move = .supervise ∧ ∃ left, st.before.watch = .checking (g :: left)

/-- The supervisor has waited for all stream feeds, looks at a global feed, finds it running, and there is a
cause for stopping it. -/
structure Step.Decides (g : Nat) (cause : Fault) (st : Step) : Prop where
  looks : st.LooksAt g
  streams : ∀ (i : Nat) (t : FeedTask), st.before.feeds[i]? = some t → t.feed.isGlobal = false →
    i ∉ st.before.awaited ∧ t.finished = true
  running : ∃ t, st.before.feeds[g]? = some t ∧ t.feed.isGlobal = true ∧ t.finished = false ∧
    st.before.blame? t.feed = some cause

/-! ### The faults of the streams -/

section
variable {feeds : List Feed} {s s' : System} {move : Move} {effects : List Effect}

theorem Attended.faultOf_eq_some_iff (ha : Attended feeds s) {id : StreamId} {e : Fault} :
    s.faultOf id = some e ↔
      ∃ (i : Nat) (t : FeedTask), s.feeds[i]? = some t ∧ t.feed.key = .stream id ∧
        t.fault? = some e := by
  -- whoever the list finds is a feed of that stream
  have hfound : ∀ {e}, s.faultOf id = some e → ∃ (i : Nat) (t : FeedTask), s.feeds[i]? = some t ∧
      t.feed.key = .stream id ∧ t.fault? = some e := by
    intro e he
    obtain ⟨t, hmem, hif⟩ := List.exists_of_findSome?_eq_some he
    obtain ⟨i, ht⟩ := List.mem_iff_getElem?.mp hmem
    split at hif
    · exact ⟨i, t, ht, ‹_›, hif⟩
    · cases hif
  refine ⟨hfound, ?_⟩
  rintro ⟨i, t, ht, hkey, he⟩
  have hsome : (s.faultOf id).isSome = true := by
    refine List.findSome?_isSome_iff.mpr ⟨t, List.mem_of_getElem? ht, ?_⟩
    rw [if_pos hkey, he]
    rfl
  obtain ⟨f, hf⟩ := Option.isSome_iff_exists.mp hsome
  obtain ⟨k, u, hu, hukey, hfault⟩ := hfound hf
  have hik := ha.orderly.index_eq ha.keys ht hu (hkey.trans hukey.symm)
  subst hik
  rw [ht] at hu; cases hu
  rw [hf, ← hfault, he]

/-- When only global feeds are still to come, every stream feed has been waited for. -/
theorem Attended.streams_over (ha : Attended feeds s) (hw : s.awaited = s.indices .globals) {i : Nat}
    {t : FeedTask} (ht : s.feeds[i]? = some t) (hg : t.feed.isGlobal = false) :
    i ∉ s.awaited ∧ t.finished = true := by
  have hnot : i ∉ s.awaited := by
    rw [hw, mem_indices_iff ht, hg]
    nofun
  obtain ⟨joined, hj⟩ := ha.joined
  rcases hj.mem_or ht with hmem | hmem
  · obtain ⟨u, hu, hover⟩ := hj.ended i hmem
    rw [ht] at hu; cases hu
    exact ⟨hnot, hover⟩
  · exact absurd hmem hnot

/-- Then the faults noted for streams are those of the stream feeds. -/
theorem Attended.find?_streamFaults (ha : Attended feeds s) (hw : s.awaited = s.indices .globals)
    (id : StreamId) : s.streamFaults.find? id = s.faultOf id := by
  obtain ⟨joined, hj⟩ := ha.joined
  apply Option.ext
  intro e
  rw [hj.noted, ha.faultOf_eq_some_iff]
  constructor
  · rintro ⟨i, -, t, hrest⟩
    exact ⟨i, t, hrest⟩
  · rintro ⟨i, t, ht, hkey, he⟩
    have hg : t.feed.isGlobal = false := by
      rcases hf : t.feed with st | g
      · rfl
      · rw [hf] at hkey; cases hkey
    refine ⟨i, ?_, t, ht, hkey, he⟩
    rcases hj.mem_or ht with hmem | hmem
    · exact hmem
    · exact absurd hmem (ha.streams_over hw ht hg).1

theorem Attended.aggregate?_memberFaults (ha : Attended feeds s) (hw : s.awaited = s.indices .globals)
    (feed : Feed) : Fault.aggregate? (s.memberFaults feed) = s.blame? feed := by
  rw [memberFaults, blame?]
  congr 1
  exact List.filterMap_congr fun id _ => ha.find?_streamFaults hw id

/-! ### Looking once -/

/-- The global feeds, being those of a list, that the supervisor has not looked at. -/
def Watch.unseen (globals : List Nat) : Watch → List Nat
  | .opening => globals
  | .joining .streams _ => globals
  | .burying .streams _ _ _ _ => globals
  | .checking left => left
  | .halting left _ => left
  | _ => []

/-- The global feeds that the supervisor has not looked at. -/
def unseen (s : System) : List Nat := Watch.unseen (s.indices .globals) s.watch

theorem unseen_step (h : s.step move = some (s', effects)) :
    s'.unseen = Watch.unseen (s.indices .globals) s'.watch := by
  rw [unseen, indices_step h]

/-- A step leaves who has not been looked at, but for one at whom the supervisor looks. -/
theorem unseen_cases (h : s.step move = some (s', effects)) :
    s'.unseen = s.unseen ∨
      ∃ g, s.unseen = g :: s'.unseen ∧ move = .supervise ∧ ∃ left, s.watch = .checking (g :: left) := by
  have hunseen := unseen_step h
  by_cases hm : move = .supervise
  · subst hm
    cases supervision_of_supervise h with
    | passesFinished hw | passesSound hw | blames hw =>
      refine Or.inr ⟨_, ?_, rfl, _, hw⟩
      rw [hunseen, unseen, hw]
      rfl
    | @joinsDone stage _ _ _ hw | @joinsFailed stage _ _ _ _ hw | @joinsCrashed stage _ _ _ _ hw
    | @buries stage _ _ _ _ _ _ hw | @hasBuried stage _ _ _ _ hw =>
      left
      rw [hunseen, unseen, hw]
      cases stage <;> rfl
    | opens hw | hasStreams hw | hasGlobals hw | hasChecked hw | halts hw | closes hw =>
      left
      rw [hunseen, unseen, hw]
      rfl
  · left
    rw [hunseen, (books_step h hm).1]
    rfl

theorem Posted.nodup_unseen (hp : s.Posted) : s.unseen.Nodup := by
  have hall := s.nodup_indices .globals
  have hlooks := hp.looks
  unfold unseen
  unfold Watch.targets at hlooks
  rcases hw : s.watch with _ | ⟨_ | _, left⟩ | ⟨_ | _, left, i, message, ids⟩ | left | ⟨left, i⟩ | _ | r
  all_goals rw [hw] at hlooks
  case checking => exact hlooks.sublist.nodup hall
  case halting => exact ((List.suffix_cons _ _).trans hlooks).sublist.nodup hall
  case opening | joining.streams | burying.streams => exact hall
  all_goals exact List.nodup_nil

end

/-! ### Stopping for a cause -/

/-- The causes that the feeds have, after some steps, are those that the supervisor has found, and who has one
is stopped. -/
structure Coupled (past : List Step) (s : System) : Prop where
  unseen : ∀ g ∈ s.unseen, ∀ t, s.feeds[g]? = some t → t.cause = none
  caused : ∀ (g : Nat) (t : FeedTask) (cause : Fault), s.feeds[g]? = some t → t.cause = some cause →
    ∃ st ∈ past, st.Decides g cause
  decided : ∀ st ∈ past, ∀ (g : Nat) (cause : Fault), st.Decides g cause →
    ∃ t, s.feeds[g]? = some t ∧ t.cause = some cause
  halted : ∀ (g : Nat) (t : FeedTask), s.feeds[g]? = some t → t.cause.isSome = true →
    t.halted = true ∨ ∃ left, s.watch = .halting left g
  seen : ∀ g ∈ s.indices .globals, g ∈ s.unseen ∨ ∃ st ∈ past, st.LooksAt g

theorem coupled_start (settings : Settings) (factories : Nat) (l : Ledger) :
    Coupled [] (start settings factories l) := by
  have hnone : ∀ (g : Nat) (t : FeedTask), (start settings factories l).feeds[g]? = some t →
      t.cause = none := by
    intro g t ht
    simp only [start, List.getElem?_map] at ht
    obtain ⟨feed, -, rfl⟩ := Option.map_eq_some_iff.mp ht
    rfl
  refine ⟨fun g _ t ht => hnone g t ht, fun g t cause ht hc => ?_, fun st hst => ?_,
    fun g t ht hc => ?_, fun g hg => Or.inl hg⟩
  · rw [hnone g t ht] at hc
    cases hc
  · cases hst
  · rw [hnone g t ht] at hc
    cases hc

section
variable {feeds : List Feed} {past : List Step} {st : Step} {g : Nat} {t t' : FeedTask}

/-- A cause that is set stays. -/
theorem cause_step (h : st.before.step st.move = some (st.after, st.effects))
    (ht : st.before.feeds[g]? = some t) {cause : Fault} (hc : t.cause = some cause) :
    ∃ t', st.after.feeds[g]? = some t' ∧ t'.cause = some cause := by
  obtain ⟨t', ht', -⟩ := exists_after h ht
  refine ⟨t', ht', ?_⟩
  rcases step_task h ht ht' with ⟨a, next, -, hr, rfl⟩ | ⟨_, _, rfl⟩ | ⟨_, _, -, rfl⟩ | ⟨_, -, rfl⟩
  · rw [hr.frame.2.2]
    exact hc
  · exact hc
  · rw [hc]
    rfl
  · exact hc

/-- When the supervisor gives a feed a cause, it has decided to. -/
theorem Attended.decides (ha : Attended feeds st.before) {left : List Nat} {cause : Fault}
    (hm : st.move = .supervise) (hw : st.before.watch = .checking (g :: left))
    (ht : st.before.feeds[g]? = some t) (hf : t.finished = false)
    (hc : Fault.aggregate? (st.before.memberFaults t.feed) = some cause) : st.Decides g cause := by
  have hawaited : st.before.awaited = st.before.indices .globals := by
    rw [awaited, hw]
    rfl
  have hglobal : t.feed.isGlobal = true := by
    refine ha.orderly.targets g ?_ t ht
    rw [hw]
    exact List.mem_cons_self
  rw [ha.aggregate?_memberFaults hawaited] at hc
  exact ⟨⟨hm, left, hw⟩, fun i u hu hg => ha.streams_over hawaited hu hg, t, ht, hglobal, hf, hc⟩

/-- A decision gives the feed its cause, which it did not have. -/
theorem Step.Decides.cause {cause : Fault} (hd : st.Decides g cause) (ha : Attended feeds st.before)
    (hu : ∀ g ∈ st.before.unseen, ∀ t, st.before.feeds[g]? = some t → t.cause = none)
    (h : st.before.step st.move = some (st.after, st.effects)) :
    ∃ t', st.after.feeds[g]? = some t' ∧ t'.cause = some cause := by
  obtain ⟨⟨hm, left, hw⟩, -, t, ht, -, hf, hblame⟩ := hd
  have hawaited : st.before.awaited = st.before.indices .globals := by
    rw [awaited, hw]
    rfl
  have hnone : t.cause = none := by
    refine hu g ?_ t ht
    rw [System.unseen, hw]
    exact List.mem_cons_self
  rw [← ha.aggregate?_memberFaults hawaited] at hblame
  rw [hm] at h
  generalize st.after = s', st.effects = effects at h ⊢
  cases supervision_of_supervise h with
  | @blames k _ u c hw' hu' _ hc =>
    rw [hw] at hw'; cases hw'
    rw [ht] at hu'; cases hu'
    rw [hblame] at hc; cases hc
    refine ⟨_, List.getElem?_set_self (List.getElem?_eq_some_iff.mp ht).1, ?_⟩
    rw [hnone]
    rfl
  | @passesFinished k _ u hw' hu' hover =>
    rw [hw] at hw'; cases hw'
    rw [ht] at hu'; cases hu'
    rw [hf] at hover
    cases hover
  | @passesSound k _ u hw' hu' _ hc =>
    rw [hw] at hw'; cases hw'
    rw [ht] at hu'; cases hu'
    rw [hblame] at hc
    cases hc
  | _ hw' => rw [hw] at hw'; cases hw'

/-- Who has a cause is stopped, or the supervisor is about to do it. -/
theorem Coupled.halted_step (hc : Coupled past st.before)
    (h : st.before.step st.move = some (st.after, st.effects)) (ht' : st.after.feeds[g]? = some t')
    (hcause : t'.cause.isSome = true) :
    t'.halted = true ∨ ∃ left, st.after.watch = .halting left g := by
  obtain ⟨t, ht⟩ := exists_before h ht'
  rcases step_task h ht ht' with ⟨a, next, hm, hr, rfl⟩ | ⟨_, _, rfl⟩ |
    ⟨left, _, ⟨-, -, -, -, hw⟩, rfl⟩ | ⟨_, -, rfl⟩
  · rw [hr.frame.2.2] at hcause
    rw [hr.frame.2.1, (books_step h (by rw [hm]; nofun)).1]
    exact hc.halted g t ht hcause
  · rcases hc.halted g t ht hcause with hhalted | ⟨left, hw⟩
    · exact Or.inl hhalted
    · by_cases hm : st.move = .supervise
      · -- the supervisor stops the feed with this step
        rw [hm] at h
        generalize st.after = s', st.effects = effects at h ht'
        cases supervision_of_supervise h with
        | halts hw' =>
          rw [hw] at hw'; cases hw'
          rw [List.getElem?_modify_eq, ht] at ht'
          exact Or.inl (congrArg FeedTask.halted (Option.some.inj ht')).symm
        | _ hw' => rw [hw] at hw'; cases hw'
      · rw [(books_step h hm).1]
        exact Or.inr ⟨left, hw⟩
  · exact Or.inr ⟨left, hw⟩
  · exact Or.inl rfl

/-- Every step keeps the causes of the feeds coupled to what the supervisor has found. -/
theorem Coupled.step (hc : Coupled past st.before) (ha : Attended feeds st.before)
    (h : st.before.step st.move = some (st.after, st.effects)) : Coupled (past ++ [st]) st.after := by
  have hold : ∀ {P : Step → Prop}, (∃ x ∈ past, P x) → ∃ x ∈ past ++ [st], P x := by
    rintro P ⟨x, hx, hp⟩
    exact ⟨x, List.mem_append_left _ hx, hp⟩
  have hnew : st ∈ past ++ [st] := List.mem_append_right _ List.mem_cons_self
  have hunseen := unseen_cases h
  refine ⟨fun g hg t' ht' => ?_, fun g t' cause ht' hcause => ?_, fun x hx g cause hd => ?_,
    fun g t' ht' hcause => hc.halted_step h ht' hcause, fun g hg => ?_⟩
  · obtain ⟨t, ht⟩ := exists_before h ht'
    have hmem : g ∈ st.before.unseen := by
      rcases hunseen with heq | ⟨k, heq, -⟩
      · exact heq ▸ hg
      · rw [heq]
        exact List.mem_cons_of_mem _ hg
    have hnone := hc.unseen g hmem t ht
    rcases step_task h ht ht' with ⟨a, next, -, hr, rfl⟩ | ⟨_, _, rfl⟩ |
      ⟨left, _, ⟨-, hw, -, -, hw'⟩, rfl⟩ | ⟨_, -, rfl⟩
    · rw [hr.frame.2.2]
      exact hnone
    · exact hnone
    · -- the feed has just been looked at, and no feed is looked at twice
      have hnodup := ha.posted.nodup_unseen
      rw [System.unseen, hw] at hnodup
      rw [System.unseen, hw'] at hg
      exact absurd hg (List.nodup_cons.mp hnodup).1
    · exact hnone
  · obtain ⟨t, ht⟩ := exists_before h ht'
    rcases step_task h ht ht' with ⟨a, next, -, hr, rfl⟩ | ⟨_, _, rfl⟩ |
      ⟨left, c, ⟨hm, hw, hf, hagg, -⟩, rfl⟩ | ⟨_, -, rfl⟩
    · rw [hr.frame.2.2] at hcause
      exact hold (hc.caused g t cause ht hcause)
    · exact hold (hc.caused g t cause ht hcause)
    · have hnone : t.cause = none := by
        refine hc.unseen g ?_ t ht
        rw [System.unseen, hw]
        exact List.mem_cons_self
      rw [hnone] at hcause
      cases hcause
      exact ⟨st, hnew, ha.decides hm hw ht hf hagg⟩
    · exact hold (hc.caused g t cause ht hcause)
  · rcases List.mem_append.mp hx with hpast | hlast
    · obtain ⟨t, ht, hcause⟩ := hc.decided x hpast g cause hd
      exact cause_step h ht hcause
    · cases List.mem_singleton.mp hlast
      exact hd.cause ha hc.unseen h
  · rw [indices_step h] at hg
    rcases hc.seen g hg with hmem | hlook
    · rcases hunseen with heq | ⟨k, heq, hm, left, hw⟩
      · exact Or.inl (heq ▸ hmem)
      · rw [heq] at hmem
        rcases List.mem_cons.mp hmem with rfl | hrest
        · exact Or.inr ⟨st, hnew, hm, left, hw⟩
        · exact Or.inl hrest
    · exact Or.inr (hold hlook)

/-- Every feed that saw that it was stopped, in a read that was not cancelled, gives way for its cause. -/
def Yielding (past : List Step) (s : System) : Prop :=
  ∀ st ∈ past, ∀ (g : Nat) (u : FeedTask), st.after.feeds[g]? = some u → u.phase = .failing .cancelled →
    ∃ t cause, s.feeds[g]? = some t ∧ t.cause = some cause ∧ t.phase.Yields t.label cause

theorem Yielding.step (hy : Yielding past st.before) (ha : Attended feeds st.after)
    (hc : st.after.cancelled = false)
    (h : st.before.step st.move = some (st.after, st.effects)) : Yielding (past ++ [st]) st.after := by
  intro x hx g u hu hphase
  rcases List.mem_append.mp hx with hpast | hlast
  · obtain ⟨t, cause, ht, hcause, hyields⟩ := hy x hpast g u hu hphase
    obtain ⟨t', ht', hcause'⟩ := cause_step h ht hcause
    refine ⟨t', cause, ht', hcause', ?_⟩
    rcases step_task h ht ht' with ⟨a, next, -, hr, rfl⟩ | ⟨_, _, rfl⟩ | ⟨_, _, -, rfl⟩ | ⟨_, -, rfl⟩
    · rw [FeedTask.label, hr.frame.1]
      exact hr.yields hcause hyields
    all_goals exact hyields
  · -- the feed has just seen that it is stopped, so it was stopped, and for a cause
    cases List.mem_singleton.mp hlast
    have hhalted : u.halted = true := by
      have hcarried := (ha.sincere.sound g u hu).carried .cancelled (by rw [hphase]; rfl)
      rcases hcarried with hplain | ⟨-, hin⟩
      · cases hplain
      · rw [FeedTask.cancelledIn] at hin
        simpa [feedView, hc] using hin
    obtain ⟨cause, hcause⟩ := Option.isSome_iff_exists.mp (ha.sincere.caused g u hu hhalted)
    refine ⟨u, cause, hu, hcause, ?_⟩
    rw [hphase]
    exact .failing

end

/-- What a read that nobody cancels keeps, step by step. -/
theorem run_uncancelled {feeds : List Feed} {s s' : System} {moves : List Move} {effects : List Effect}
    (ha : Attended feeds s) (hcoupled : Coupled [] s) (hcancelled : s.cancelled = false)
    (h : s.run moves = some (s', effects)) (hcancel : Move.cancel ∉ moves) :
    s'.cancelled = false ∧ Coupled (s.trace moves) s' ∧ Yielding (s.trace moves) s' := by
  have hall := run_induction (P := fun past s₁ => Attended feeds s₁ ∧ s₁.cancelled = false ∧
    Coupled past s₁ ∧ Yielding past s₁) h
    ⟨ha, hcancelled, hcoupled, fun _ hst => absurd hst List.not_mem_nil⟩ ?_
  · exact hall.2
  · rintro past st hmem hst ⟨hbefore, hc, hcouple, hyield⟩
    have hnot : st.move ≠ .cancel := fun hm => hcancel (hm ▸ move_mem_of_mem_trace hmem)
    have hafter := (frame_step hst).2.2 hnot
    rw [hc] at hafter
    exact ⟨hbefore.step hst, hafter, hcouple.step hbefore hst, hyield.step (hbefore.step hst) hafter hst⟩

/-! ### The statement -/

/-- How a global feed goes with its streams, after some steps of a read that nobody cancels. -/
structure GoesWithStreams (steps : List Step) (s : System) (g : Nat) (t : FeedTask) : Prop where
  /-- It is not cancelled without a cause. -/
  cancelled : t.cancelledIn (s.feedView g) = true → t.cause.isSome = true
  /-- It has the cause that the supervisor found when it had waited for all stream feeds, and no other. -/
  cause : ∀ cause, t.cause = some cause ↔ ∃ st ∈ steps, st.Decides g cause
  /-- When the read is over, the supervisor has looked at it, and it was cancelled if there was a cause. -/
  looked : s.result?.isSome = true →
    (∃ st ∈ steps, st.LooksAt g) ∧ t.cancelledIn (s.feedView g) = t.cause.isSome
  /-- If it saw that it was cancelled, it ends with the cause, and its streams are said to have stopped. -/
  yields : ∀ st ∈ steps, ∀ u, st.after.feeds[g]? = some u → u.phase = .failing .cancelled →
    t.finished = true → ∃ cause, t.cause = some cause ∧
      t.outcome? = some (.error (.feedHalted "global" cause)) ∧
      Board.stopsOf t.feed.key (touches steps) = t.feed.ids.map (⟨t.feed.key, .stopped, ·⟩)
  /-- No other end of it is a cancellation. -/
  fault : ∀ e, t.fault? = some e → e.isCancellation = true →
    ∃ cause, t.cause = some cause ∧ e = .feedHalted "global" cause

section
variable {feeds : List Feed} {steps : List Step} {s : System} {g : Nat} {t : FeedTask}

theorem unseen_of_result? (h : s.result?.isSome = true) :
    s.unseen = [] ∧ s.awaited = [] ∧ ∀ left i, s.watch ≠ .halting left i := by
  unfold result? at h
  split at h
  · rename_i r hw
    refine ⟨?_, ?_, fun left i hc => ?_⟩
    · rw [unseen, hw]
      rfl
    · rw [awaited, hw]
      rfl
    · rw [hw] at hc
      cases hc
  · cases h

theorem Coupled.goesWithStreams (hc : Coupled steps s) (ha : Attended feeds s)
    (hh : Heralded (touches steps) s) (hy : Yielding steps s) (hcancelled : s.cancelled = false)
    (ht : s.feeds[g]? = some t) (hg : t.feed.isGlobal = true) : GoesWithStreams steps s g t := by
  have hin : t.cancelledIn (s.feedView g) = t.halted := by
    rw [FeedTask.cancelledIn]
    simp [feedView, hcancelled]
  refine ⟨fun hcan => ?_, fun cause => ⟨hc.caused g t cause ht, ?_⟩, fun hr => ⟨?_, ?_⟩,
    fun st hst u hu hphase hf => ?_, fun e he hcan => ?_⟩
  · rw [hin] at hcan
    exact ha.sincere.caused g t ht hcan
  · rintro ⟨st, hst, hd⟩
    obtain ⟨u, hu, hcause⟩ := hc.decided st hst g cause hd
    rw [ht] at hu; cases hu
    exact hcause
  · rcases hc.seen g ((mem_indices_iff ht).mpr hg) with hunseen | hlook
    · rw [(unseen_of_result? hr).1] at hunseen
      cases hunseen
    · exact hlook
  · rw [hin, Bool.eq_iff_iff]
    refine ⟨ha.sincere.caused g t ht, fun hcause => ?_⟩
    rcases hc.halted g t ht hcause with hhalted | ⟨left, hw⟩
    · exact hhalted
    · exact absurd hw ((unseen_of_result? hr).2.2 left g)
  · obtain ⟨t', cause, ht', hcause, hyields⟩ := hy st hst g u hu hphase
    rw [ht] at ht'; cases ht'
    have hfault := FeedTask.fault?_of_yields hyields hf
    have hstops := hh.stops_eq ht hf ?_
    · rw [FeedTask.ending, hfault] at hstops
      rw [FeedTask.label_of_isGlobal hg] at hfault
      exact ⟨cause, hcause, FeedTask.outcome?_of_fault? hfault, hstops⟩
    · rintro ⟨message, hcrash⟩
      rw [hcrash] at hyields
      cases hyields
  · rcases ha.sincere.fault?_cases ht he with hgenuine | ⟨cause, hcause, rfl⟩
    · rcases hgenuine with hplain | ⟨-, htrue⟩
      · rw [hplain] at hcan
        cases hcan
      · rw [hcancelled] at htrue
        cases htrue
    · rw [FeedTask.label_of_isGlobal hg]
      exact ⟨cause, hcause, rfl⟩

end

/-- In a read that nobody cancels, the global feed is stopped only for the faults of its streams, after all
stream feeds have been waited for and while it is still running, and if it gives way for that it ends with
just these faults as the cause. A stream feed is never cancelled, and comes to the end to which its own
turns take it when it is by itself. What is said to the board in the steps is all that happens to it: from it
come the standing of every stream and all traces that are written. -/
theorem global_stopped_for_members (settings : Settings) (factories : Nat)
    (global : Option (Global × Option Value)) (streams : List (Stream × Option Value))
    (ops : List Ledger.Op) {moves : List Move} {s' : System} {effects : List Effect}
    (hrun : (start settings factories (.used global streams ops)).run moves = some (s', effects))
    (hcancel : Move.cancel ∉ moves) :
    (∀ (g : Nat) (t : FeedTask), s'.feeds[g]? = some t → t.feed.isGlobal = true →
      GoesWithStreams ((start settings factories (.used global streams ops)).trace moves) s' g t) ∧
    (∀ (i : Nat) (t : FeedTask), s'.feeds[i]? = some t → t.feed.isGlobal = false →
      t.cancelledIn (s'.feedView i) = false ∧
      ∃ u, FeedTask.replay { settings, factories, index := i, cancelled := false }
          (.used global streams ops) { feed := t.feed }
          (turns i ((start settings factories (.used global streams ops)).trace moves)) = some u ∧
        t.outcome? = u.outcome?) ∧
    (∀ st ∈ (start settings factories (.used global streams ops)).trace moves,
      (st.after.shared.board, traces st.effects) = st.before.shared.board.run st.touch?.toList) ∧
    (s'.shared.board, traces effects) = (Board.make (Ledger.used global streams ops).feeds).run
      (touches ((start settings factories (.used global streams ops)).trace moves)) := by
  have hstart := attended_start settings factories (Ledger.nodup_keys_used global streams ops)
  obtain ⟨ha, hh⟩ := hstart.run_heralded (heralded_start _ _ _) hrun
  obtain ⟨hcancelled, hcoupled, hyielding⟩ :=
    run_uncancelled hstart (coupled_start _ _ _) rfl hrun hcancel
  refine ⟨fun g t ht hg => hcoupled.goesWithStreams ha hh hyielding hcancelled ht hg,
    fun i t ht hg => ⟨?_, ?_⟩, fun st hst => step_board (step_of_mem_trace hst), board_eq_trace hrun⟩
  · rw [FeedTask.cancelledIn, (ha.orderly.free i t ht hg).1]
    simp [feedView, hcancelled]
  · have hfeed := ha.orderly.feed_eq i t ht
    have ht₀ : (start settings factories (.used global streams ops)).feeds[i]? =
        some { feed := t.feed } := by
      simp only [start, List.getElem?_map, hfeed, Option.map_some]
    obtain ⟨t', ht', hreplay⟩ := (orderly_start settings factories _).stream_replay hrun hcancel ht₀ hg
    rw [ht] at ht'; cases ht'
    exact ⟨_, hreplay, (FeedTask.outcome?_bare t).symm⟩

/-- Two streams, read on their own and together. -/
def usersAndOrders : List Stream := [{ id := ⟨"users", none⟩ }, { id := ⟨"orders", none⟩ }]

/-- No factory takes the first stream, the second one is read to its end, and the global feed has not come far
when the supervisor looks at it. -/
def oneMemberFails : List Move :=
  [ .supervise, .feed 1 .go, .feed 1 (.made .none), .feed 1 .go, .feed 1 .go, .feed 1 .go, .feed 1 .go
  , .feed 2 .go, .feed 2 (.made .creator), .feed 2 .go, .feed 2 (.probe .ready), .feed 2 .go
  , .feed 2 .go, .feed 2 .go, .feed 2 (.created (.readers [])), .feed 2 .go, .feed 2 .go, .feed 2 .go
  , .feed 2 .go, .feed 2 .go, .feed 2 .go, .feed 2 .go, .feed 2 .go, .feed 2 .go, .feed 2 .go
  , .feed 2 .go, .feed 2 .go, .feed 2 .go, .feed 2 .go, .feed 2 .go, .feed 2 .go
  , .feed 0 .go, .feed 0 (.made .creator)
  , .supervise, .supervise, .supervise, .supervise, .supervise
  , .feed 0 .go, .feed 0 .go, .feed 0 .go, .feed 0 .go, .feed 0 .go
  , .supervise, .supervise, .supervise, .supervise ]

/-- The global feed is stopped for the fault of its first stream, and its second stream ends well: a stream of
which it is only said that the global feed has stopped is complete. -/
theorem global_stopped_for_members_users :
    ∃ s' effects t u,
      (start {} 1 (.used (some (⟨usersAndOrders⟩, none)) (usersAndOrders.map (·, none)) [])).run
        oneMemberFails = some (s', effects) ∧ Move.cancel ∉ oneMemberFails ∧
      s'.feeds[0]? = some t ∧ t.cause = some (.noFactory "users") ∧
      t.outcome? = some (.error (.feedHalted "global" (.noFactory "users"))) ∧
      (∃ st ∈ (start {} 1 (.used (some (⟨usersAndOrders⟩, none)) (usersAndOrders.map (·, none)) [])).trace
        oneMemberFails, st.Decides 0 (.noFactory "users")) ∧
      s'.feeds[2]? = some u ∧ u.outcome? = some (.ok ()) ∧ u.cancelledIn (s'.feedView 2) = false ∧
      traces effects = [ ⟨⟨"users", none⟩, .started⟩, ⟨⟨"orders", none⟩, .started⟩
                       , ⟨⟨"users", none⟩, .incomplete⟩, ⟨⟨"orders", none⟩, .complete⟩ ] := by
  have hrun : (start {} 1 (.used (some (⟨usersAndOrders⟩, none)) (usersAndOrders.map (·, none)) [])).run
      oneMemberFails = some (_, _) := rfl
  have hcancel : Move.cancel ∉ oneMemberFails := by simp [oneMemberFails]
  obtain ⟨hglobal, hstream, -, hboard⟩ := global_stopped_for_members {} 1 (some (⟨usersAndOrders⟩, none))
    (usersAndOrders.map (·, none)) [] hrun hcancel
  obtain ⟨cause, hcause, heq⟩ := (hglobal 0 _ rfl rfl).fault _ rfl rfl
  cases heq
  exact ⟨_, _, _, _, hrun, hcancel, rfl, hcause, rfl, ((hglobal 0 _ rfl rfl).cause _).mp hcause, rfl, rfl,
    (hstream 2 _ rfl rfl).1, (congrArg Prod.snd hboard).trans rfl⟩

end System

end Intake.Read
