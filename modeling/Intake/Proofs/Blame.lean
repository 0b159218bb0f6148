import Intake.Proofs.Round
import Intake.Proofs.Supervision
/-!
# Where the faults of a feed come from

A fault passes many hands on its way: a partition, its round, the task of the feed, the supervisor. Connector
code may report any fault at all, also one that says "cancelled". What a feed ends with is genuine all the
same: a fault that says that something was stopped appears only when something was.

* `Round.Rooted`: the faults recorded in a round, the lowest of which is never that of a stopped partition.
* `FeedTask.Sound`: the fault that a task carries, phase by phase, up to the fault it ends with.
* `System.Sincere`: both for all feeds of a read, and that no feed is stopped without a cause. It holds at the
  start (`sincere_start`) and every step keeps it (`Sincere.step`).
-/

namespace Intake

/-- A fault that says what went wrong, and says that something was stopped only when it was cancelled. -/
def Fault.Genuine (cancelled : Bool) (e : Fault) : Prop :=
  e.isCancellation = false ∨ e = .cancelled ∧ cancelled = true

theorem Fault.Genuine.mono {c c' : Bool} {e : Fault} (h : e.Genuine c) (hc : c = true → c' = true) :
    e.Genuine c' := by
  rcases h with hplain | ⟨rfl, htrue⟩
  · exact Or.inl hplain
  · exact Or.inr ⟨rfl, hc htrue⟩

/-- The notice that tells how a feed ended that has this fault. -/
def Fault.notice : Fault → Notice
  | .feedHalted .. => .stopped
  | _ => .failure

theorem Fault.Genuine.notice {c : Bool} {e : Fault} (h : e.Genuine c) : e.notice = .failure := by
  rcases h with hplain | ⟨rfl, -⟩
  · unfold Fault.notice
    split
    · cases hplain
    · rfl
  · rfl

namespace Read

/-! ### Rounds -/

namespace Round

/-- The partition of an index has failed. -/
def FailedAt (r : Round) (j : Nat) : Prop := ∃ e, r.results[j]? = some (some (.error e))

/-- A fault that is recorded in a round is genuine, or a partition before it has failed as well. -/
def Rooted (r : Round) (cancelled : Bool) : Prop :=
  ∀ j e, r.results[j]? = some (some (.error e)) → e.Genuine cancelled ∨ ∃ k, k < j ∧ r.FailedAt k

theorem rooted_start (feed : String) (number size : Nat) (c : Bool) :
    (start feed number size).Rooted c := by
  intro j e hj
  simp [start, List.getElem?_replicate] at hj

theorem Rooted.mono {r : Round} {c c' : Bool} (h : r.Rooted c) (hc : c = true → c' = true) :
    r.Rooted c' := by
  intro j e hj
  rcases h j e hj with hgenuine | hbefore
  · exact Or.inl (hgenuine.mono hc)
  · exact Or.inr hbefore

/-- A fault that is wrapped with its place is genuine, whatever it wraps; the only one that is not wrapped
is cancellation of the feed. -/
theorem genuine_of_judge {r : Round} {c : Bool} {i : Nat} {e : Ended} {f : Fault}
    (h : r.judge c i e = .error f) : f.Genuine c := by
  rcases eq_of_judge h with hcancelled | ⟨source, rfl⟩
  · exact Or.inr hcancelled
  · exact Or.inl rfl

theorem getElem?_record (r : Round) (i : Nat) (x : Except Fault Checkpoint) (j : Nat) :
    (r.record i x).results[j]? =
      if i = j then (r.results[j]?).map fun _ => some x else r.results[j]? := by
  simp only [record, List.getElem?_set]
  by_cases hij : i = j
  · subst hij
    by_cases hi : i < r.results.length
    · simp [hi]
    · simp [hi]
  · simp [hij]

/-- Recording the end of a partition that has no result yet, and stopping those after it when it is a
failure, keeps every fault rooted. -/
theorem Rooted.observe {r : Round} {c : Bool} (h : r.Rooted c) (i : Nat) (e : Ended) :
    (r.observe c i e).1.Rooted c := by
  unfold Round.observe
  split
  · exact h
  · rename_i hopen
    split
    · -- a checkpoint adds no fault and takes none away
      rename_i cp _
      intro j f hj
      rw [getElem?_record] at hj
      split at hj
      · obtain ⟨_, -, hx⟩ := Option.map_eq_some_iff.mp hj
        cases hx
      · refine (h j f hj).imp_right ?_
        rintro ⟨k, hkj, f', hk⟩
        refine ⟨k, hkj, f', ?_⟩
        rw [getElem?_record, if_neg, hk]
        rintro rfl
        exact hopen ((r.isRecorded_iff i).mpr ⟨_, hk⟩)
    · rename_i failure hjudge
      have hself : i < r.results.length →
          ((r.haltAfter i failure).record i (.error failure)).FailedAt i := by
        intro hlen
        refine ⟨failure, ?_⟩
        rw [getElem?_record, if_pos rfl, getElem?_haltAfter, List.getElem?_eq_getElem hlen]
        rfl
      intro j f hj
      rw [getElem?_record] at hj
      split at hj
      · -- the fault just recorded
        obtain ⟨_, -, hx⟩ := Option.map_eq_some_iff.mp hj
        cases hx
        exact Or.inl (genuine_of_judge hjudge)
      · rename_i hij
        rw [getElem?_haltAfter] at hj
        obtain ⟨entry, hentry, hj⟩ := Option.map_eq_some_iff.mp hj
        split at hj
        · -- a fault that was there
          cases hj
          refine (h j f hentry).imp_right ?_
          rintro ⟨k, hkj, f', hk⟩
          by_cases hik : i = k
          · subst hik
            exact ⟨i, hkj, hself (List.getElem?_eq_some_iff.mp hk).1⟩
          · refine ⟨k, hkj, f', ?_⟩
            rw [getElem?_record, if_neg hik, getElem?_haltAfter, hk]
            rfl
        · split at hj
          · -- a partition that is stopped has the failed one before it
            rename_i hlt
            have hlen := (List.getElem?_eq_some_iff.mp hentry).1
            exact Or.inr ⟨i, hlt, hself (Nat.lt_trans hlt hlen)⟩
          · cases hj

theorem Rooted.applyNext {r : Round} {c : Bool} (h : r.Rooted c) : r.applyNext.Rooted c := h

/-- The failure of the lowest index has none before it. -/
theorem exists_of_failure? {r : Round} {e : Fault} (h : r.failure? = some e) :
    ∃ j, r.results[j]? = some (some (.error e)) ∧ ∀ k, k < j → ¬ r.FailedAt k := by
  unfold failure? at h
  obtain ⟨before, x, after, hsplit, hx, hnone⟩ := List.findSome?_eq_some_iff.mp h
  refine ⟨before.length, ?_, ?_⟩
  · rw [hsplit, List.getElem?_append_right (Nat.le_refl _), Nat.sub_self]
    split at hx
    · cases hx
      rfl
    · cases hx
  · rintro k hk ⟨e', hk'⟩
    rw [hsplit, List.getElem?_append_left hk] at hk'
    have := hnone _ (List.mem_of_getElem? hk')
    cases this

/-- What a round fails with is genuine. -/
theorem Rooted.genuine_of_verdict {r : Round} {c : Bool} {e : Fault} (h : r.Rooted c)
    (hv : r.verdict c = .error e) : e.Genuine c := by
  unfold verdict at hv
  split at hv
  · cases hv
  · rename_i f hf
    obtain ⟨j, hj, hleast⟩ := exists_of_failure? hf
    split at hv
    · rename_i hc
      cases hv
      exact Or.inr ⟨rfl, (Bool.and_eq_true_iff.mp hc).1⟩
    · cases hv
      rcases h j _ hj with hgenuine | ⟨k, hkj, hk⟩
      · exact hgenuine
      · exact absurd hk (hleast k hkj)

end Round

/-! ### Tasks -/

namespace FeedTask

/-- How a task may end badly: with a fault of its own, or because the feed was stopped for a cause. -/
inductive Ends (v : View) (t : FeedTask) : Notice → Fault → Prop
  | failed {e : Fault} : e.Genuine v.cancelled → Ends v t .failure e
  | stopped {cause : Fault} : t.cause = some cause → Ends v t .stopped (.feedHalted t.label cause)

theorem Ends.notice_eq {v : View} {t : FeedTask} {n : Notice} {e : Fault} (h : t.Ends v n e) :
    n = e.notice := by
  cases h with
  | failed hg => exact hg.notice.symm
  | stopped => rfl

/-- A bad end stays one when the read is cancelled or a cause is given. -/
theorem Ends.mono {v v' : View} {t t' : FeedTask} {n : Notice} {e : Fault} (h : t.Ends v n e)
    (hl : t'.label = t.label) (hv : v.cancelled = true → v'.cancelled = true)
    (hc : ∀ c, t.cause = some c → t'.cause = some c) : t'.Ends v' n e := by
  cases h with
  | failed hg => exact .failed (hg.mono hv)
  | stopped hcause =>
    rw [← hl]
    exact .stopped (hc _ hcause)

end FeedTask

/-- The fault that a round ended with. -/
def RoundEnd.fault? : RoundEnd → Option Fault
  | .failed e => some e
  | _ => none

namespace FeedTask

/-- The fault that a task carries to its end. -/
def Phase.carried? : Phase → Option Fault
  | .releasing (.error e) => some e
  | .notifying (.error e) => some e
  | .locking next => next.fault?
  | .visiting _ _ next => next.fault?
  | .writing _ _ next => next.fault?
  | .failing e => some e
  | _ => none

/-- The faults that a task has recorded, carries or ends with come from where they say. -/
structure Sound (v : View) (t : FeedTask) : Prop where
  reading : ∀ r, t.phase = .reading r → r.Rooted (t.cancelledIn v)
  carried : ∀ e, t.phase.carried? = some e → e.Genuine (t.cancelledIn v)
  stopping : ∀ n e left, t.phase = .stopping n e left → t.Ends v n e
  done : ∀ e, t.phase = .done (.error e) → t.Ends v e.notice e

/-- Nothing is lost when the read or the feed is cancelled, or a cause is given to it. -/
theorem Sound.mono {v v' : View} {t t' : FeedTask} (h : t.Sound v) (hp : t'.phase = t.phase)
    (hl : t'.label = t.label) (hv : v.cancelled = true → v'.cancelled = true)
    (hh : t.halted = true → t'.halted = true) (hc : ∀ c, t.cause = some c → t'.cause = some c) :
    t'.Sound v' := by
  have hin : t.cancelledIn v = true → t'.cancelledIn v' = true := by
    simp only [cancelledIn, Bool.or_eq_true]
    exact Or.imp hv hh
  constructor
  · intro r hr
    exact (h.reading r (hp.symm.trans hr)).mono hin
  · intro e he
    rw [hp] at he
    exact (h.carried e he).mono hin
  · intro n e left hs
    exact (h.stopping n e left (hp.symm.trans hs)).mono hl hv hc
  · intro e hd
    exact (h.done e (hp.symm.trans hd)).mono hl hv hc

theorem genuine_creationFault (v : View) (t : FeedTask) (e : Fault) :
    (t.creationFault v e).Genuine (t.cancelledIn v) := by
  unfold creationFault
  split
  · rename_i hc
    exact Or.inr ⟨rfl, hc⟩
  · exact Or.inl rfl

theorem genuine_of_roundEnd {v : View} {t : FeedTask} {r : Round} {e : Fault}
    (h : r.Rooted (t.cancelledIn v)) (he : (t.roundEnd v r).fault? = some e) :
    e.Genuine (t.cancelledIn v) := by
  unfold roundEnd at he
  split at he
  · cases he
  · rename_i f hf
    cases he
    exact h.genuine_of_verdict hf

/-- Taking the end of a partition keeps the faults of its round rooted. -/
theorem rooted_join {v : View} {t t' : FeedTask} {r r' : Round} {j : Nat}
    (hr : r.Rooted (t.cancelledIn v)) (h : t.join v r j = some (t', r')) :
    r'.Rooted (t.cancelledIn v) := by
  obtain ⟨p, e, -, -, -, rfl⟩ := eq_taken_of_join h
  exact hr.observe j e

/-- Every step of a task that is not stopped without a cause keeps its faults in order. -/
theorem Rule.sound {v : View} {t : FeedTask} {s : Shared} {a : Act} {next : Next}
    (h : Rule v t s a next) (hs : t.Sound v) (hcause : t.halted = true → t.cause.isSome = true) :
    next.task.Sound v := by
  -- a fault that is handed on from one phase to the next
  have hands : ∀ {p : Phase}, t.phase = p → ∀ {e}, p.carried? = some e →
      e.Genuine (t.cancelledIn v) := by
    rintro p rfl e he
    exact hs.carried e he
  cases h with
  | beginsUntracked | exhausts =>
    refine ⟨nofun, ?_, nofun, nofun⟩
    rintro e ⟨⟩
    exact Or.inl rfl
  | acquireFails =>
    refine ⟨nofun, ?_, nofun, nofun⟩
    rintro e ⟨⟩
    exact genuine_creationFault v t _
  | createFails =>
    refine ⟨nofun, ?_, nofun, nofun⟩
    rintro e ⟨⟩
    exact Or.inl rfl
  | quits hp hc =>
    refine ⟨nofun, ?_, nofun, nofun⟩
    rintro e ⟨⟩
    exact Or.inr ⟨rfl, hc⟩
  | @releases r hp =>
    refine ⟨nofun, ?_, nofun, nofun⟩
    intro e he
    cases r with
    | error => exact hands hp he
    | ok => cases he
  | notifiesFailure hp | locks hp | visits hp | hasVisited hp | writes hp =>
    exact ⟨nofun, fun e he => hands hp he, nofun, nofun⟩
  | starts =>
    refine ⟨?_, nofun, nofun, nofun⟩
    rintro r ⟨⟩
    exact Round.rooted_start _ _ _ _
  | applies hp =>
    refine ⟨?_, nofun, nofun, nofun⟩
    rintro r ⟨⟩
    exact (hs.reading _ hp).applyNext
  | joins hp _ _ hj =>
    have hr := rooted_join (hs.reading _ hp) hj
    obtain ⟨parts, rfl⟩ := join_frame hj
    refine ⟨?_, nofun, nofun, nofun⟩
    rintro r ⟨⟩
    exact hr
  | closes hp =>
    refine ⟨nofun, ?_, nofun, nofun⟩
    intro e he
    exact genuine_of_roundEnd (hs.reading _ hp) he
  | @unlocks count next hp =>
    cases next with
    | last | more => exact ⟨nofun, nofun, nofun, nofun⟩
    | failed e => exact ⟨nofun, fun e he => hands hp he, nofun, nofun⟩
  | stopsForCause _ hc =>
    refine ⟨nofun, nofun, ?_, nofun⟩
    rintro n e left ⟨⟩
    exact .stopped hc
  | @stops e hp hnone =>
    refine ⟨nofun, nofun, ?_, nofun⟩
    rintro n e' left ⟨⟩
    refine .failed ?_
    rcases hands hp rfl with hplain | ⟨rfl, hin⟩
    · exact Or.inl hplain
    · -- without a cause the feed was not stopped, so the read was cancelled
      refine Or.inr ⟨rfl, ?_⟩
      rcases Bool.or_eq_true_iff.mp hin with hread | hhalted
      · exact hread
      · have := hcause hhalted
        rw [hnone rfl] at this
        cases this
  | saysStopped hp =>
    refine ⟨nofun, nofun, ?_, nofun⟩
    rintro n e left ⟨⟩
    exact (hs.stopping _ _ _ hp).mono rfl id fun _ => id
  | hasStopped hp =>
    refine ⟨nofun, nofun, nofun, ?_⟩
    rintro e ⟨⟩
    have hends := hs.stopping _ _ _ hp
    rw [← hends.notice_eq]
    exact hends.mono rfl id fun _ => id
  | _ => exact ⟨nofun, nofun, nofun, nofun⟩

end FeedTask

/-! ### The whole read -/

namespace System

/-- The faults of all feeds come from where they say, and whoever is stopped has a cause. -/
structure Sincere (s : System) : Prop where
  sound : ∀ (i : Nat) (t : FeedTask), s.feeds[i]? = some t → t.Sound (s.feedView i)
  caused : ∀ (i : Nat) (t : FeedTask), s.feeds[i]? = some t → t.halted = true → t.cause.isSome = true
  halting : ∀ (left : List Nat) (i : Nat) (t : FeedTask), s.watch = .halting left i →
    s.feeds[i]? = some t → t.cause.isSome = true

theorem sincere_start (settings : Settings) (factories : Nat) (l : Ledger) :
    (start settings factories l).Sincere := by
  have hnew : ∀ (i : Nat) (t : FeedTask), (start settings factories l).feeds[i]? = some t →
      t.phase = .asleep ∧ t.halted = false := by
    intro i t ht
    simp only [start, List.getElem?_map] at ht
    obtain ⟨feed, -, rfl⟩ := Option.map_eq_some_iff.mp ht
    exact ⟨rfl, rfl⟩
  refine ⟨fun i t ht => ?_, fun i t ht hh => ?_, fun left i t hw _ => ?_⟩
  · -- a task that has not begun is in none of the phases that carry a fault
    obtain ⟨hp, -⟩ := hnew i t ht
    refine ⟨fun r hr => ?_, fun e he => ?_, fun n e left hs => ?_, fun e hd => ?_⟩
    · rw [hp] at hr
      cases hr
    · rw [hp] at he
      cases he
    · rw [hp] at hs
      cases hs
    · rw [hp] at hd
      cases hd
  · rw [(hnew i t ht).2] at hh
    cases hh
  · cases hw

/-- A feed that the supervisor is about to stop was already so before a step, or has just been given a
cause. -/
theorem halting_step {s s' : System} {move : Move} {effects : List Effect} {left : List Nat} {i : Nat}
    (h : s.step move = some (s', effects)) (hw : s'.watch = .halting left i) :
    s.watch = .halting left i ∨ ∀ t', s'.feeds[i]? = some t' → t'.cause.isSome = true := by
  by_cases hm : move = .supervise
  · subst hm
    cases supervision_of_supervise h with
    | @blames k left u cause _ hu _ _ =>
      cases hw
      refine Or.inr fun t' ht' => ?_
      rw [List.getElem?_set_self (List.getElem?_eq_some_iff.mp hu).1] at ht'
      cases ht'
      rfl
    | _ => cases hw
  · rw [(books_step h hm).1] at hw
    exact Or.inl hw

theorem Sincere.step {s s' : System} {move : Move} {effects : List Effect} (hs : s.Sincere)
    (h : s.step move = some (s', effects)) : s'.Sincere := by
  have hview : ∀ {i}, (s.feedView i).cancelled = true → (s'.feedView i).cancelled = true :=
    cancelled_step h
  refine ⟨fun i t' ht' => ?_, fun i t' ht' hh => ?_, fun left i t' hw ht' => ?_⟩
  · obtain ⟨t, ht⟩ := exists_before h ht'
    have hsound := hs.sound i t ht
    rcases step_task h ht ht' with ⟨a, next, hm, hr, rfl⟩ | ⟨parts, releases, rfl⟩ |
      ⟨left, cause, -, rfl⟩ | ⟨left, -, rfl⟩
    · exact (hr.sound hsound (hs.caused i t ht)).mono rfl rfl hview id fun _ => id
    · exact hsound.mono rfl rfl hview id fun _ => id
    · refine hsound.mono rfl rfl hview id fun c hc => ?_
      rw [hc]
      rfl
    · exact hsound.mono rfl rfl hview (fun _ => rfl) fun _ => id
  · obtain ⟨t, ht⟩ := exists_before h ht'
    rcases step_task h ht ht' with ⟨a, next, hm, hr, rfl⟩ | ⟨parts, releases, rfl⟩ |
      ⟨left, cause, -, rfl⟩ | ⟨left, hw, rfl⟩
    · rw [hr.frame.2.1] at hh
      rw [hr.frame.2.2]
      exact hs.caused i t ht hh
    · exact hs.caused i t ht hh
    · rfl
    · exact hs.halting left i t hw ht
  · obtain ⟨t, ht⟩ := exists_before h ht'
    rcases halting_step h hw with hbefore | hgiven
    · have hcause := hs.halting left i t hbefore ht
      rcases step_task h ht ht' with ⟨a, next, hm, hr, rfl⟩ | ⟨parts, releases, rfl⟩ |
        ⟨_, cause, -, rfl⟩ | ⟨_, -, rfl⟩
      · rw [hr.frame.2.2]
        exact hcause
      · exact hcause
      · rfl
      · exact hcause
    · exact hgiven t' ht'

end System

end Read

end Intake
