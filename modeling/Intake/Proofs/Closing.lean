import Intake.Proofs.Coupling
/-!
# How a read closes

When the supervisor gives the result of a read, every feed is over and has given its notices. Two things
follow.

* Every stream that some feed reads is closed, with a verdict that is about the ends of all feeds that read it
  (`streams_closed_with_verdict`).
* The result accounts for every feed that failed, and the fault that counts is a genuine one
  (`result_accounts_for_failures`).
-/

namespace Intake.Read

/-! ### Closing the streams -/

namespace FeedTask

theorem ending_eq_complete_iff {t : FeedTask} (hf : t.finished = true) :
    t.ending = .complete ↔ t.outcome? = some (.ok ()) := by
  rw [← isSome_outcome?] at hf
  unfold ending fault?
  generalize t.outcome? = o at hf ⊢
  rcases o with _ | e | _
  · cases hf
  · cases e <;> simp [Fault.notice]
  · simp

theorem ending_ne_failure_iff {t : FeedTask} (hf : t.finished = true) :
    t.ending ≠ .failure ↔
      t.outcome? = some (.ok ()) ∨ ∃ label cause, t.outcome? = some (.error (.feedHalted label cause)) := by
  rw [← isSome_outcome?] at hf
  unfold ending fault?
  generalize t.outcome? = o at hf ⊢
  rcases o with _ | e | _
  · cases hf
  · cases e <;> simp [Fault.notice]
  · simp

end FeedTask

namespace System

/-- The feeds that read a stream end well for it: one of them comes to its end, and no other does worse than
to be stopped for the sake of others. -/
def EndsWell (s : System) (id : StreamId) : Prop :=
  (∃ t ∈ s.feeds, id ∈ t.feed.ids ∧ t.outcome? = some (.ok ())) ∧
    ∀ t ∈ s.feeds, id ∈ t.feed.ids →
      t.outcome? = some (.ok ()) ∨ ∃ label cause, t.outcome? = some (.error (.feedHalted label cause))

section
variable {feeds : List Feed} {s : System} {h : List Board.Touch} {id : StreamId}

/-- Every feed is over, and has said of each of its streams how it ended. -/
structure Settled (feeds : List Feed) (s : System) (h : List Board.Touch) : Prop where
  ended : ∀ (i : Nat) (t : FeedTask), s.feeds[i]? = some t → t.finished = true
  listed : ∀ feed ∈ feeds, ∃ (i : Nat) (t : FeedTask), s.feeds[i]? = some t ∧ t.feed = feed
  known : ∀ x ∈ h, ∃ (i : Nat) (t : FeedTask), s.feeds[i]? = some t ∧ t.feed.key = x.feed
  stops : ∀ (i : Nat) (t : FeedTask), s.feeds[i]? = some t →
    Board.stopsOf t.feed.key h = t.feed.ids.map (⟨t.feed.key, t.ending, ·⟩)

/-- A touch by which a feed says that it has ended says how, and is about one of its streams. -/
theorem Settled.of_stop (hs : Settled feeds s h) {x : Board.Touch} (hx : x ∈ h)
    (hn : x.notice ≠ .starting) :
    ∃ (i : Nat) (t : FeedTask), s.feeds[i]? = some t ∧ t.feed.key = x.feed ∧ x.id ∈ t.feed.ids ∧
      t.ending = x.notice := by
  obtain ⟨i, t, ht, hkey⟩ := hs.known x hx
  have hmem : x ∈ Board.stopsOf t.feed.key h :=
    List.mem_filter.mpr ⟨hx, decide_eq_true ⟨hkey.symm, hn⟩⟩
  rw [hs.stops i t ht] at hmem
  obtain ⟨id, hid, rfl⟩ := List.mem_map.mp hmem
  exact ⟨i, t, ht, rfl, hid, rfl⟩

theorem Settled.over_stream (hs : Settled feeds s h) (id : StreamId) : Board.Over feeds id h := by
  intro feed hfeed hid
  obtain ⟨i, t, ht, rfl⟩ := hs.listed feed hfeed
  have hmem : (⟨t.feed.key, t.ending, id⟩ : Board.Touch) ∈ Board.stopsOf t.feed.key h := by
    rw [hs.stops i t ht]
    exact List.mem_map_of_mem hid
  obtain ⟨hin, hstop⟩ := List.mem_filter.mp hmem
  exact ⟨_, hin, rfl, rfl, (of_decide_eq_true hstop).2⟩

/-- What has been said of the ends of the feeds that read a stream, up to a point where all of them have said
something, is how they ended. -/
theorem Settled.heard_iff (hs : Settled feeds s h) {first later : List Board.Touch}
    (hsplit : h = first ++ later) (hover : Board.Over feeds id first) (ho : Orderly feeds s)
    (hkeys : (feeds.map Feed.key).Nodup) {n : Notice} (hn : n ≠ .starting) :
    Board.Heard id n first ↔ ∃ t ∈ s.feeds, id ∈ t.feed.ids ∧ t.ending = n := by
  have hsub : ∀ {x}, x ∈ first → x ∈ h := fun hx => hsplit ▸ List.mem_append_left _ hx
  constructor
  · rintro ⟨x, hx, rfl, rfl⟩
    obtain ⟨i, t, ht, -, hid, hending⟩ := hs.of_stop (hsub hx) hn
    exact ⟨t, List.mem_of_getElem? ht, hid, hending⟩
  · rintro ⟨t, hmem, hid, rfl⟩
    obtain ⟨i, ht⟩ := List.mem_iff_getElem?.mp hmem
    have hlisted := List.mem_of_getElem? (ho.feed_eq i t ht)
    obtain ⟨x, hx, hxid, hxkey, hxn⟩ := hover t.feed hlisted hid
    obtain ⟨k, u, hu, hukey, -, hending⟩ := hs.of_stop (hsub hx) hxn
    have hik := ho.index_eq hkeys ht hu (hxkey.symm.trans hukey.symm)
    subst hik
    rw [ht] at hu; cases hu
    exact ⟨x, hx, hxid, hending.symm⟩

theorem Settled.endsWell_iff (hs : Settled feeds s h) (id : StreamId) :
    s.EndsWell id ↔ (∃ t ∈ s.feeds, id ∈ t.feed.ids ∧ t.ending = .complete) ∧
      ¬ ∃ t ∈ s.feeds, id ∈ t.feed.ids ∧ t.ending = .failure := by
  have hover : ∀ t ∈ s.feeds, t.finished = true := by
    intro t ht
    obtain ⟨i, hi⟩ := List.mem_iff_getElem?.mp ht
    exact hs.ended i t hi
  unfold EndsWell
  refine and_congr (exists_congr fun t => and_congr_right fun ht => ?_) ?_
  · rw [FeedTask.ending_eq_complete_iff (hover t ht)]
  · constructor
    · rintro hall ⟨t, ht, hid, hfailure⟩
      exact (FeedTask.ending_ne_failure_iff (hover t ht)).mpr (hall t ht hid) hfailure
    · intro hnone t ht hid
      rw [← FeedTask.ending_ne_failure_iff (hover t ht)]
      exact fun hfailure => hnone ⟨t, ht, hid, hfailure⟩

/-- A stream that some feed reads has been closed, with the verdict that the ends of its feeds call for. -/
theorem Settled.verdicts_eq (hs : Settled feeds s h) (ho : Orderly feeds s)
    (hkeys : (feeds.map Feed.key).Nodup) (hread : Board.IsRead feeds id) {standing : Standing}
    {vs : List Verdict} (hstage : Board.Stage feeds id h standing vs) :
    ∃ verdict, vs = [.started, verdict] ∧
      (s.EndsWell id → verdict = .complete) ∧ (¬ s.EndsWell id → verdict = .incomplete) := by
  have hover := hs.over_stream id
  cases hstage with
  | pending hno => exact absurd (hover.touched hread) hno
  | running _ hopen => exact absurd hover hopen
  | @done before after x hsplit _ hclosed =>
    have hsplit' : h = (before ++ [x]) ++ after := by
      rw [hsplit, List.append_assoc]
      rfl
    -- the verdict was given before some of the touches, but nothing that counts came after it
    have hheard : ∀ n, n ≠ Notice.starting → (Board.Heard id n (before ++ [x]) ↔
        ∃ t ∈ s.feeds, id ∈ t.feed.ids ∧ t.ending = n) :=
      fun n hn => hs.heard_iff hsplit' hclosed ho hkeys hn
    have hiff : Board.Heard id .complete (before ++ [x]) ∧ ¬ Board.Heard id .failure (before ++ [x]) ↔
        s.EndsWell id := by
      rw [hheard .complete nofun, hheard .failure nofun, hs.endsWell_iff]
    refine ⟨_, rfl, fun hwell => ?_, fun hill => ?_⟩
    · rw [Board.final, if_pos (hiff.mpr hwell)]
    · rw [Board.final, if_neg fun hc => hill (hiff.mp hc)]

theorem Attended.settled (ha : Attended feeds s) (hh : Heralded h s) (hawaited : s.awaited = [])
    (hlen : s.feeds.map (·.feed) = feeds) : Settled feeds s h := by
  obtain ⟨joined, hj⟩ := ha.joined
  have hover := (hj.of_awaited_eq_nil hawaited).1
  refine ⟨hover, fun feed hfeed => ?_, hh.known, fun i t ht => ?_⟩
  · rw [← hlen] at hfeed
    obtain ⟨t, ht, rfl⟩ := List.mem_map.mp hfeed
    obtain ⟨i, hi⟩ := List.mem_iff_getElem?.mp ht
    exact ⟨i, t, hi, rfl⟩
  · apply hh.stops_eq ht (hover i t ht)
    rw [hawaited]
    exact fun _ => List.not_mem_nil

end

theorem map_feed_run {s s' : System} {moves : List Move} {effects : List Effect}
    (h : s.run moves = some (s', effects)) : s'.feeds.map (·.feed) = s.feeds.map (·.feed) :=
  run_induction (P := fun _ s₁ => s₁.feeds.map (·.feed) = s.feeds.map (·.feed)) h rfl
    fun _ _ _ hst hbefore => (map_feed_step hst).trans hbefore

theorem map_feed_start (settings : Settings) (factories : Nat) (l : Ledger) :
    (start settings factories l).feeds.map (·.feed) = l.feeds := by
  rw [start, List.map_map]
  exact List.map_id _

/-- When a read is over, every feed is, and every stream that some feed reads has been said to start and to
end, once each. It is said to be complete when the feeds that read it end well for it, and incomplete
otherwise. -/
theorem streams_closed_with_verdict (settings : Settings) (factories : Nat)
    (global : Option (Global × Option Value)) (streams : List (Stream × Option Value))
    (ops : List Ledger.Op) {moves : List Move} {s' : System} {effects : List Effect}
    {r : Except Fault Unit}
    (hrun : (start settings factories (.used global streams ops)).run moves = some (s', effects))
    (hover : s'.result? = some r) :
    (∀ t ∈ s'.feeds, t.outcome?.isSome = true) ∧
    ∀ id, Board.IsRead (Ledger.used global streams ops).feeds id →
      ∃ verdict, Board.verdicts id (traces effects) = [.started, verdict] ∧
        (s'.EndsWell id → verdict = .complete) ∧ (¬ s'.EndsWell id → verdict = .incomplete) := by
  have hstart := attended_start settings factories (Ledger.nodup_keys_used global streams ops)
  obtain ⟨ha, hh⟩ := hstart.run_heralded (heralded_start _ _ _) hrun
  have hawaited := (unseen_of_result? (Option.isSome_of_eq_some hover)).2.1
  have hsettled := ha.settled hh hawaited ((map_feed_run hrun).trans (map_feed_start _ _ _))
  refine ⟨fun t ht => ?_, fun id hread => ?_⟩
  · obtain ⟨i, hi⟩ := List.mem_iff_getElem?.mp ht
    rw [FeedTask.isSome_outcome?]
    exact hsettled.ended i t hi
  · -- the board has heard all touches of the read
    have hfollows := (Board.follows_make (Ledger.used global streams ops).feeds).run
      (touches ((start settings factories (.used global streams ops)).trace moves))
    have htraces : traces effects = _ := congrArg Prod.snd (board_eq_trace hrun)
    obtain ⟨e, -, hknows⟩ := hfollows.known id hread
    rw [htraces]
    exact hsettled.verdicts_eq ha.orderly ha.keys hread hknows.stage

/-- The global feed is stopped for its first stream. So the second one, which its own feed reads to the end,
is complete, and the first one is not. -/
theorem streams_closed_with_verdict_orders :
    ∃ s' effects r,
      (start {} 1 (.used (some (⟨usersAndOrders⟩, none)) (usersAndOrders.map (·, none)) [])).run
        oneMemberFails = some (s', effects) ∧ s'.result? = some r ∧
      Board.verdicts ⟨"orders", none⟩ (traces effects) = [.started, .complete] ∧
      s'.EndsWell ⟨"orders", none⟩ ∧
      Board.verdicts ⟨"users", none⟩ (traces effects) = [.started, .incomplete] ∧
      ¬ s'.EndsWell ⟨"users", none⟩ := by
  have hrun : (start {} 1 (.used (some (⟨usersAndOrders⟩, none)) (usersAndOrders.map (·, none)) [])).run
      oneMemberFails = some (_, _) := rfl
  obtain ⟨-, hclosed⟩ := streams_closed_with_verdict {} 1 (some (⟨usersAndOrders⟩, none))
    (usersAndOrders.map (·, none)) [] hrun rfl
  obtain ⟨orders, horders, -, hill⟩ := hclosed ⟨"orders", none⟩ (by decide)
  obtain ⟨users, husers, hwell, -⟩ := hclosed ⟨"users", none⟩ (by decide)
  cases horders
  cases husers
  refine ⟨_, _, _, hrun, rfl, rfl, ?_, rfl, ?_⟩
  · by_contra hc
    cases hill hc
  · intro hc
    cases hwell hc

/-! ### Who stopped whom -/

/-- Some stream feed has failed. -/
def StreamFailed (s : System) : Prop :=
  ∃ (k : Nat) (u : FeedTask) (e : Fault),
    s.feeds[k]? = some u ∧ u.feed.isGlobal = false ∧ u.fault? = some e

/-- A feed is given a cause only when some stream feed has failed. -/
def Grounded (s : System) : Prop :=
  ∀ (i : Nat) (t : FeedTask), s.feeds[i]? = some t → t.cause.isSome = true → s.StreamFailed

theorem grounded_start (settings : Settings) (factories : Nat) (l : Ledger) :
    (start settings factories l).Grounded := by
  intro i t ht hc
  simp only [start, List.getElem?_map] at ht
  obtain ⟨feed, -, rfl⟩ := Option.map_eq_some_iff.mp ht
  cases hc

/-- A fault that is noted for a stream is one of a stream feed. -/
theorem Attended.streamFailed {feeds : List Feed} {s : System} (ha : Attended feeds s) {feed : Feed}
    {cause : Fault} (hc : Fault.aggregate? (s.memberFaults feed) = some cause) : s.StreamFailed := by
  have hne : s.memberFaults feed ≠ [] := by
    intro hnil
    rw [hnil] at hc
    cases hc
  obtain ⟨e, he⟩ := List.exists_mem_of_ne_nil _ hne
  obtain ⟨id, -, hfind⟩ := List.mem_filterMap.mp he
  obtain ⟨joined, hj⟩ := ha.joined
  obtain ⟨k, -, u, hu, hkey, hfault⟩ := (hj.noted id e).mp hfind
  refine ⟨k, u, e, hu, ?_, hfault⟩
  rcases hfeed : u.feed with st | g
  · rfl
  · rw [hfeed] at hkey
    cases hkey

theorem Grounded.step {feeds : List Feed} {s s' : System} {move : Move} {effects : List Effect}
    (hg : s.Grounded) (ha : Attended feeds s) (h : s.step move = some (s', effects)) : s'.Grounded := by
  -- who failed has failed for good
  have hkeep : s.StreamFailed → s'.StreamFailed := by
    rintro ⟨k, u, e, hu, hstream, hfault⟩
    have hover : u.finished = true := by
      rw [← FeedTask.isSome_outcome?, FeedTask.outcome?_of_fault? hfault]
      rfl
    obtain ⟨u', hu', hp, hfeed⟩ := fixed_step h hu hover
    exact ⟨k, u', e, hu', hfeed ▸ hstream, (FeedTask.fault?_congr hp hfeed).trans hfault⟩
  intro i t' ht' hc
  obtain ⟨t, ht⟩ := exists_before h ht'
  apply hkeep
  rcases step_task h ht ht' with ⟨a, next, -, hr, rfl⟩ | ⟨_, _, rfl⟩ | ⟨_, _, ⟨-, -, -, hagg, -⟩, rfl⟩ |
    ⟨_, -, rfl⟩
  · rw [hr.frame.2.2] at hc
    exact hg i t ht hc
  · exact hg i t ht hc
  · exact ha.streamFailed hagg
  · exact hg i t ht hc

theorem Attended.run_grounded {feeds : List Feed} {s s' : System} {moves : List Move}
    {effects : List Effect} (ha : Attended feeds s) (hg : s.Grounded)
    (h : s.run moves = some (s', effects)) : Attended feeds s' ∧ s'.Grounded := by
  refine run_induction (P := fun _ s₁ => Attended feeds s₁ ∧ s₁.Grounded) h ⟨ha, hg⟩ ?_
  rintro _ st - hst ⟨hbefore, hgbefore⟩
  exact ⟨hbefore.step hst, hgbefore.step hbefore hst⟩

/-! ### The last step of the supervisor -/

/-- A read is cancelled when somebody has cancelled it. -/
theorem cancelled_run {s s' : System} {moves : List Move} {effects : List Effect}
    (h : s.run moves = some (s', effects)) :
    s'.cancelled = true ↔ s.cancelled = true ∨ Move.cancel ∈ moves := by
  induction moves generalizing s effects with
  | nil =>
    cases h
    simp
  | cons move rest ih =>
    obtain ⟨mid, first, later, hm, hl, rfl⟩ := run_cons h
    rw [ih hl, List.mem_cons, ← or_assoc]
    refine or_congr_left ?_
    by_cases hcancel : move = .cancel
    · subst hcancel
      cases hm
      simp
    · rw [(frame_step hm).2.2 hcancel]
      simp [Ne.symm hcancel]

theorem result?_step {s s' : System} {move : Move} {effects : List Effect} {r : Except Fault Unit}
    (h : s.step move = some (s', effects)) (hr : s.result? = some r) : s'.result? = some r := by
  have hw : s.watch = .done r := by
    unfold result? at hr
    split at hr
    · cases hr
      assumption
    · cases hr
  by_cases hm : move = .supervise
  · subst hm
    cases supervision_of_supervise h with
    | _ hw' => rw [hw] at hw'; cases hw'
  · rw [result?, (books_step h hm).1, hw]

/-- The result is given by one step of the supervisor, which it makes when it is about to close. -/
theorem exists_closing {s s' : System} {moves : List Move} {effects : List Effect}
    {r : Except Fault Unit} (h : s.run moves = some (s', effects)) (hopen : s.result? = none)
    (hover : s'.result? = some r) :
    ∃ before after s₁ s₂ first second later, moves = before ++ .supervise :: after ∧
      s.run before = some (s₁, first) ∧ s₁.watch = .closing ∧
      s₁.step .supervise = some (s₂, second) ∧ s₂.result? = some r ∧
      s₂.run after = some (s', later) ∧ r = outcome s₁.cancelled s₁.faults := by
  induction moves generalizing s effects with
  | nil =>
    cases h
    rw [hopen] at hover
    cases hover
  | cons move rest ih =>
    obtain ⟨mid, first, later, hm, hl, rfl⟩ := run_cons h
    rcases hmid : mid.result? with _ | r'
    · obtain ⟨before, after, s₁, s₂, one, two, three, rfl, hrun, hrest⟩ := ih hl hmid
      exact ⟨move :: before, after, s₁, s₂, _, two, three, rfl, run_cons_of hm hrun, hrest⟩
    · have hkept := run_induction (P := fun _ s₁ => s₁.result? = some r') hl hmid
        fun _ _ _ hst hbefore => result?_step hst hbefore
      rw [hover] at hkept
      cases hkept
      by_cases hsup : move = .supervise
      · subst hsup
        have hstep := hm
        cases supervision_of_supervise hm with
        | closes hw =>
          cases hmid
          exact ⟨[], rest, s, _, [], _, later, rfl, rfl, hw, hstep, rfl, hl, rfl⟩
        | _ => cases hmid
      · -- nobody else gives a result
        rw [result?, (books_step hm hsup).1, ← result?, hopen] at hmid
        cases hmid

/-- When every feed is over, nothing changes any more in how they ended. -/
theorem outcomes_run {s s' : System} {moves : List Move} {effects : List Effect}
    (hover : ∀ (i : Nat) (t : FeedTask), s.feeds[i]? = some t → t.finished = true)
    (h : s.run moves = some (s', effects)) :
    s'.failures = s.failures ∧ ∀ (i : Nat) (t' : FeedTask), s'.feeds[i]? = some t' →
      ∃ t, s.feeds[i]? = some t ∧ t'.phase = t.phase ∧ t'.feed = t.feed := by
  have hall := run_induction (P := fun _ s₁ => s₁.roster = s.roster ∧
    ∀ (i : Nat) (t' : FeedTask), s₁.feeds[i]? = some t' →
      ∃ t, s.feeds[i]? = some t ∧ t'.phase = t.phase ∧ t'.feed = t.feed) h
    ⟨rfl, fun i t ht => ⟨t, ht, rfl, rfl⟩⟩ ?_
  · refine ⟨?_, hall.2⟩
    rw [failures_eq, failures_eq, hall.1]
    refine List.filterMap_congr fun i hi => ?_
    rw [← hall.1] at hi
    obtain ⟨t', ht'⟩ : ∃ t', s'.feeds[i]? = some t' := by
      rcases List.mem_append.mp hi with hi | hi
      · exact (exists_of_mem_indices hi).imp fun _ ht => ht.1
      · exact (exists_of_mem_indices hi).imp fun _ ht => ht.1
    obtain ⟨t, ht, hp, hfeed⟩ := hall.2 i t' ht'
    rw [faultAt_of ht, faultAt_of ht', FeedTask.fault?_congr hp hfeed]
  · rintro _ st - hst ⟨hroster, hbefore⟩
    refine ⟨(roster_step hst).trans hroster, fun i t' ht' => ?_⟩
    obtain ⟨u, hu⟩ := exists_before hst ht'
    obtain ⟨t, ht, hp, hfeed⟩ := hbefore i u hu
    have hfinished : u.finished = true := by
      rw [FeedTask.finished, hp]
      exact hover i t ht
    obtain ⟨u', hu', hp', hfeed'⟩ := fixed_step hst hu hfinished
    rw [ht'] at hu'; cases hu'
    exact ⟨t, ht, hp'.trans hp, hfeed'.trans hfeed⟩

/-! ### What the result says -/

theorem outcome_eq_ok_iff (cancelled : Bool) (faults : List Fault) :
    outcome cancelled faults = .ok () ↔ faults = [] := by
  unfold outcome
  rcases faults with _ | ⟨first, _ | ⟨second, rest⟩⟩
  · simp [Fault.aggregate?]
  all_goals
    split <;> simp [Fault.aggregate?]

theorem outcome_of_cancelled {faults : List Fault} (hne : faults ≠ [])
    (hall : ∀ e ∈ faults, e.isCancellation = true) : outcome true faults = .error .cancelled := by
  have hfirst : (true && !faults.isEmpty && faults.all Fault.isCancellation) = true := by
    simpa [hne] using hall
  rw [outcome, if_pos hfirst]

theorem outcome_cons {cancelled : Bool} {first : Fault} {rest : List Fault}
    (hnot : ¬ (cancelled = true ∧ ∀ e ∈ first :: rest, e.isCancellation = true)) :
    (rest = [] → outcome cancelled (first :: rest) = .error first) ∧
      (rest ≠ [] → outcome cancelled (first :: rest) = .error (.several first rest)) := by
  have hfirst :
      ¬ (cancelled && !(first :: rest).isEmpty && (first :: rest).all Fault.isCancellation) = true := by
    intro hc
    apply hnot
    simpa using hc
  rw [outcome, if_neg hfirst]
  constructor
  · rintro rfl
    rfl
  · intro hne
    obtain ⟨second, more, rfl⟩ := List.exists_cons_of_ne_nil hne
    rfl

/-- A read is said to be cancelled when it was, and all feeds that failed say so. This is just as it looks
because a feed that ends with the word for a cancelled read has seen that the read was cancelled. -/
theorem outcome_eq_cancelled_iff {cancelled : Bool} {faults : List Fault}
    (htrue : .cancelled ∈ faults → cancelled = true) :
    outcome cancelled faults = .error .cancelled ↔
      cancelled = true ∧ faults ≠ [] ∧ ∀ e ∈ faults, e.isCancellation = true := by
  constructor
  · intro h
    rcases faults with _ | ⟨first, rest⟩
    · rw [(outcome_eq_ok_iff _ _).mpr rfl] at h
      cases h
    · by_contra hnot
      have hother : ¬ (cancelled = true ∧ ∀ e ∈ first :: rest, e.isCancellation = true) :=
        fun hc => hnot ⟨hc.1, List.cons_ne_nil _ _, hc.2⟩
      have hcons := outcome_cons hother
      rcases rest with _ | ⟨second, more⟩
      · rw [hcons.1 rfl] at h
        cases h
        refine hnot ⟨htrue List.mem_cons_self, List.cons_ne_nil _ _, fun e he => ?_⟩
        rw [List.mem_singleton.mp he]
        rfl
      · rw [hcons.2 (List.cons_ne_nil _ _)] at h
        cases h
  · rintro ⟨rfl, hne, hall⟩
    exact outcome_of_cancelled hne hall

theorem mem_failures {s : System} {e : Fault} :
    e ∈ s.failures ↔ ∃ t ∈ s.feeds, t.fault? = some e := by
  unfold failures
  rw [List.mem_filterMap]
  constructor
  · rintro ⟨t, ht, he⟩
    rw [List.mem_append, List.mem_filter, List.mem_filter] at ht
    rcases ht with ht | ht
    · exact ⟨t, ht.1, he⟩
    · exact ⟨t, ht.1, he⟩
  · rintro ⟨t, ht, he⟩
    refine ⟨t, ?_, he⟩
    rw [List.mem_append, List.mem_filter, List.mem_filter]
    cases hg : t.feed.isGlobal
    · exact Or.inl ⟨ht, rfl⟩
    · exact Or.inr ⟨ht, rfl⟩

/-- How a result goes with the ends of the feeds; the moves are those before the result was given. -/
structure AccountsFor (before : List Move) (s : System) (r : Except Fault Unit) : Prop where
  /-- Every feed has come to its end. -/
  ended : ∀ t ∈ s.feeds, t.outcome?.isSome = true
  /-- All is well when no feed failed. -/
  ok : r = .ok () ↔ s.failures = []
  /-- The read counts as cancelled when it was, and nothing else went wrong. -/
  cancelled : r = .error .cancelled ↔
    Move.cancel ∈ before ∧ s.failures ≠ [] ∧ ∀ e ∈ s.failures, e.isCancellation = true
  /-- Otherwise the result has all faults, the first one in front. -/
  others : ∀ first rest, s.failures = first :: rest →
    ¬ (Move.cancel ∈ before ∧ ∀ e ∈ s.failures, e.isCancellation = true) →
    (rest = [] → r = .error first) ∧ (rest ≠ [] → r = .error (.several first rest))
  /-- When nobody cancelled the read, no feed but the global one ends as one that was stopped. -/
  genuine : Move.cancel ∉ before → ∀ t ∈ s.feeds, ∀ e, t.fault? = some e →
    e.isCancellation = true → t.feed.isGlobal = true ∧ ∃ cause, e = .feedHalted "global" cause
  /-- When nobody cancelled the read, the fault that counts is not that something was stopped. -/
  primary : Move.cancel ∉ before → ∀ e ∈ s.failures.head?, e.isCancellation = false

section
variable {feeds : List Feed} {s : System}

/-- Only a feed with a cause ends as one that was stopped, when the read was not cancelled. -/
theorem Attended.cause_of_cancellation (ha : Attended feeds s) (hc : s.cancelled = false) {i : Nat}
    {t : FeedTask} {e : Fault} (ht : s.feeds[i]? = some t) (he : t.fault? = some e)
    (hcan : e.isCancellation = true) :
    t.feed.isGlobal = true ∧ ∃ cause, t.cause = some cause ∧ e = .feedHalted "global" cause := by
  rcases ha.sincere.fault?_cases ht he with (hplain | ⟨-, htrue⟩) | ⟨cause, hcause, rfl⟩
  · rw [hplain] at hcan
    cases hcan
  · rw [hc] at htrue
    cases htrue
  · have hglobal : t.feed.isGlobal = true := by
      by_contra hstream
      have hnone := (ha.orderly.free i t ht (Bool.not_eq_true _ ▸ hstream)).2
      rw [hnone] at hcause
      cases hcause
    exact ⟨hglobal, cause, hcause, by rw [FeedTask.label_of_isGlobal hglobal]⟩

/-- The first fault does not say that the global feed was stopped: a stream feed has failed then, and comes
first. -/
theorem Attended.genuine_of_head? (ha : Attended feeds s) (hg : s.Grounded) {e : Fault}
    (he : s.failures.head? = some e) : e.Genuine s.cancelled := by
  unfold failures at he
  rw [List.filterMap_append, List.head?_append] at he
  rcases hstreams : ((s.feeds.filter fun t => !t.feed.isGlobal).filterMap (·.fault?)).head? with _ | e'
  · -- no stream feed failed, so the global feed has no cause
    rw [hstreams, Option.none_or] at he
    obtain ⟨t, ht, hfault⟩ := List.mem_filterMap.mp (List.mem_of_head? he)
    obtain ⟨i, hi⟩ := List.mem_iff_getElem?.mp (List.mem_filter.mp ht).1
    rcases ha.sincere.fault?_cases hi hfault with hgenuine | ⟨cause, hcause, -⟩
    · exact hgenuine
    · obtain ⟨k, u, d, hu, hstream, hd⟩ := hg i t hi (Option.isSome_of_eq_some hcause)
      have hmem : d ∈ (s.feeds.filter fun t => !t.feed.isGlobal).filterMap (·.fault?) :=
        List.mem_filterMap.mpr
          ⟨u, List.mem_filter.mpr ⟨List.mem_of_getElem? hu, by rw [hstream]; rfl⟩, hd⟩
      rw [List.head?_eq_none_iff.mp hstreams] at hmem
      cases hmem
  · rw [hstreams, Option.some_or, Option.some.injEq] at he
    subst he
    obtain ⟨t, ht, hfault⟩ := List.mem_filterMap.mp (List.mem_of_head? hstreams)
    obtain ⟨hmem, hstream⟩ := List.mem_filter.mp ht
    obtain ⟨i, hi⟩ := List.mem_iff_getElem?.mp hmem
    rcases ha.sincere.fault?_cases hi hfault with hgenuine | ⟨cause, hcause, -⟩
    · exact hgenuine
    · rw [Bool.not_eq_true'] at hstream
      rw [(ha.orderly.free i t hi hstream).2] at hcause
      cases hcause

/-- The first fault is one of a stream feed, or the global feed failed by itself. -/
theorem Attended.head?_failures (ha : Attended feeds s) (hg : s.Grounded) (hc : s.cancelled = false)
    {e : Fault} (he : s.failures.head? = some e) : e.isCancellation = false := by
  rcases ha.genuine_of_head? hg he with hplain | ⟨-, htrue⟩
  · exact hplain
  · rw [hc] at htrue
    cases htrue

/-- What the supervisor closes a read with accounts for the feeds as they are then. -/
theorem Attended.accountsFor (ha : Attended feeds s) (hg : s.Grounded) (hw : s.watch = .closing)
    {before : List Move} (hbefore : s.cancelled = true ↔ Move.cancel ∈ before) :
    AccountsFor before s (outcome s.cancelled s.faults) := by
  have hawaited : s.awaited = [] := by
    rw [awaited, hw]
    rfl
  obtain ⟨joined, hj⟩ := ha.joined
  obtain ⟨hover, hfaults⟩ := hj.of_awaited_eq_nil hawaited
  have huncancelled : Move.cancel ∉ before → s.cancelled = false := by
    intro hno
    rw [← hbefore, Bool.not_eq_true] at hno
    exact hno
  rw [hfaults]
  refine ⟨fun t ht => ?_, outcome_eq_ok_iff _ _, ?_, fun first rest heq hnot => ?_,
    fun hno t ht e he hcan => ?_, fun hno e he => ha.head?_failures hg (huncancelled hno) he⟩
  · obtain ⟨i, hi⟩ := List.mem_iff_getElem?.mp ht
    rw [FeedTask.isSome_outcome?]
    exact hover i t hi
  · rw [← hbefore]
    apply outcome_eq_cancelled_iff
    intro hmem
    obtain ⟨t, ht, hfault⟩ := mem_failures.mp hmem
    obtain ⟨i, hi⟩ := List.mem_iff_getElem?.mp ht
    rcases ha.sincere.fault?_cases hi hfault with (hplain | ⟨-, htrue⟩) | ⟨cause, -, hhalted⟩
    · cases hplain
    · exact htrue
    · cases hhalted
  · rw [heq, ← hbefore] at hnot
    rw [heq]
    exact outcome_cons hnot
  · obtain ⟨i, hi⟩ := List.mem_iff_getElem?.mp ht
    obtain ⟨hglobal, cause, -, heq⟩ := ha.cause_of_cancellation (huncancelled hno) hi he hcan
    exact ⟨hglobal, cause, heq⟩

/-- A result goes on accounting for the feeds, whatever comes after it. -/
theorem AccountsFor.run {before moves : List Move} {r : Except Fault Unit} {s' : System}
    {effects : List Effect} (hr : AccountsFor before s r) (h : s.run moves = some (s', effects)) :
    AccountsFor before s' r := by
  have hover : ∀ (i : Nat) (t : FeedTask), s.feeds[i]? = some t → t.finished = true := by
    intro i t ht
    rw [← FeedTask.isSome_outcome?]
    exact hr.ended t (List.mem_of_getElem? ht)
  obtain ⟨hfailures, hsame⟩ := outcomes_run hover h
  have hback : ∀ t' ∈ s'.feeds, ∃ t ∈ s.feeds, t'.phase = t.phase ∧ t'.feed = t.feed := by
    intro t' ht'
    obtain ⟨i, hi⟩ := List.mem_iff_getElem?.mp ht'
    obtain ⟨t, ht, hrest⟩ := hsame i t' hi
    exact ⟨t, List.mem_of_getElem? ht, hrest⟩
  refine ⟨fun t' ht' => ?_, ?_, ?_, ?_, fun hno t' ht' e he hcan => ?_, ?_⟩
  · obtain ⟨t, ht, hp, hfeed⟩ := hback t' ht'
    rw [FeedTask.outcome?_congr hp hfeed]
    exact hr.ended t ht
  · rw [hfailures]
    exact hr.ok
  · rw [hfailures]
    exact hr.cancelled
  · rw [hfailures]
    exact hr.others
  · obtain ⟨t, ht, hp, hfeed⟩ := hback t' ht'
    rw [FeedTask.fault?_congr hp hfeed] at he
    rw [hfeed]
    exact hr.genuine hno t ht e he hcan
  · rw [hfailures]
    exact hr.primary

end

/-- The result of a read is given by one step of the supervisor, and accounts for every feed that failed: it
is good when none did, it is that the read was cancelled when it was and all say so, and otherwise it has
the faults of all feeds in order. When nobody cancelled the read, the first of them is the fault of a feed
that failed by itself. -/
theorem result_accounts_for_failures (settings : Settings) (factories : Nat)
    (global : Option (Global × Option Value)) (streams : List (Stream × Option Value))
    (ops : List Ledger.Op) {moves : List Move} {s' : System} {effects : List Effect}
    {r : Except Fault Unit}
    (hrun : (start settings factories (.used global streams ops)).run moves = some (s', effects))
    (hover : s'.result? = some r) :
    ∃ before after, moves = before ++ .supervise :: after ∧
      (∃ s₁ first, (start settings factories (.used global streams ops)).run before = some (s₁, first) ∧
        s₁.result? = none ∧
        ∃ s₂ second, s₁.step .supervise = some (s₂, second) ∧ s₂.result? = some r) ∧
      AccountsFor before s' r := by
  have hstart := attended_start settings factories (Ledger.nodup_keys_used global streams ops)
  obtain ⟨before, after, s₁, s₂, first, second, later, hmoves, hbefore, hw, hclose, hgiven, hafter, rfl⟩ :=
    exists_closing hrun rfl hover
  obtain ⟨ha, hg⟩ := hstart.run_grounded (grounded_start _ _ _) hbefore
  have hcancelled : s₁.cancelled = true ↔ Move.cancel ∈ before := by
    rw [cancelled_run hbefore]
    exact or_iff_right nofun
  have hopen : s₁.result? = none := by rw [result?, hw]
  refine ⟨before, after, hmoves, ⟨s₁, first, hbefore, hopen, s₂, second, hclose, hgiven⟩, ?_⟩
  exact (ha.accountsFor hg hw hcancelled).run (run_cons_of hclose hafter)

/-- The result has the fault of the stream first, and then that the global feed was stopped for it. -/
theorem result_accounts_for_failures_users :
    ∃ s' effects,
      (start {} 1 (.used (some (⟨usersAndOrders⟩, none)) (usersAndOrders.map (·, none)) [])).run
        oneMemberFails = some (s', effects) ∧
      s'.failures = [.noFactory "users", .feedHalted "global" (.noFactory "users")] ∧
      s'.result? = some (.error (.several (.noFactory "users")
        [.feedHalted "global" (.noFactory "users")])) ∧
      ∃ before, Move.cancel ∉ before ∧ AccountsFor before s' (.error (.several (.noFactory "users")
        [.feedHalted "global" (.noFactory "users")])) := by
  have hrun : (start {} 1 (.used (some (⟨usersAndOrders⟩, none)) (usersAndOrders.map (·, none)) [])).run
      oneMemberFails = some (_, _) := rfl
  obtain ⟨before, after, hmoves, -, haccounts⟩ := result_accounts_for_failures {} 1
    (some (⟨usersAndOrders⟩, none)) (usersAndOrders.map (·, none)) [] hrun rfl
  have hcancel : Move.cancel ∉ before := by
    intro hmem
    have hall : Move.cancel ∈ oneMemberFails := hmoves ▸ List.mem_append_left _ hmem
    simp [oneMemberFails] at hall
  exact ⟨_, _, hrun, rfl, rfl, before, hcancel, haccounts⟩

/-- When some feed failed by itself, the fault in front of the result is that of the first feed that failed.
It says that something was stopped only when that feed saw that the read was cancelled; the fault of the
other feed then stands behind it. -/
theorem primary_is_first_failure (settings : Settings) (factories : Nat)
    (global : Option (Global × Option Value)) (streams : List (Stream × Option Value))
    (ops : List Ledger.Op) {moves : List Move} {s' : System} {effects : List Effect}
    {r : Except Fault Unit} {own : Fault}
    (hrun : (start settings factories (.used global streams ops)).run moves = some (s', effects))
    (hover : s'.result? = some r) (hown : own ∈ s'.failures) (hgenuine : own.isCancellation = false) :
    ∃ first rest, s'.failures = first :: rest ∧
      (rest = [] → r = .error first) ∧ (rest ≠ [] → r = .error (.several first rest)) ∧
      (first.isCancellation = true → first = .cancelled ∧ own ∈ rest ∧
        ∃ before after s₁ earlier, moves = before ++ .supervise :: after ∧ Move.cancel ∈ before ∧
          (start settings factories (.used global streams ops)).run before = some (s₁, earlier) ∧
          s₁.result? = none) := by
  have hstart := attended_start settings factories (Ledger.nodup_keys_used global streams ops)
  obtain ⟨before, after, s₁, s₂, one, two, three, hmoves, hbefore, hw, hclose, -, hafter, rfl⟩ :=
    exists_closing hrun rfl hover
  obtain ⟨ha, hg⟩ := hstart.run_grounded (grounded_start _ _ _) hbefore
  have hcancelled : s₁.cancelled = true ↔ Move.cancel ∈ before := by
    rw [cancelled_run hbefore]
    exact or_iff_right nofun
  have haccounts := ha.accountsFor hg hw hcancelled
  have hfinished : ∀ (i : Nat) (t : FeedTask), s₁.feeds[i]? = some t → t.finished = true := by
    intro i t ht
    rw [← FeedTask.isSome_outcome?]
    exact haccounts.ended t (List.mem_of_getElem? ht)
  rw [(outcomes_run hfinished (run_cons_of hclose hafter)).1] at hown ⊢
  rcases hfailures : s₁.failures with _ | ⟨first, rest⟩
  · rw [hfailures] at hown
    cases hown
  · -- not all faults say that something was stopped
    have hother : ¬ (Move.cancel ∈ before ∧ ∀ e ∈ s₁.failures, e.isCancellation = true) := by
      rintro ⟨-, hall⟩
      rw [hall own hown] at hgenuine
      cases hgenuine
    obtain ⟨hone, hmany⟩ := haccounts.others first rest hfailures hother
    refine ⟨first, rest, rfl, hone, hmany, fun hfirst => ?_⟩
    have hopen : s₁.result? = none := by rw [result?, hw]
    rcases ha.genuine_of_head? hg (e := first) (by rw [hfailures]; rfl) with hplain | ⟨rfl, htrue⟩
    · rw [hplain] at hfirst
      cases hfirst
    · refine ⟨rfl, ?_, before, after, s₁, one, hmoves, hcancelled.mp htrue, hbefore, hopen⟩
      rw [hfailures] at hown
      rcases List.mem_cons.mp hown with rfl | hrest
      · cases hgenuine
      · exact hrest

/-- The second stream has no factory; then the read is cancelled, before the first stream has come far. -/
def cancelledAfterFailure : List Move :=
  [ .supervise, .feed 1 .go, .feed 1 (.made .none), .feed 1 .go, .feed 1 .go, .feed 1 .go, .feed 1 .go
  , .feed 0 .go, .feed 0 (.made .creator), .cancel, .feed 0 .go, .feed 0 .go, .feed 0 .go, .feed 0 .go
  , .supervise, .supervise, .supervise, .supervise, .supervise, .supervise ]

/-- A feed that was cancelled stands in front of one that failed by itself. -/
theorem cancelled_feed_is_primary :
    ∃ s' effects,
      (start {} 1 (.used none (usersAndOrders.map (·, none)) [])).run cancelledAfterFailure =
        some (s', effects) ∧
      s'.failures = [.cancelled, .noFactory "orders"] ∧
      Fault.isCancellation (.noFactory "orders") = false ∧
      s'.result? = some (.error (.several .cancelled [.noFactory "orders"])) ∧
      Fault.isCancellation .cancelled = true :=
  ⟨_, _, rfl, rfl, rfl, rfl, rfl⟩

theorem primary_is_first_failure_orders :
    ∃ s' effects,
      (start {} 1 (.used none (usersAndOrders.map (·, none)) [])).run cancelledAfterFailure =
        some (s', effects) ∧
      s'.result? = some (.error (.several .cancelled [.noFactory "orders"])) ∧
      .noFactory "orders" ∈ s'.failures ∧
      ∃ first rest, s'.failures = first :: rest ∧ .noFactory "orders" ∈ rest ∧ first = .cancelled := by
  have hrun : (start {} 1 (.used none (usersAndOrders.map (·, none)) [])).run cancelledAfterFailure =
      some (_, _) := rfl
  have hmem : Fault.noFactory "orders" ∈ [.cancelled, .noFactory "orders"] :=
    List.mem_cons_of_mem _ List.mem_cons_self
  obtain ⟨first, rest, hfailures, -, -, hfirst⟩ := primary_is_first_failure {} 1 none
    (usersAndOrders.map (·, none)) [] hrun rfl hmem rfl
  cases hfailures
  obtain ⟨heq, hrest, -⟩ := hfirst rfl
  exact ⟨_, _, hrun, rfl, hmem, _, _, rfl, hrest, heq⟩

end System

end Intake.Read
