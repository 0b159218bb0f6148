import Intake.Board
import Mathlib.Data.List.Induction
import Mathlib.Tactic.Common
/-!
# What the board says of a stream

Feeds give notice to the board, each about all of its streams and one stream after the other; notices of
several feeds can be interleaved in any way, and a feed can give any notice any number of times. So a run of
the board is any list of touches (`Touch`), and `notify` is one such run (`notify_eq_run`).

What the traces of a stream and its standing must be is said on the list of touches alone (`Stage`): nothing
before the first touch, `started` from then on, and one more verdict from the moment when every feed that
reads the stream has stopped. An entry of the board `Knows` the touches so far, a touch keeps this
(`Knows.take`), and so does a run. The main statement is `stream_status_traces`.
-/

namespace Intake.Board

/-- A feed gives notice about one stream. -/
structure Touch where
  feed : FeedKey
  notice : Notice
  id : StreamId

/-- Takes touches one after the other. -/
def run (b : Board) : List Touch → Board × List Trace
  | [] => (b, [])
  | t :: rest =>
    let (b, first) := b.touch t.feed t.notice t.id
    let (b, more) := run b rest
    (b, first ++ more)

/-- The verdicts on a stream among traces, in order. -/
def verdicts (id : StreamId) (traces : List Trace) : List Verdict :=
  (traces.filter (·.stream = id)).map (·.verdict)

/-- A board that hears two histories hears the first one and then the other. -/
theorem run_append (b : Board) (first later : List Touch) :
    b.run (first ++ later) =
      (((b.run first).1.run later).1, (b.run first).2 ++ ((b.run first).1.run later).2) := by
  induction first generalizing b with
  | nil => rfl
  | cons t first ih => simp only [List.cons_append, run, ih, List.append_assoc]

theorem run_singleton (b : Board) (t : Touch) : b.run [t] = b.touch t.feed t.notice t.id := by
  simp only [run, List.append_nil]

/-- A notice that nothing comes between is a run. -/
theorem notify_eq_run (b : Board) (feed : Feed) (n : Notice) :
    b.notify feed n = b.run (feed.ids.map fun id => ⟨feed.key, n, id⟩) := by
  have hfold : ∀ (ids : List StreamId) (b : Board) (traces : List Trace),
      ids.foldl (fun (p : Board × List Trace) id =>
          ((p.1.touch feed.key n id).1, p.2 ++ (p.1.touch feed.key n id).2)) (b, traces) =
        ((b.run (ids.map fun id => ⟨feed.key, n, id⟩)).1,
          traces ++ (b.run (ids.map fun id => ⟨feed.key, n, id⟩)).2) := by
    intro ids
    induction ids with
    | nil => simp [run]
    | cons id ids ih =>
      intro b traces
      rw [List.foldl_cons, ih]
      simp only [List.map_cons, run, List.append_assoc]
  have h := hfold feed.ids b []
  rw [List.nil_append] at h
  exact h

/-! ### What touches say of a stream -/

/-- Some feed has given notice about the stream. -/
def Touched (id : StreamId) (h : List Touch) : Prop := ∃ t ∈ h, t.id = id

/-- Some feed has given this notice about the stream. -/
def Heard (id : StreamId) (n : Notice) (h : List Touch) : Prop := ∃ t ∈ h, t.id = id ∧ t.notice = n

/-- The feed has given notice that it stopped, for whatever reason. -/
def HasStopped (id : StreamId) (feed : FeedKey) (h : List Touch) : Prop :=
  ∃ t ∈ h, t.id = id ∧ t.feed = feed ∧ t.notice ≠ .starting

/-- Some feed of a list reads the stream. -/
def IsRead (feeds : List Feed) (id : StreamId) : Prop := ∃ feed ∈ feeds, id ∈ feed.ids

/-- Every feed of a list that reads the stream has stopped. -/
def Over (feeds : List Feed) (id : StreamId) (h : List Touch) : Prop :=
  ∀ feed ∈ feeds, id ∈ feed.ids → HasStopped id feed.key h

instance (id : StreamId) (h : List Touch) : Decidable (Touched id h) :=
  inferInstanceAs (Decidable (∃ t ∈ h, t.id = id))

instance (id : StreamId) (n : Notice) (h : List Touch) : Decidable (Heard id n h) :=
  inferInstanceAs (Decidable (∃ t ∈ h, t.id = id ∧ t.notice = n))

instance (id : StreamId) (feed : FeedKey) (h : List Touch) : Decidable (HasStopped id feed h) :=
  inferInstanceAs (Decidable (∃ t ∈ h, t.id = id ∧ t.feed = feed ∧ t.notice ≠ .starting))

instance (feeds : List Feed) (id : StreamId) (h : List Touch) : Decidable (Over feeds id h) :=
  inferInstanceAs (Decidable (∀ feed ∈ feeds, id ∈ feed.ids → HasStopped id feed.key h))

instance (feeds : List Feed) (id : StreamId) : Decidable (IsRead feeds id) :=
  inferInstanceAs (Decidable (∃ feed ∈ feeds, id ∈ feed.ids))

/-- Where a stream stands that has started and is not over. -/
def ongoing (id : StreamId) (h : List Touch) : Standing :=
  if Heard id .failure h then .failure else .success

/-- The verdict on a stream that is over: complete when some feed completed and none failed. -/
def final (id : StreamId) (h : List Touch) : Verdict :=
  if Heard id .complete h ∧ ¬ Heard id .failure h then .complete else .incomplete

/-- Where a stream stands after some touches, and which verdicts on it there have been. -/
inductive Stage (feeds : List Feed) (id : StreamId) (h : List Touch) : Standing → List Verdict → Prop
  | pending : ¬ Touched id h → Stage feeds id h .pending []
  | running : Touched id h → ¬ Over feeds id h → Stage feeds id h (ongoing id h) [.started]
  /-- The last verdict is about the touches up to the first one after which the stream is over. -/
  | done {before after : List Touch} {t : Touch} : h = before ++ t :: after →
      ¬ Over feeds id before → Over feeds id (before ++ [t]) →
      Stage feeds id h .done [.started, final id (before ++ [t])]

/-- The verdicts that a touch brings about, after others. -/
def news (feeds : List Feed) (h : List Touch) (t : Touch) : List Verdict :=
  (if Touched t.id h then [] else [.started]) ++
    if ¬ Over feeds t.id h ∧ Over feeds t.id (h ++ [t]) then [final t.id (h ++ [t])] else []

section
variable {feeds : List Feed} {id : StreamId} {h : List Touch} {t : Touch}

theorem exists_mem_snoc {p : Touch → Prop} : (∃ x ∈ h ++ [t], p x) ↔ (∃ x ∈ h, p x) ∨ p t := by
  simp only [List.mem_append, List.mem_singleton]
  constructor
  · rintro ⟨x, hx | rfl, hp⟩
    · exact Or.inl ⟨x, hx, hp⟩
    · exact Or.inr hp
  · rintro (⟨x, hx, hp⟩ | hp)
    · exact ⟨x, Or.inl hx, hp⟩
    · exact ⟨t, Or.inr rfl, hp⟩

theorem heard_snoc {n : Notice} :
    Heard id n (h ++ [t]) ↔ Heard id n h ∨ t.id = id ∧ t.notice = n :=
  exists_mem_snoc

theorem hasStopped_snoc {feed : FeedKey} : HasStopped id feed (h ++ [t]) ↔
    HasStopped id feed h ∨ t.id = id ∧ t.feed = feed ∧ t.notice ≠ .starting :=
  exists_mem_snoc

theorem touched_snoc : Touched id (h ++ [t]) ↔ Touched id h ∨ t.id = id :=
  exists_mem_snoc

/-- A stream that is over stays so. -/
theorem Over.append (ho : Over feeds id h) (more : List Touch) : Over feeds id (h ++ more) := by
  intro feed hf hid
  obtain ⟨t, ht, hstop⟩ := ho feed hf hid
  exact ⟨t, List.mem_append_left _ ht, hstop⟩

/-- A touch that stops nothing for the stream does not end it. -/
theorem over_snoc_of_not_stop (ht : ¬ (t.id = id ∧ t.notice ≠ .starting)) :
    Over feeds id (h ++ [t]) ↔ Over feeds id h := by
  constructor
  · intro ho feed hf hid
    rcases hasStopped_snoc.mp (ho feed hf hid) with hold | ⟨hsame, -, hstop⟩
    · exact hold
    · exact absurd ⟨hsame, hstop⟩ ht
  · exact fun ho => ho.append [t]

/-- A stream that is read is not over before it is touched. -/
theorem Over.touched (hread : IsRead feeds id) (ho : Over feeds id h) : Touched id h := by
  obtain ⟨feed, hf, hid⟩ := hread
  obtain ⟨t, ht, hsame, -⟩ := ho feed hf hid
  exact ⟨t, ht, hsame⟩

/-- A stream that is done stays so. -/
theorem Stage.snoc_done {vs : List Verdict} (hs : Stage feeds id h .done vs) (t : Touch) :
    Stage feeds id (h ++ [t]) .done vs := by
  generalize hstanding : Standing.done = standing at hs
  cases hs with
  | pending => cases hstanding
  | running =>
    unfold ongoing at hstanding
    split at hstanding <;> cases hstanding
  | @done before after u heq hopen hclosed =>
    have hlater : h ++ [t] = before ++ u :: (after ++ [t]) := by
      rw [heq, List.append_assoc]
      rfl
    exact .done hlater hopen hclosed

/-- What is told of other streams is of no account. -/
theorem Stage.other {standing : Standing} {vs : List Verdict} (hs : Stage feeds id h standing vs)
    (ht : t.id ≠ id) : Stage feeds id (h ++ [t]) standing vs := by
  have hover : Over feeds id (h ++ [t]) ↔ Over feeds id h := over_snoc_of_not_stop fun hc => ht hc.1
  have htouched : Touched id (h ++ [t]) ↔ Touched id h := by
    rw [touched_snoc]
    exact or_iff_left ht
  cases hs with
  | pending hno => exact .pending (fun hc => hno (htouched.mp hc))
  | running hyes hopen =>
    have hongoing : ongoing id (h ++ [t]) = ongoing id h := by
      have hheard : Heard id .failure (h ++ [t]) ↔ Heard id .failure h := by
        rw [heard_snoc]
        exact or_iff_left fun hc => ht hc.1
      simp only [ongoing, hheard]
    rw [← hongoing]
    exact .running (htouched.mpr hyes) fun hc => hopen (hover.mp hc)
  | done heq hopen hclosed => exact (Stage.done heq hopen hclosed).snoc_done t

end

/-! ### What an entry knows -/

/-- An entry of the board knows what was told of its stream. -/
structure Knows (feeds : List Feed) (id : StreamId) (h : List Touch) (e : BoardEntry)
    (vs : List Verdict) : Prop where
  readers : ∀ key, key ∈ e.readers ↔ ∃ feed ∈ feeds, id ∈ feed.ids ∧ feed.key = key
  stopped : ∀ key, key ∈ e.stopped ↔ HasStopped id key h
  completed : e.completed = true ↔ Heard id .complete h
  stage : Stage feeds id h e.standing vs

section
variable {feeds : List Feed} {id : StreamId} {h : List Touch} {t : Touch} {e : BoardEntry}
  {vs : List Verdict}

/-- The first start of a stream is told. -/
theorem start_of_pending (hp : e.standing = .pending) :
    e.start = ({ e with standing := .success }, [.started]) := by
  unfold BoardEntry.start
  rw [hp]

/-- Any other start of it is not. -/
theorem start_of_begun (hb : e.standing ≠ .pending) : e.start = (e, []) := by
  unfold BoardEntry.start
  split
  · rename_i hp
    exact absurd hp hb
  · rfl

/-- Starting changes nothing but the standing. -/
theorem start_frame (e : BoardEntry) :
    e.start.1.readers = e.readers ∧ e.start.1.stopped = e.stopped ∧
      e.start.1.completed = e.completed := by
  unfold BoardEntry.start
  split <;> exact ⟨rfl, rfl, rfl⟩

theorem noteStop_eq (e : BoardEntry) (feed : FeedKey) (n : Notice) :
    e.noteStop feed n =
      { e with
        stopped := if e.stopped.contains feed then e.stopped else e.stopped ++ [feed]
        completed := e.completed || n = .complete
        standing := if n = .failure ∧ e.standing = .success then .failure else e.standing } := by
  obtain ⟨readers, standing, stopped, completed⟩ := e
  cases completed <;> cases n <;> cases standing <;> rfl

/-- A feed is noted among those that have stopped. -/
theorem mem_stopped_noteStop (e : BoardEntry) (feed key : FeedKey) (n : Notice) :
    key ∈ (e.noteStop feed n).stopped ↔ key ∈ e.stopped ∨ feed = key := by
  rw [noteStop_eq]
  show key ∈ (if e.stopped.contains feed then e.stopped else e.stopped ++ [feed]) ↔ _
  split
  · rename_i hmem
    constructor
    · exact Or.inl
    · rintro (hold | rfl)
      · exact hold
      · simpa using hmem
  · rw [List.mem_append, List.mem_singleton, eq_comm (a := key)]

/-- Closing changes nothing but the standing. -/
theorem close_frame (e : BoardEntry) :
    e.close.1.readers = e.readers ∧ e.close.1.stopped = e.stopped ∧
      e.close.1.completed = e.completed := by
  unfold BoardEntry.close
  split
  · exact ⟨rfl, rfl, rfl⟩
  · split <;> exact ⟨rfl, rfl, rfl⟩

/-- All readers of a stream have stopped if and only if it is over. -/
theorem allStopped_iff
    (hreaders : ∀ key, key ∈ e.readers ↔ ∃ feed ∈ feeds, id ∈ feed.ids ∧ feed.key = key)
    (hstopped : ∀ key, key ∈ e.stopped ↔ HasStopped id key h) :
    e.allStopped = true ↔ Over feeds id h := by
  simp only [BoardEntry.allStopped, List.all_eq_true, List.contains_iff_mem, hstopped, hreaders, Over]
  constructor
  · exact fun hall feed hf hid => hall feed.key ⟨feed, hf, hid, rfl⟩
  · rintro hall key ⟨feed, hf, hid, rfl⟩
    exact hall feed hf hid

/-- A stream that is not over yet is closed when it is. -/
theorem close_of_ongoing (hstanding : e.standing = ongoing id h)
    (hcompleted : e.completed = true ↔ Heard id .complete h)
    (hover : e.allStopped = true ↔ Over feeds id h) :
    e.close = if Over feeds id h then ({ e with standing := .done }, [final id h]) else (e, []) := by
  by_cases ho : Over feeds id h
  · have hall : e.allStopped = true := hover.mpr ho
    unfold ongoing at hstanding
    rw [if_pos ho]
    by_cases hfail : Heard id .failure h
    · rw [if_pos hfail] at hstanding
      simp [BoardEntry.close, final, hall, hstanding, hfail]
    · rw [if_neg hfail] at hstanding
      simp [BoardEntry.close, final, hall, hstanding, hfail, hcompleted]
  · have hall : e.allStopped = false := Bool.eq_false_iff.mpr fun hc => ho (hover.mp hc)
    rw [if_neg ho]
    simp [BoardEntry.close, hall]

/-- A stream that is done is not told again. -/
theorem close_of_done (hstanding : e.standing = .done) : e.close = (e, []) := by
  unfold BoardEntry.close
  split
  · rfl
  · rw [hstanding]

/-- Starting a stream, as its stage says: one that is not over is begun, and one that is over is done. -/
theorem Knows.start_cases (hk : Knows feeds id h e vs) (hread : IsRead feeds id) :
    e.start.2 = (if Touched id h then [] else [.started]) ∧
    (¬ Over feeds id h ∧ e.start.1.standing = ongoing id h ∧ vs ++ e.start.2 = [.started] ∨
      Over feeds id h ∧ e.standing = .done ∧ e.start = (e, [])) := by
  have hstage := hk.stage
  generalize hstanding : e.standing = standing at hstage
  cases hstage with
  | pending hno =>
    have hfail : ¬ Heard id .failure h := fun ⟨t, ht, hsame, _⟩ => hno ⟨t, ht, hsame⟩
    rw [start_of_pending hstanding]
    refine ⟨?_, Or.inl ⟨fun ho => hno (ho.touched hread), ?_, rfl⟩⟩
    · rw [if_neg hno]
    · rw [ongoing, if_neg hfail]
  | running hyes hopen =>
    have hbegun : e.standing ≠ .pending := by
      rw [hstanding, ongoing]
      split <;> nofun
    rw [start_of_begun hbegun]
    refine ⟨?_, Or.inl ⟨hopen, hstanding, rfl⟩⟩
    rw [if_pos hyes]
  | @done before after t heq _ hclosed =>
    have hover : Over feeds id h := by
      rw [heq, ← List.singleton_append, ← List.append_assoc]
      exact hclosed.append after
    have hbegun : e.standing ≠ .pending := by
      rw [hstanding]
      nofun
    rw [start_of_begun hbegun]
    refine ⟨?_, Or.inr ⟨hover, rfl, rfl⟩⟩
    rw [if_pos (hover.touched hread)]

/-- A feed begins to read the stream. -/
theorem Knows.starting (hk : Knows feeds id h e vs) (hread : IsRead feeds id) (ht : t.id = id)
    (hn : t.notice = .starting) :
    Knows feeds id (h ++ [t]) e.start.1 (vs ++ e.start.2) ∧ e.start.2 = news feeds h t := by
  obtain ⟨hreaders, hstopped, hcompleted⟩ := start_frame e
  obtain ⟨hnew, hcases⟩ := hk.start_cases hread
  have hover : Over feeds id (h ++ [t]) ↔ Over feeds id h := over_snoc_of_not_stop fun hc => hc.2 hn
  have hheard : ∀ n, n ≠ .starting → (Heard id n (h ++ [t]) ↔ Heard id n h) := by
    intro n hne
    rw [heard_snoc]
    exact or_iff_left fun hc => hne (hc.2.symm.trans hn)
  refine ⟨⟨?_, ?_, ?_, ?_⟩, ?_⟩
  · rw [hreaders]
    exact hk.readers
  · intro key
    rw [hstopped, hk.stopped, hasStopped_snoc]
    exact (or_iff_left fun hc => hc.2.2 hn).symm
  · rw [hcompleted, hk.completed, hheard .complete nofun]
  · rcases hcases with ⟨hopen, hstanding, hvs⟩ | ⟨-, hdone, hstart⟩
    · have hongoing : ongoing id (h ++ [t]) = ongoing id h := by
        simp only [ongoing, hheard .failure nofun]
      rw [hstanding, hvs, ← hongoing]
      exact .running (touched_snoc.mpr (Or.inr ht)) fun hc => hopen (hover.mp hc)
    · have hstage := hk.stage
      rw [hdone] at hstage
      rw [hstart, List.append_nil, hdone]
      exact hstage.snoc_done t
  · subst ht
    have hnot : ¬ (¬ Over feeds t.id h ∧ Over feeds t.id (h ++ [t])) := fun hc => hc.1 (hover.mp hc.2)
    rw [hnew, news, if_neg hnot, List.append_nil]

/-- A stop is noted for a stream that is not over. -/
theorem standing_noteStop {feed : FeedKey} (hstanding : e.standing = ongoing id h) (ht : t.id = id) :
    (e.noteStop feed t.notice).standing = ongoing id (h ++ [t]) := by
  have hheard : Heard id .failure (h ++ [t]) ↔ Heard id .failure h ∨ t.notice = .failure := by
    rw [heard_snoc]
    simp only [ht, true_and]
  rw [noteStop_eq, hstanding]
  simp only [ongoing, hheard]
  by_cases hfail : Heard id .failure h
  · simp [hfail]
  · simp [hfail]

theorem standing_noteStop_of_done (hdone : e.standing = .done) (feed : FeedKey) (n : Notice) :
    (e.noteStop feed n).standing = .done := by
  rw [noteStop_eq, hdone]
  exact if_neg nofun

/-- A feed stops reading the stream. -/
theorem Knows.stopping (hk : Knows feeds id h e vs) (hread : IsRead feeds id) (ht : t.id = id)
    (hn : t.notice ≠ .starting) :
    Knows feeds id (h ++ [t]) (e.start.1.noteStop t.feed t.notice).close.1
        (vs ++ (e.start.2 ++ (e.start.1.noteStop t.feed t.notice).close.2)) ∧
      e.start.2 ++ (e.start.1.noteStop t.feed t.notice).close.2 = news feeds h t := by
  obtain ⟨hreaders, hstopped, hcompleted⟩ := start_frame e
  obtain ⟨hnew, hcases⟩ := hk.start_cases hread
  obtain ⟨creaders, cstopped, ccompleted⟩ := close_frame (e.start.1.noteStop t.feed t.notice)
  -- what the entry knows once the stop is noted
  have nreaders : ∀ key, key ∈ (e.start.1.noteStop t.feed t.notice).readers ↔
      ∃ feed ∈ feeds, id ∈ feed.ids ∧ feed.key = key := by
    rw [noteStop_eq, hreaders]
    exact hk.readers
  have nstopped : ∀ key, key ∈ (e.start.1.noteStop t.feed t.notice).stopped ↔
      HasStopped id key (h ++ [t]) := by
    intro key
    rw [mem_stopped_noteStop, hstopped, hk.stopped, hasStopped_snoc]
    simp only [ht, hn, true_and, ne_eq, not_false_eq_true, and_true]
  have ncompleted : (e.start.1.noteStop t.feed t.notice).completed = true ↔
      Heard id .complete (h ++ [t]) := by
    rw [noteStop_eq, hcompleted, heard_snoc, Bool.or_eq_true, hk.completed, decide_eq_true_eq]
    simp only [ht, true_and]
  have hover := allStopped_iff nreaders nstopped
  refine ⟨⟨?_, ?_, ?_, ?_⟩, ?_⟩
  · rw [creaders]
    exact nreaders
  · rw [cstopped]
    exact nstopped
  · rw [ccompleted]
    exact ncompleted
  · rcases hcases with ⟨hopen, hstanding, hvs⟩ | ⟨hclosed, hdone, hstart⟩
    · rw [close_of_ongoing (standing_noteStop hstanding ht) ncompleted hover, ← List.append_assoc, hvs]
      by_cases ho : Over feeds id (h ++ [t])
      · rw [if_pos ho]
        exact .done rfl hopen ho
      · rw [if_neg ho, List.append_nil, standing_noteStop hstanding ht]
        exact .running (touched_snoc.mpr (Or.inr ht)) ho
    · have hstage := hk.stage
      have hstays := standing_noteStop_of_done hdone t.feed t.notice
      rw [hdone] at hstage
      rw [hstart, close_of_done hstays, List.append_nil, List.append_nil, hstays]
      exact hstage.snoc_done t
  · subst ht
    rw [hnew, news]
    congr 1
    rcases hcases with ⟨hopen, hstanding, hvs⟩ | ⟨hclosed, hdone, hstart⟩
    · rw [close_of_ongoing (standing_noteStop hstanding rfl) ncompleted hover]
      by_cases ho : Over feeds t.id (h ++ [t])
      · rw [if_pos ho, if_pos ⟨hopen, ho⟩]
      · rw [if_neg ho, if_neg fun hc => ho hc.2]
    · have hstays := standing_noteStop_of_done hdone t.feed t.notice
      rw [hstart, close_of_done hstays, if_neg fun hc => hc.1 hclosed]

/-- What is known of a stream does not change when another one is touched. -/
theorem Knows.other (hk : Knows feeds id h e vs) (ht : t.id ≠ id) : Knows feeds id (h ++ [t]) e vs where
  readers := hk.readers
  stopped := by
    intro key
    rw [hk.stopped, hasStopped_snoc]
    exact (or_iff_left fun hc => ht hc.1).symm
  completed := by
    rw [hk.completed, heard_snoc]
    exact (or_iff_left fun hc => ht hc.1).symm
  stage := hk.stage.other ht

/-- Every notice keeps what the entry knows, and brings the verdicts it should. -/
theorem Knows.take (hk : Knows feeds id h e vs) (hread : IsRead feeds id) (ht : t.id = id) :
    Knows feeds id (h ++ [t]) (e.take t.feed t.notice).1 (vs ++ (e.take t.feed t.notice).2) ∧
      (e.take t.feed t.notice).2 = news feeds h t := by
  by_cases hn : t.notice = .starting
  · have htake : e.take t.feed t.notice = e.start := by
      rw [hn]
      rfl
    rw [htake]
    exact hk.starting hread ht hn
  · have htake : e.take t.feed t.notice =
        ((e.start.1.noteStop t.feed t.notice).close.1,
          e.start.2 ++ (e.start.1.noteStop t.feed t.notice).close.2) := by
      unfold BoardEntry.take
      split
      · rename_i hstart
        exact absurd hstart hn
      · rfl
    rw [htake]
    exact hk.stopping hread ht hn

end

/-! ### The whole board -/

/-- The board knows what was told of every stream that some feed reads, and has no entry for others. -/
structure Follows (feeds : List Feed) (h : List Touch) (b : Board) (traces : List Trace) : Prop where
  known : ∀ id, IsRead feeds id → ∃ e, b.find? id = some e ∧ Knows feeds id h e (verdicts id traces)
  unknown : ∀ id, ¬ IsRead feeds id → b.find? id = none ∧ verdicts id traces = []

theorem verdicts_append (id : StreamId) (first later : List Trace) :
    verdicts id (first ++ later) = verdicts id first ++ verdicts id later := by
  rw [verdicts, List.filter_append, List.map_append]
  rfl

theorem verdicts_map (id other : StreamId) (vs : List Verdict) :
    verdicts id (vs.map (⟨other, ·⟩)) = if other = id then vs else [] := by
  rw [verdicts, List.filter_map, List.map_map]
  split
  · rename_i hsame
    have hall : ∀ v ∈ vs, ((fun x : Trace => decide (x.stream = id)) ∘ (⟨other, ·⟩)) v = true := by
      intro v _
      exact decide_eq_true hsame
    rw [List.filter_eq_self.mpr hall]
    exact List.map_id _
  · rename_i hother
    have hnone : ∀ v ∈ vs, ¬ ((fun x : Trace => decide (x.stream = id)) ∘ (⟨other, ·⟩)) v = true := by
      intro v _
      simpa using hother
    rw [List.filter_eq_nil_iff.mpr hnone]
    rfl

section
variable {feeds : List Feed} {h : List Touch} {b : Board} {traces : List Trace}

/-- A touch of a stream that some feed reads. -/
theorem touch_of_some {id : StreamId} {e : BoardEntry} (hs : b.find? id = some e) (feed : FeedKey)
    (n : Notice) :
    b.touch feed n id = (b.put id (e.take feed n).1, (e.take feed n).2.map (⟨id, ·⟩)) := by
  simp only [touch, hs]

/-- A stream that is not on the board is not touched. -/
theorem touch_of_none {id : StreamId} (hs : b.find? id = none) (feed : FeedKey) (n : Notice) :
    b.touch feed n id = (b, []) := by
  simp only [touch, hs]

/-- Every touch keeps what the board knows, and brings the traces it should. -/
theorem Follows.touch (hf : Follows feeds h b traces) (t : Touch) :
    Follows feeds (h ++ [t]) (b.touch t.feed t.notice t.id).1
        (traces ++ (b.touch t.feed t.notice t.id).2) ∧
      (b.touch t.feed t.notice t.id).2 =
        if IsRead feeds t.id then (news feeds h t).map (⟨t.id, ·⟩) else [] := by
  by_cases hread : IsRead feeds t.id
  · obtain ⟨e, hs, hk⟩ := hf.known t.id hread
    obtain ⟨hnext, hnews⟩ := hk.take hread rfl
    rw [touch_of_some hs, if_pos hread, hnews]
    rw [hnews] at hnext
    refine ⟨⟨fun id hid => ?_, fun id hid => ?_⟩, rfl⟩
    · rw [verdicts_append, verdicts_map, Table.find?_put]
      by_cases hsame : t.id = id
      · subst hsame
        rw [if_pos rfl, if_pos rfl]
        exact ⟨_, rfl, hnext⟩
      · obtain ⟨other, hother, hko⟩ := hf.known id hid
        rw [if_neg hsame, if_neg hsame, List.append_nil]
        exact ⟨other, hother, hko.other hsame⟩
    · have hsame : t.id ≠ id := by
        rintro rfl
        exact hid hread
      rw [verdicts_append, verdicts_map, Table.find?_put, if_neg hsame, if_neg hsame, List.append_nil]
      exact hf.unknown id hid
  · rw [touch_of_none (hf.unknown t.id hread).1, if_neg hread, List.append_nil]
    refine ⟨⟨fun id hid => ?_, hf.unknown⟩, rfl⟩
    obtain ⟨e, hs, hk⟩ := hf.known id hid
    refine ⟨e, hs, hk.other ?_⟩
    rintro rfl
    exact hread hid

/-- A run from a board that knows nothing yet. -/
theorem Follows.run (hf : Follows feeds [] b []) (h : List Touch) :
    Follows feeds h (b.run h).1 (b.run h).2 := by
  induction h using List.reverseRecOn with
  | nil => exact hf
  | append_singleton h t ih =>
    rw [run_append, run_singleton]
    exact (ih.touch t).1

end

/-! ### A new board -/

/-- An entry of a new board, for the feeds that read its stream. -/
structure IsNew (keys : List FeedKey) (e : BoardEntry) : Prop where
  readers : ∀ key, key ∈ e.readers ↔ key ∈ keys
  standing : e.standing = .pending
  stopped : e.stopped = []
  completed : e.completed = false

theorem IsNew.enter {keys : List FeedKey} {e : BoardEntry} (he : IsNew keys e) (feed : FeedKey) :
    IsNew (keys ++ [feed])
      { e with readers := if e.readers.contains feed then e.readers else e.readers ++ [feed] } where
  readers := by
    intro key
    rw [List.mem_append, List.mem_singleton, ← he.readers]
    show key ∈ (if e.readers.contains feed then e.readers else e.readers ++ [feed]) ↔ _
    split
    · rename_i hmem
      constructor
      · exact Or.inl
      · rintro (hold | rfl)
        · exact hold
        · simpa using hmem
    · rw [List.mem_append, List.mem_singleton]
  standing := he.standing
  stopped := he.stopped
  completed := he.completed

/-- Notes which feeds read which streams. -/
def enterAll (b : Board) (refs : List (FeedKey × StreamId)) : Board :=
  refs.foldl (fun b r => enter b r.1 r.2) b

/-- The feeds that are noted for a stream. -/
def noted (id : StreamId) (refs : List (FeedKey × StreamId)) : List FeedKey :=
  (refs.filter (·.2 = id)).map Prod.fst

/-- There is an entry for every stream that is noted, with the feeds that read it. -/
theorem find?_enterAll (refs : List (FeedKey × StreamId)) (id : StreamId) :
    IsNew (noted id refs) (((enterAll [] refs).find? id).getD {}) ∧
      (((enterAll [] refs).find? id).isSome = true ↔ noted id refs ≠ []) := by
  induction refs using List.reverseRecOn with
  | nil => exact ⟨⟨fun _ => Iff.rfl, rfl, rfl, rfl⟩, by simp [enterAll, noted]⟩
  | append_singleton refs r ih =>
    have hstep : enterAll [] (refs ++ [r]) = (enterAll [] refs).enter r.1 r.2 := by
      rw [enterAll, List.foldl_append]
      rfl
    have hnoted : noted id (refs ++ [r]) = noted id refs ++ if r.2 = id then [r.1] else [] := by
      rw [noted, List.filter_append, List.map_append, noted]
      by_cases hid : r.2 = id <;> simp [hid]
    rw [hstep, hnoted, enter, Table.find?_put]
    by_cases hid : r.2 = id
    · rw [if_pos hid, if_pos hid, hid]
      exact ⟨ih.1.enter r.1, by simp⟩
    · rw [if_neg hid, if_neg hid, List.append_nil]
      exact ih

/-- The board of feeds, one note after the other. -/
theorem make_eq_enterAll (feeds : List Feed) :
    make feeds = enterAll [] (feeds.flatMap fun feed => feed.ids.map (feed.key, ·)) := by
  rw [enterAll, List.foldl_flatMap, make]
  simp only [List.foldl_map]

theorem mem_noted {feeds : List Feed} {id : StreamId} {key : FeedKey} :
    key ∈ noted id (feeds.flatMap fun feed => feed.ids.map (feed.key, ·)) ↔
      ∃ feed ∈ feeds, id ∈ feed.ids ∧ feed.key = key := by
  simp only [noted, List.mem_map, List.mem_filter, List.mem_flatMap, decide_eq_true_eq]
  constructor
  · rintro ⟨_, ⟨⟨feed, hf, other, hid, rfl⟩, rfl⟩, rfl⟩
    exact ⟨feed, hf, hid, rfl⟩
  · rintro ⟨feed, hf, hid, rfl⟩
    exact ⟨(feed.key, id), ⟨⟨feed, hf, id, hid, rfl⟩, rfl⟩, rfl⟩

/-- A new board knows that nothing was told yet. -/
theorem follows_make (feeds : List Feed) : Follows feeds [] (make feeds) [] := by
  have hiff : ∀ id, noted id (feeds.flatMap fun feed => feed.ids.map (feed.key, ·)) ≠ [] ↔
      IsRead feeds id := by
    intro id
    constructor
    · intro hne
      obtain ⟨key, hkey⟩ := List.exists_mem_of_ne_nil _ hne
      obtain ⟨feed, hf, hid, -⟩ := mem_noted.mp hkey
      exact ⟨feed, hf, hid⟩
    · rintro ⟨feed, hf, hid⟩
      exact List.ne_nil_of_mem (mem_noted.mpr ⟨feed, hf, hid, rfl⟩)
  rw [make_eq_enterAll]
  refine ⟨fun id hread => ?_, fun id hread => ⟨?_, rfl⟩⟩
  · obtain ⟨hnew, hsome⟩ := find?_enterAll (feeds.flatMap fun feed => feed.ids.map (feed.key, ·)) id
    obtain ⟨e, he⟩ := Option.isSome_iff_exists.mp (hsome.mpr ((hiff id).mpr hread))
    rw [he, Option.getD_some] at hnew
    refine ⟨e, he, fun key => (hnew.readers key).trans mem_noted, fun key => ?_, ?_, ?_⟩
    · rw [hnew.stopped]
      exact ⟨nofun, fun ⟨t, ht, _⟩ => absurd ht List.not_mem_nil⟩
    · rw [hnew.completed]
      exact ⟨nofun, fun ⟨t, ht, _⟩ => absurd ht List.not_mem_nil⟩
    · rw [hnew.standing]
      exact .pending fun ⟨t, ht, _⟩ => absurd ht List.not_mem_nil
  · obtain ⟨-, hsome⟩ := find?_enterAll (feeds.flatMap fun feed => feed.ids.map (feed.key, ·)) id
    rw [← Option.not_isSome_iff_eq_none, hsome, hiff]
    exact hread

/-- The traces of a stream and its standing after any notices, and the traces of each further notice: a stream
that some feed reads is started by the first touch, and gets its last verdict with the touch after which every
feed that reads it has stopped; a stream that no feed reads gets none. -/
theorem stream_status_traces (feeds : List Feed) (h : List Touch) :
    (∀ id, IsRead feeds id → ∃ standing, ((make feeds).run h).1.standing? id = some standing ∧
      Stage feeds id h standing (verdicts id ((make feeds).run h).2)) ∧
    (∀ id, ¬ IsRead feeds id → ((make feeds).run h).1.standing? id = none ∧
      verdicts id ((make feeds).run h).2 = []) ∧
    ∀ t, (((make feeds).run h).1.touch t.feed t.notice t.id).2 =
      if IsRead feeds t.id then (news feeds h t).map (⟨t.id, ·⟩) else [] := by
  have hf := (follows_make feeds).run h
  refine ⟨fun id hread => ?_, fun id hread => ?_, fun t => (hf.touch t).2⟩
  · obtain ⟨e, hs, hk⟩ := hf.known id hread
    refine ⟨e.standing, ?_, hk.stage⟩
    rw [standing?, hs]
    rfl
  · obtain ⟨hnone, hverdicts⟩ := hf.unknown id hread
    refine ⟨?_, hverdicts⟩
    rw [standing?, hnone]
    rfl

end Intake.Board
