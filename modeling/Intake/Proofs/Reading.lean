import Intake.Proofs.Fate
import Intake.Proofs.Trace
/-!
# A round read at once is a round read in order

While a feed reads the partitions of a round, their tasks go on in any order, and so does everything else
in the read. `FeedTask.Reads` joins the two sides of the matter for one feed: the round is `Faithful` to
the results that the fates of the readers set, and every partition that nobody stopped is on the way that
its fate sets.

The steps keep it (`Reads.part`, `Reads.join`, `Reads.applyNext`), and `Reads.roundEnd_eq` says how the
round ends: as if the partitions had been read one after the other (`serialEnd`). Along a run this becomes
`concurrent_round_eq_serial`.
-/

namespace Intake.Read

/-- How a round ends when its partitions are read one after the other: with the fault of the first one
that has no checkpoint. -/
def serialEnd (feed : String) (number : Nat) (own : List (Except Fault Checkpoint)) : RoundEnd :=
  match own[(leading own).length]? with
  | some (.error e) => .failed (.partition feed number ((leading own).length + 1) e)
  | _ => .more

namespace FeedTask

/-- The partitions of some indices are stopped, and nothing else changes. -/
theorem getElem?_haltParts (parts : List Partition) (indices : List Nat) (j : Nat) :
    (haltParts parts indices)[j]? =
      (parts[j]?).map fun p => if j ∈ indices then { p with halted := true } else p := by
  induction indices generalizing parts with
  | nil => simp [haltParts]
  | cons i rest ih =>
    have hrest := ih (parts.modify i fun p => { p with halted := true })
    simp only [haltParts, List.foldl_cons] at hrest ⊢
    rw [hrest, List.getElem?_modify]
    rcases hp : parts[j]? with _ | p
    · simp
    · by_cases hij : i = j
      · subst hij; simp
      · have hji : ¬ j = i := fun h => hij h.symm
        simp [hij, hji, List.mem_cons]

theorem length_haltParts (parts : List Partition) (indices : List Nat) :
    (haltParts parts indices).length = parts.length := by
  induction indices generalizing parts with
  | nil => rfl
  | cons i rest ih =>
    have hrest := ih (parts.modify i fun p => { p with halted := true })
    simp only [haltParts, List.foldl_cons, List.length_modify] at hrest ⊢
    exact hrest

/-- The partitions after the end of one was taken and others were stopped. -/
theorem getElem?_joined {parts : List Partition} {j k : Nat} {p q : Partition} {indices : List Nat}
    (hp : parts[j]? = some p)
    (hq : (haltParts (parts.set j { p with joined := true }) indices)[k]? = some q) :
    ∃ q₀, parts[k]? = some q₀ ∧ q = { q₀ with
      halted := q₀.halted || decide (k ∈ indices), joined := q₀.joined || decide (k = j) } := by
  rw [getElem?_haltParts] at hq
  obtain ⟨q₁, hq₁, rfl⟩ := Option.map_eq_some_iff.mp hq
  rw [List.getElem?_set] at hq₁
  by_cases hjk : j = k
  · subst hjk
    rw [if_pos rfl, if_pos (List.getElem?_eq_some_iff.mp hp).1] at hq₁
    cases hq₁
    refine ⟨p, hp, ?_⟩
    by_cases hm : j ∈ indices <;> simp [hm]
  · rw [if_neg hjk] at hq₁
    have hkj : ¬ k = j := fun h => hjk h.symm
    refine ⟨q₁, hq₁, ?_⟩
    by_cases hm : k ∈ indices <;> simp [hm, hkj]

/-- What holds while a feed that is not cancelled reads the partitions of a round, given the fates of
their readers. -/
structure Reads (fates : List Fate) (t : FeedTask) (r : Round) : Prop where
  feed_eq : r.feed = t.label
  number_eq : r.number = t.round
  faithful : r.Faithful (fates.map (Fate.result t.label))
  length_eq : t.parts.length = fates.length
  /-- A partition is stopped only together with getting a result. -/
  halted : ∀ (j : Nat) (p : Partition), t.parts[j]? = some p → p.halted = true →
    r.isRecorded j = true
  joined : ∀ (j : Nat) (p : Partition), t.parts[j]? = some p → p.joined = true →
    r.isRecorded j = true
  leads : ∀ (j : Nat) (p : Partition) (f : Fate), t.parts[j]? = some p → fates[j]? = some f →
    p.halted = false → f.Leads p.phase
  passed : ∀ (j : Nat) (p : Partition), t.parts[j]? = some p → p.phase.hasAcquired = true →
    p.passed = true
  /-- The partition right before the first one without a result is over. -/
  inTurn : ∀ (j : Nat) (p : Partition), t.parts[j]? = some p → r.isRecorded j = true →
    j + 1 < r.size → r.isRecorded (j + 1) = false → p.ended?.isSome = true

/-- The partitions of a round are at their beginning when the round begins. -/
theorem eq_start_of_partitions {readers : List Bool} {j : Nat} {p : Partition}
    (h : (partitions readers)[j]? = some p) : ∃ u, p = .start j u := by
  rw [partitions, List.getElem?_mapIdx] at h
  obtain ⟨u, -, rfl⟩ := Option.map_eq_some_iff.mp h
  exact ⟨u, rfl⟩

theorem reads_start {t : FeedTask} {fates : List Fate} {readers : List Bool}
    (hlen : readers.length = fates.length) (hparts : t.parts = partitions readers) :
    Reads fates t (.start t.label t.round readers.length) where
  feed_eq := rfl
  number_eq := rfl
  faithful := by
    have := Round.faithful_start t.label t.round (fates.map (Fate.result t.label))
    rwa [List.length_map, ← hlen] at this
  length_eq := by rw [hparts, partitions, List.length_mapIdx, hlen]
  halted := by
    intro j p hp hh
    obtain ⟨u, rfl⟩ := eq_start_of_partitions (hparts ▸ hp)
    cases hh
  joined := by
    intro j p hp hj
    obtain ⟨u, rfl⟩ := eq_start_of_partitions (hparts ▸ hp)
    cases hj
  leads := by
    intro j p f hp _ _
    obtain ⟨u, rfl⟩ := eq_start_of_partitions (hparts ▸ hp)
    exact f.leads_start j u
  passed := by
    intro j p hp hpast
    obtain ⟨u, rfl⟩ := eq_start_of_partitions (hparts ▸ hp)
    simp only [Partition.start] at hpast
    split at hpast <;> cases hpast
  inTurn := by
    intro j p _ hrec
    rw [Round.isRecorded_start] at hrec
    cases hrec

namespace Reads

variable {fates : List Fate} {t : FeedTask} {r : Round} {v : View}

/-- The invariant does not hang on the phase of the feed, nor on its gate or the cause it was stopped
for. -/
theorem congr (h : Reads fates t r) {t' : FeedTask} (hf : t'.feed = t.feed)
    (hr : t'.round = t.round) (hp : t'.parts = t.parts) : Reads fates t' r where
  feed_eq := by rw [label, hf]; exact h.feed_eq
  number_eq := by rw [hr]; exact h.number_eq
  faithful := by rw [label, hf]; exact h.faithful
  length_eq := by rw [hp]; exact h.length_eq
  halted := by rw [hp]; exact h.halted
  joined := by rw [hp]; exact h.joined
  leads := by rw [hp]; exact h.leads
  passed := by rw [hp]; exact h.passed
  inTurn := by rw [hp]; exact h.inTurn

theorem not_halted (h : Reads fates t r) {j : Nat} {p : Partition} (hp : t.parts[j]? = some p)
    (hn : r.isRecorded j = false) : p.halted = false := by
  rw [Bool.eq_false_iff]
  intro hh
  rw [h.halted j p hp hh] at hn
  cases hn

/-- A step of a partition. -/
theorem part (h : Reads fates t r) (hv : t.cancelledIn v = false) {j : Nat} {p : Partition} {a : Act}
    {next : Partition.Next} (hp : t.parts[j]? = some p)
    (hr : Partition.Rule (t.partView v j p) p a next)
    (ha : ∀ f, fates[j]? = some f → p.halted = false → f.Allows p.phase a) (releases : Nat) :
    Reads fates { t with parts := t.parts.set j next.task, releases } r := by
  obtain ⟨hhalted, hjoined, -⟩ := hr.frame
  have hj : j < t.parts.length := (List.getElem?_eq_some_iff.mp hp).1
  have split : ∀ k q, (t.parts.set j next.task)[k]? = some q →
      (k = j ∧ q = next.task) ∨ t.parts[k]? = some q := by
    intro k q hq
    rw [List.getElem?_set] at hq
    by_cases hjk : j = k
    · subst hjk
      rw [if_pos rfl, if_pos hj] at hq
      exact Or.inl ⟨rfl, (Option.some.inj hq).symm⟩
    · rw [if_neg hjk] at hq
      exact Or.inr hq
  exact {
    feed_eq := h.feed_eq
    number_eq := h.number_eq
    faithful := h.faithful
    length_eq := by rw [List.length_set]; exact h.length_eq
    halted := by
      intro k q hq hh
      rcases split k q hq with ⟨rfl, rfl⟩ | hq
      · exact h.halted k p hp (hhalted ▸ hh)
      · exact h.halted k q hq hh
    joined := by
      intro k q hq hh
      rcases split k q hq with ⟨rfl, rfl⟩ | hq
      · exact h.joined k p hp (hjoined ▸ hh)
      · exact h.joined k q hq hh
    leads := by
      intro k q f hq hf hh
      rcases split k q hq with ⟨rfl, rfl⟩ | hq
      · have hrun : p.halted = false := hhalted ▸ hh
        refine (h.leads k p f hp hf hrun).step hr ?_ (ha f hf hrun)
        simp [partView, hv, hrun]
      · exact h.leads k q f hq hf hh
    passed := by
      intro k q hq hpast
      rcases split k q hq with ⟨rfl, rfl⟩ | hq
      · exact hr.passed (h.passed k p hp) hpast
      · exact h.passed k q hq hpast
    inTurn := by
      intro k q hq hrec hlt hnext
      rcases split k q hq with ⟨rfl, rfl⟩ | hq
      · have hended := h.inTurn k p hp hrec hlt hnext
        rw [hr.ended?_eq_none] at hended
        cases hended
      · exact h.inTurn k q hq hrec hlt hnext }

/-- The end of a partition is taken. -/
theorem join (h : Reads fates t r) (hv : t.cancelledIn v = false) {j : Nat} {t' : FeedTask}
    {r' : Round} (hj : t.join v r j = some (t', r')) :
    Reads fates t' r' ∧ r'.applied = r.applied := by
  obtain ⟨p, e, hp, he, rfl, rfl⟩ := eq_taken_of_join hj
  rw [hv]
  have hsize : j < r.size := by
    rw [h.faithful.size_eq, List.length_map, ← h.length_eq]
    exact (List.getElem?_eq_some_iff.mp hp).1
  -- a partition without a result was not stopped, so it has ended by its fate
  have hown : r.isRecorded j = false →
      (fates.map (Fate.result t.label))[j]? = some (e.result r.feed) := by
    intro hn
    have hrun := h.not_halted hp hn
    obtain ⟨f, hf⟩ : ∃ f, fates[j]? = some f := by
      refine ⟨_, List.getElem?_eq_getElem ?_⟩
      rw [← h.length_eq]
      exact (List.getElem?_eq_some_iff.mp hp).1
    have hl := h.leads j p f hp hf hrun
    have hphase : p.phase = .ended e := by
      unfold Partition.ended? at he
      split at he
      · cases he; assumption
      · cases he
    rw [hphase] at hl
    have hend : f.ended = e := hl
    rw [List.getElem?_map, hf, h.feed_eq, ← hend]
    rfl
  obtain ⟨hfeed, hnumber, happlied, hsize'⟩ := r.observe_frame false j e
  refine ⟨?_, happlied⟩
  exact {
    feed_eq := hfeed.trans h.feed_eq
    number_eq := hnumber.trans h.number_eq
    faithful := h.faithful.observe hown
    length_eq := by rw [taken, length_haltParts, List.length_set]; exact h.length_eq
    halted := by
      intro k q hq hh
      obtain ⟨q₀, hq₀, rfl⟩ := getElem?_joined hp hq
      rcases Bool.or_eq_true_iff.mp hh with hh₀ | hmem
      · exact Round.isRecorded_observe_mono hsize false e (h.halted k q₀ hq₀ hh₀)
      · exact Round.isRecorded_of_mem_observe hsize (of_decide_eq_true hmem)
    joined := by
      intro k q hq hh
      obtain ⟨q₀, hq₀, rfl⟩ := getElem?_joined hp hq
      rcases Bool.or_eq_true_iff.mp hh with hh₀ | hkj
      · exact Round.isRecorded_observe_mono hsize false e (h.joined k q₀ hq₀ hh₀)
      · obtain rfl := of_decide_eq_true hkj
        exact Round.isRecorded_observe_self hsize false e
    leads := by
      intro k q f hq hf hh
      obtain ⟨q₀, hq₀, rfl⟩ := getElem?_joined hp hq
      exact h.leads k q₀ f hq₀ hf (Bool.or_eq_false_iff.mp hh).1
    passed := by
      intro k q hq hpast
      obtain ⟨q₀, hq₀, rfl⟩ := getElem?_joined hp hq
      exact h.passed k q₀ hq₀ hpast
    inTurn := by
      intro k q hq (hrec : (r.observe false j e).1.isRecorded k = true)
        (hlt : k + 1 < (r.observe false j e).1.size)
        (hnext : (r.observe false j e).1.isRecorded (k + 1) = false)
      rw [hsize'] at hlt
      obtain ⟨q₀, hq₀, rfl⟩ := getElem?_joined hp hq
      have hopen : r.isRecorded (k + 1) = false := by
        rw [Bool.eq_false_iff]
        intro hn
        rw [Round.isRecorded_observe_mono hsize false e hn] at hnext
        cases hnext
      rcases Round.isRecorded_of_observe hsize hrec with hrec | rfl | hall
      · exact h.inTurn k q₀ hq₀ hrec hlt hopen
      · rw [hp] at hq₀; cases hq₀
        exact Option.isSome_of_eq_some he
      · rw [hall hlt] at hnext
        cases hnext }

/-- The next checkpoint is applied. -/
theorem applyNext (h : Reads fates t r) {c : Checkpoint} (hc : r.next? = some c) :
    Reads fates t r.applyNext where
  feed_eq := h.feed_eq
  number_eq := h.number_eq
  faithful := h.faithful.applyNext hc
  length_eq := h.length_eq
  halted := h.halted
  joined := h.joined
  leads := h.leads
  passed := h.passed
  inTurn := h.inTurn

/-- When a feed closes a round, every partition has a result. -/
theorem isRecorded_of_closes (h : Reads fates t r)
    (hc : (r.full || t.parts.all (·.joined)) = true) {j : Nat} (hj : j < r.size) :
    r.isRecorded j = true := by
  rcases Bool.or_eq_true_iff.mp hc with hfull | hall
  · exact Round.Tallied.isRecorded_of_full h.faithful.recorded_eq hfull hj
  · have hlt : j < t.parts.length := by
      rw [h.length_eq, ← List.length_map (Fate.result t.label), ← h.faithful.size_eq]
      exact hj
    refine h.joined j _ (List.getElem?_eq_getElem hlt) ?_
    exact List.all_eq_true.mp hall _ (List.getElem_mem hlt)

/-- A feed closes a round with all leading checkpoints applied, and the round ends as if its partitions
had been read one after the other. -/
theorem roundEnd_eq (h : Reads fates t r) (hv : t.cancelledIn v = false) (hn : r.next? = none)
    (hc : (r.full || t.parts.all (·.joined)) = true) :
    r.applied = (leading (fates.map (Fate.result t.label))).length ∧
      t.roundEnd v r = serialEnd t.label t.round (fates.map (Fate.result t.label)) := by
  have hall : ∀ j < r.size, r.isRecorded j = true := fun j hj => h.isRecorded_of_closes hc hj
  refine ⟨h.faithful.applied_eq hall hn, ?_⟩
  unfold roundEnd serialEnd
  rw [hv, h.faithful.verdict_eq hall, h.feed_eq, h.number_eq]
  rcases (fates.map (Fate.result t.label))[(leading (fates.map (Fate.result t.label))).length]?
    with _ | (e | c) <;> rfl

end Reads

/-! ### What a feed can do in a round -/

section
variable {fates : List Fate} {t : FeedTask} {r : Round} {v : View}

theorem step_applies (hphase : t.phase = .reading r) {c : Checkpoint} (hn : r.next? = some c)
    (s : Shared) :
    t.step v s .go = some (t.gotoWith (t.applyCheckpoint s c) (.reading r.applyNext)
      [.publish (t.appliedEvent r.applied c)]) := by
  simp only [step, hphase, stepReading, hn]
  rfl

theorem step_closes (hphase : t.phase = .reading r) (hn : r.next? = none) (hfull : r.full = true)
    (s : Shared) : t.step v s .go = some (t.goto s (.locking (t.roundEnd v r))) := by
  simp only [step, hphase, stepReading, hn, hfull, Bool.true_or, if_true]
  rfl

/-- A feed can take the end of any partition that has ended and whose end was not taken, as long as a result is
missing. -/
theorem step_joins_of (hphase : t.phase = .reading r) (hn : r.next? = none) (hfull : r.full = false) {j : Nat}
    {p : Partition} {e : Ended} (hp : t.parts[j]? = some p) (he : p.ended? = some e) (hj : p.joined = false)
    (s : Shared) :
    t.join v r j = some (t.taken j p (r.observe (t.cancelledIn v) j e).2, (r.observe (t.cancelledIn v) j e).1) ∧
      t.step v s (.join j) = some ((t.taken j p (r.observe (t.cancelledIn v) j e).2).goto s
        (.reading (r.observe (t.cancelledIn v) j e).1)) := by
  have hjoin : t.join v r j =
      some (t.taken j p (r.observe (t.cancelledIn v) j e).2, (r.observe (t.cancelledIn v) j e).1) := by
    simp only [FeedTask.join, hp, Option.bind_eq_bind, Option.bind_some, he, hj, Bool.false_eq_true, if_false]
    rfl
  refine ⟨hjoin, ?_⟩
  simp only [step, hphase, stepReading, hn, Option.isNone_none, hfull, Bool.not_false,
    Bool.and_self, if_true, Option.bind_eq_bind, hjoin, Option.bind_some]
  rfl

/-- A feed that is not cancelled can take the end of any partition that has ended and has no result. -/
theorem Reads.step_joins (h : Reads fates t r) (hv : t.cancelledIn v = false)
    (hphase : t.phase = .reading r) (hn : r.next? = none) (hfull : r.full = false) {j : Nat}
    {p : Partition} (hp : t.parts[j]? = some p) (hrec : r.isRecorded j = false)
    (he : p.ended?.isSome = true) (s : Shared) :
    ∃ e, t.join v r j = some (t.taken j p (r.observe false j e).2, (r.observe false j e).1) ∧
      t.step v s (.join j) = some ((t.taken j p (r.observe false j e).2).goto s
        (.reading (r.observe false j e).1)) := by
  obtain ⟨e, he⟩ := Option.isSome_iff_exists.mp he
  have hj : p.joined = false := by
    rw [Bool.eq_false_iff]
    intro hj
    rw [h.joined j p hp hj] at hrec
    cases hrec
  refine ⟨e, ?_⟩
  have hboth := step_joins_of (v := v) hphase hn hfull hp he hj s
  rwa [hv] at hboth

end

/-- Whether a task reads the partitions of a round and is not cancelled. -/
def readsIn (v : View) (t : FeedTask) : Bool :=
  match t.phase with
  | .reading _ => !t.cancelledIn v
  | _ => false

theorem readsIn_iff {v : View} {t : FeedTask} :
    t.readsIn v = true ↔ ∃ r, t.phase = .reading r ∧ t.cancelledIn v = false := by
  unfold readsIn
  split
  · rename_i r hr
    simp [hr]
  · rename_i hn
    simp only [Bool.false_eq_true, false_iff]
    rintro ⟨r, hr, -⟩
    exact hn r hr

end FeedTask

/-! ### Along a run -/

namespace System

/-- What the feed of an index does to the ledger in some steps. -/
def opsBy (i : Nat) (steps : List Step) : List Ledger.Op :=
  (steps.filter (·.byFeed i)).filterMap (·.op?)

/-- The effects of the feed of an index in some steps, those of its partitions not counted. -/
def effectsBy (i : Nat) (steps : List Step) : List Effect :=
  (steps.filter (·.byFeed i)).flatMap (·.effects)

theorem opsBy_cons_self {i : Nat} {a : Act} {before after : System} {effects : List Effect}
    (rest : List Step) : opsBy i (⟨before, .feed i a, effects, after⟩ :: rest) =
      (before.op? (.feed i a)).toList ++ opsBy i rest := by
  simp only [opsBy, List.filter_cons, Step.byFeed, beq_self_eq_true, if_true, List.filterMap_cons,
    Step.op?]
  rcases before.op? (.feed i a) with _ | op <;> rfl

theorem effectsBy_cons_self {i : Nat} {a : Act} {before after : System} {effects : List Effect}
    (rest : List Step) : effectsBy i (⟨before, .feed i a, effects, after⟩ :: rest) =
      effects ++ effectsBy i rest := by
  simp [effectsBy, Step.byFeed]

theorem byFeed_eq_false {i : Nat} {st : Step} (h : ∀ a, st.move ≠ .feed i a) :
    st.byFeed i = false := by
  unfold Step.byFeed
  split
  · rename_i k a hk
    rw [beq_eq_false_iff_ne]
    rintro rfl
    exact h a hk
  · rfl

theorem opsBy_cons_of_ne {i : Nat} {st : Step} (h : ∀ a, st.move ≠ .feed i a) (rest : List Step) :
    opsBy i (st :: rest) = opsBy i rest := by
  simp [opsBy, byFeed_eq_false h]

theorem effectsBy_cons_of_ne {i : Nat} {st : Step} (h : ∀ a, st.move ≠ .feed i a)
    (rest : List Step) : effectsBy i (st :: rest) = effectsBy i rest := by
  simp [effectsBy, byFeed_eq_false h]

/-- The feed of an index has just begun to read the partitions of a round. -/
structure OpensRound (s : System) (i : Nat) (t : FeedTask) (key : SlotKey) (readers : List Bool) :
    Prop where
  begun : s.begun = true
  task : s.feeds[i]? = some t
  scope : s.shared.ledger.scope? t.feed = some key
  phase : t.phase = .reading (.start t.label t.round readers.length)
  parts : t.parts = FeedTask.partitions readers

/-- The feed of an index reads the partitions of a round and is not cancelled. -/
def ReadsRound (s : System) (i : Nat) : Prop :=
  ∃ t r, s.feeds[i]? = some t ∧ t.phase = .reading r ∧ t.cancelledIn (s.feedView i) = false

instance (s : System) (i : Nat) : Decidable (s.ReadsRound i) :=
  decidable_of_iff ((s.feeds[i]?).any (·.readsIn (s.feedView i)) = true) <| by
    simp only [Option.any_eq_true, FeedTask.readsIn_iff, ReadsRound, exists_and_left]

/-- A step agrees with the fates of the readers of a feed: if it is one of a partition that was not
stopped, the reader acts by its fate. -/
def Step.Agrees (i : Nat) (fates : List Fate) (st : Step) : Prop :=
  ∀ (j : Nat) (a : Act) (t : FeedTask) (p : Partition) (f : Fate), st.move = .partition i j a →
    st.before.feeds[i]? = some t → t.parts[j]? = some p → fates[j]? = some f → p.halted = false →
    f.Allows p.phase a

/-- The feed of an index is in the round that `t₀` began. -/
structure InRound (i : Nat) (t₀ : FeedTask) (key : SlotKey) (fates : List Fate) (s : System)
    (r : Round) : Prop where
  begun : s.begun = true
  scope : s.shared.ledger.scope? t₀.feed = some key
  task : ∃ t, s.feeds[i]? = some t ∧ t.feed = t₀.feed ∧ t.round = t₀.round ∧
    t.phase = .reading r ∧ FeedTask.Reads fates t r

theorem OpensRound.inRound {s : System} {i : Nat} {t : FeedTask} {key : SlotKey}
    {readers : List Bool} {fates : List Fate} (h : s.OpensRound i t key readers)
    (hlen : fates.length = readers.length) :
    InRound i t key fates s (.start t.label t.round readers.length) where
  begun := h.begun
  scope := h.scope
  task := ⟨t, h.task, rfl, rfl, h.phase, FeedTask.reads_start hlen.symm h.parts⟩

/-- What the feed is to do to the ledger in a round, in order. -/
def roundOps (key : SlotKey) (cs : List Checkpoint) : List Ledger.Op :=
  cs.map fun c => .set key c.state c.records

/-- What the feed is to publish in a round, in order. -/
def roundEffects (t : FeedTask) (cs : List Checkpoint) : List Effect :=
  cs.mapIdx fun k c => .publish (t.appliedEvent k c)

section
variable {i : Nat} {t₀ : FeedTask} {key : SlotKey} {fates : List Fate} {s s' : System} {r : Round}

/-- One step while the feed of an index is in a round: it stays in the round and does what is next in
order, or it closes the round, and then nothing was left to do. -/
theorem InRound.step (h : InRound i t₀ key fates s r) {move : Move} {effects : List Effect}
    (hs : s.step move = some (s', effects)) (hreads : s.ReadsRound i)
    (hagree : Step.Agrees i fates ⟨s, move, effects, s'⟩) :
    (∃ r', InRound i t₀ key fates s' r' ∧
      (roundOps key (leading (fates.map (Fate.result t₀.label)))).take r.applied ++
          opsBy i [⟨s, move, effects, s'⟩] =
        (roundOps key (leading (fates.map (Fate.result t₀.label)))).take r'.applied ∧
      (roundEffects t₀ (leading (fates.map (Fate.result t₀.label)))).take r.applied ++
          effectsBy i [⟨s, move, effects, s'⟩] =
        (roundEffects t₀ (leading (fates.map (Fate.result t₀.label)))).take r'.applied) ∨
    ((∃ t', s'.feeds[i]? = some t' ∧
        t'.phase = .locking (serialEnd t₀.label t₀.round (fates.map (Fate.result t₀.label)))) ∧
      r.applied = (leading (fates.map (Fate.result t₀.label))).length ∧
      opsBy i [⟨s, move, effects, s'⟩] = [] ∧ effectsBy i [⟨s, move, effects, s'⟩] = []) := by
  obtain ⟨t, ht, hfeed, hround, hphase, hin⟩ := h.task
  have hlabel : t.label = t₀.label := by rw [FeedTask.label, hfeed]; rfl
  have hv : t.cancelledIn (s.feedView i) = false := by
    obtain ⟨u, -, hu, -, hv⟩ := hreads
    rw [ht] at hu; cases hu
    exact hv
  have hbegun := begun_step hs h.begun
  have hscope := (scope?_step hs t₀.feed).trans h.scope
  have hlt := (List.getElem?_eq_some_iff.mp ht).1
  rcases step_at hs ht with ⟨a, next, rfl, hr, rfl, rfl⟩ | ⟨j, a, p, next, releases, rfl, hp, hr, rfl⟩ |
    ⟨hne, halted, cause, ht', -⟩
  · -- the feed's own step
    rw [opsBy_cons_self, effectsBy_cons_self]
    simp only [op?, ht, Option.bind_some]
    rcases hr.of_reading hphase with ⟨c, rfl, hn, rfl⟩ | ⟨rfl, hn, hc, rfl⟩ |
      ⟨j, t', r', rfl, hn, hf, hj, rfl⟩
    · -- it applies the next checkpoint
      have hc := hin.faithful.leading_of_next? hn
      rw [hlabel] at hc
      refine Or.inl ⟨r.applyNext, ⟨hbegun, hscope, _, List.getElem?_set_self hlt, hfeed, hround, rfl,
        (hin.applyNext hn).congr rfl rfl rfl⟩, ?_, ?_⟩
      · simp only [FeedTask.op?, hphase, hn, hfeed, h.scope, Round.applyNext, List.take_add_one,
          roundOps, List.getElem?_map, hc]
        rfl
      · simp only [FeedTask.gotoWith, Round.applyNext, List.take_add_one, roundEffects,
          List.getElem?_mapIdx, hc, FeedTask.appliedEvent, FeedTask.roundEvent, hlabel, hround]
        rfl
    · -- it closes the round
      obtain ⟨happlied, hend⟩ := hin.roundEnd_eq hv hn hc
      rw [hlabel] at happlied hend
      rw [hround] at hend
      refine Or.inr ⟨⟨_, List.getElem?_set_self hlt, ?_⟩, happlied, ?_, rfl⟩
      · rw [← hend]; rfl
      · simp only [FeedTask.op?, hphase, hn]; rfl
    · -- it takes the end of a partition
      obtain ⟨hin', happlied⟩ := hin.join hv hj
      obtain ⟨parts, rfl⟩ := FeedTask.join_frame hj
      refine Or.inl ⟨r', ⟨hbegun, hscope, _, List.getElem?_set_self hlt, hfeed, hround, rfl,
        hin'.congr rfl rfl rfl⟩, ?_, ?_⟩
      · rw [happlied]; exact List.append_nil _
      · rw [happlied]; exact List.append_nil _
  · -- a step of one of its partitions
    have hne : ∀ b, (Move.partition i j a) ≠ .feed i b := by rintro b ⟨⟩
    refine Or.inl ⟨r, ⟨hbegun, hscope, _, List.getElem?_set_self hlt, hfeed, hround, hphase,
      hin.part hv hp hr (fun f hf hh => hagree j a t p f rfl ht hp hf hh) releases⟩, ?_, ?_⟩
    · rw [opsBy_cons_of_ne hne]; exact List.append_nil _
    · rw [effectsBy_cons_of_ne hne]; exact List.append_nil _
  · -- a step of somebody else
    refine Or.inl ⟨r, ⟨hbegun, hscope, _, ht', hfeed, hround, hphase, hin.congr rfl rfl rfl⟩, ?_, ?_⟩
    · rw [opsBy_cons_of_ne hne]; exact List.append_nil _
    · rw [effectsBy_cons_of_ne hne]; exact List.append_nil _

theorem opsBy_cons (i : Nat) (st : Step) (rest : List Step) :
    opsBy i (st :: rest) = opsBy i [st] ++ opsBy i rest := by
  rw [← List.singleton_append, opsBy, List.filter_append, List.filterMap_append]; rfl

theorem effectsBy_cons (i : Nat) (st : Step) (rest : List Step) :
    effectsBy i (st :: rest) = effectsBy i [st] ++ effectsBy i rest := by
  rw [← List.singleton_append, effectsBy, List.filter_append, List.flatMap_append]; rfl

/-- A run through which the feed of an index reads a round: it does, in order, what is left to do of the
round, and closes it at most at the end. -/
theorem InRound.run (h : InRound i t₀ key fates s r) {moves : List Move} {effects : List Effect}
    (hrun : s.run moves = some (s', effects))
    (hreads : ∀ st ∈ s.trace moves, st.before.ReadsRound i)
    (hagree : ∀ st ∈ s.trace moves, st.Agrees i fates) :
    (∃ r', InRound i t₀ key fates s' r' ∧
      (roundOps key (leading (fates.map (Fate.result t₀.label)))).take r.applied ++
          opsBy i (s.trace moves) =
        (roundOps key (leading (fates.map (Fate.result t₀.label)))).take r'.applied ∧
      (roundEffects t₀ (leading (fates.map (Fate.result t₀.label)))).take r.applied ++
          effectsBy i (s.trace moves) =
        (roundEffects t₀ (leading (fates.map (Fate.result t₀.label)))).take r'.applied) ∨
    ((∃ t', s'.feeds[i]? = some t' ∧
        t'.phase = .locking (serialEnd t₀.label t₀.round (fates.map (Fate.result t₀.label)))) ∧
      (roundOps key (leading (fates.map (Fate.result t₀.label)))).take r.applied ++
          opsBy i (s.trace moves) =
        roundOps key (leading (fates.map (Fate.result t₀.label))) ∧
      (roundEffects t₀ (leading (fates.map (Fate.result t₀.label)))).take r.applied ++
          effectsBy i (s.trace moves) =
        roundEffects t₀ (leading (fates.map (Fate.result t₀.label)))) := by
  induction moves generalizing s r effects with
  | nil =>
    cases hrun
    exact Or.inl ⟨r, h, List.append_nil _, List.append_nil _⟩
  | cons move rest ih =>
    obtain ⟨mid, first, later, hm, hl, rfl⟩ := run_cons hrun
    rw [trace_cons hm] at hreads hagree ⊢
    rw [opsBy_cons, effectsBy_cons, ← List.append_assoc, ← List.append_assoc]
    have hrest : ∀ st ∈ mid.trace rest, st.before.ReadsRound i :=
      fun st hst => hreads st (List.mem_cons_of_mem _ hst)
    rcases h.step hm (hreads _ List.mem_cons_self) (hagree _ List.mem_cons_self) with
      ⟨r₁, h₁, hops, heff⟩ | ⟨⟨t', ht', hphase⟩, happlied, hops, heff⟩
    · rw [hops, heff]
      exact ih h₁ hl hrest fun st hst => hagree st (List.mem_cons_of_mem _ hst)
    · -- the feed does not read any more, so this was the last step
      cases rest with
      | nil =>
        cases hl
        refine Or.inr ⟨⟨t', ht', hphase⟩, ?_, ?_⟩
        · rw [hops, happlied, List.append_nil]
          exact (List.append_nil _).trans (List.take_of_length_le (by simp [roundOps]))
        · rw [heff, happlied, List.append_nil]
          exact (List.append_nil _).trans (List.take_of_length_le (by simp [roundEffects]))
      | cons move' rest' =>
        obtain ⟨mid', first', later', hm', -, -⟩ := run_cons hl
        rw [trace_cons hm'] at hrest
        obtain ⟨u, r', hu, hu', -⟩ := hrest _ List.mem_cons_self
        simp only at hu
        rw [ht'] at hu; cases hu
        rw [hphase] at hu'; cases hu'

/-! ### A round comes to its end -/

theorem step_feed_of {a : Act} {t : FeedTask} {next : FeedTask.Next} (hb : s.begun = true)
    (ht : s.feeds[i]? = some t) (hs : t.step (s.feedView i) s.shared a = some next) :
    s.step (.feed i a) =
      some ({ s with shared := next.shared, feeds := s.feeds.set i next.task }, next.effects) := by
  simp only [System.step, hb, if_true, ht, Option.bind_eq_bind, Option.bind_some, hs]
  rfl

/-- Every partition that has no result has come to its end. -/
def AllEnded (t : FeedTask) (r : Round) : Prop :=
  ∀ (j : Nat) (p : Partition), t.parts[j]? = some p → r.isRecorded j = false → p.ended?.isSome = true

/-- When the partitions without a result have ended, the feed can close the round by itself. -/
theorem InRound.closes (h : InRound i t₀ key fates s r)
    (hv : ∀ t, s.feeds[i]? = some t → t.cancelledIn (s.feedView i) = false)
    (hended : ∀ t, s.feeds[i]? = some t → AllEnded t r) :
    ∃ (acts : List Act) (s' : System) (effects : List Effect) (t' : FeedTask),
      s.run (acts.map (Move.feed i)) = some (s', effects) ∧
      (∀ st ∈ s.trace (acts.map (Move.feed i)), st.before.ReadsRound i) ∧
      s'.feeds[i]? = some t' ∧
      t'.phase = .locking (serialEnd t₀.label t₀.round (fates.map (Fate.result t₀.label))) := by
  generalize hleft : r.left = left
  induction left using Nat.strongRecOn generalizing s r with
  | _ left ih =>
    obtain ⟨t, ht, hfeed, hround, hphase, hin⟩ := h.task
    have hlabel : t.label = t₀.label := by rw [FeedTask.label, hfeed]; rfl
    have hlt := (List.getElem?_eq_some_iff.mp ht).1
    have hvt := hv t ht
    have hreads : s.ReadsRound i := ⟨t, r, ht, hphase, hvt⟩
    have hfaith := hin.faithful
    rw [hlabel] at hfaith
    -- it is enough to make one step into a state that has less to do
    have onward : ∀ a next r', t.step (s.feedView i) s.shared a = some next →
        InRound i t₀ key fates
          { s with shared := next.shared, feeds := s.feeds.set i next.task } r' →
        next.task.halted = t.halted → AllEnded next.task r' →
        r'.left < left →
        ∃ (acts : List Act) (s' : System) (effects : List Effect) (t' : FeedTask),
          s.run (acts.map (Move.feed i)) = some (s', effects) ∧
          (∀ st ∈ s.trace (acts.map (Move.feed i)), st.before.ReadsRound i) ∧
          s'.feeds[i]? = some t' ∧
          t'.phase = .locking (serialEnd t₀.label t₀.round (fates.map (Fate.result t₀.label))) := by
      intro a next r' hs hin' hhalted hend hless
      have hm := step_feed_of h.begun ht hs
      obtain ⟨acts, s', effects, t', hrun, hacts, ht', hphase'⟩ := ih _ hless hin' (by
          intro u hu
          rw [List.getElem?_set_self hlt] at hu; cases hu
          simpa [FeedTask.cancelledIn, feedView, hhalted] using hvt) (by
          intro u hu
          rw [List.getElem?_set_self hlt] at hu; cases hu
          exact hend) rfl
      refine ⟨a :: acts, s', _, t', run_cons_of hm hrun, ?_, ht', hphase'⟩
      rw [List.map_cons, trace_cons hm]
      exact List.forall_mem_cons.mpr ⟨hreads, hacts⟩
    rcases hn : r.next? with _ | c
    · by_cases hfull : r.full = true
      · -- nothing is left to do
        have hc : (r.full || t.parts.all (·.joined)) = true := by rw [hfull]; rfl
        obtain ⟨-, hend⟩ := hin.roundEnd_eq hvt hn hc
        rw [hlabel, hround] at hend
        have hm := step_feed_of h.begun ht (FeedTask.step_closes hphase hn hfull s.shared)
        refine ⟨[.go], _, _, _, run_cons_of hm rfl, ?_, List.getElem?_set_self hlt, ?_⟩
        · rw [List.map_cons, trace_cons hm]
          exact List.forall_mem_cons.mpr ⟨hreads, fun st hst => nomatch hst⟩
        · rw [← hend]; rfl
      · -- the end of a partition can be taken
        have hfull' := Bool.eq_false_iff.mpr hfull
        obtain ⟨j, hj, hrec, -⟩ := hfaith.exists_first_open hfull'
        have hjlt : j < t.parts.length := by
          rw [hin.length_eq, ← List.length_map (Fate.result t₀.label), ← hfaith.size_eq]
          exact hj
        have hp := List.getElem?_eq_getElem hjlt
        obtain ⟨e, hjoin, hs⟩ := hin.step_joins hvt hphase hn hfull' hp hrec
          (hended t ht j _ hp hrec) s.shared
        obtain ⟨hin', -⟩ := hin.join hvt hjoin
        refine onward _ _ _ hs ⟨h.begun, h.scope, _, List.getElem?_set_self hlt, hfeed, hround, rfl,
          hin'.congr rfl rfl rfl⟩ rfl ?_ (hleft ▸ Round.left_observe_lt hfull' hrec false e)
        intro k q hq hk
        obtain ⟨q₀, hq₀, rfl⟩ := FeedTask.getElem?_joined hp hq
        refine hended t ht k q₀ hq₀ (Bool.eq_false_iff.mpr fun hrec' => ?_)
        rw [Round.isRecorded_observe_mono hj false e hrec'] at hk
        cases hk
    · -- the next checkpoint can be applied
      have hs := FeedTask.step_applies (v := s.feedView i) hphase hn s.shared
      have hm := step_feed_of h.begun ht hs
      refine onward _ _ r.applyNext hs ⟨h.begun, ?_, _, List.getElem?_set_self hlt, hfeed, hround, rfl,
        (hin.applyNext hn).congr rfl rfl rfl⟩ rfl (hended t ht)
        (hleft ▸ Round.left_applyNext_lt hn)
      exact (scope?_step hm t₀.feed).trans h.scope

end

/-- When a feed goes on by itself, what it does is all that is done. -/
theorem by_of_feed (s : System) (i : Nat) (acts : List Act) :
    opsBy i (s.trace (acts.map (Move.feed i))) = (s.trace (acts.map (Move.feed i))).filterMap (·.op?) ∧
      effectsBy i (s.trace (acts.map (Move.feed i))) =
        (s.trace (acts.map (Move.feed i))).flatMap (·.effects) := by
  have hall : (s.trace (acts.map (Move.feed i))).filter (·.byFeed i) = s.trace (acts.map (Move.feed i)) := by
    refine List.filter_eq_self.mpr fun st hst => ?_
    obtain ⟨a, -, ha⟩ := List.mem_map.mp (move_mem_of_mem_trace hst)
    simp [Step.byFeed, ← ha]
  rw [opsBy, effectsBy, hall]
  exact ⟨rfl, rfl⟩

/-- **A concurrent round is a serial one.** Let a feed begin to read the partitions of a round, and let
their readers have any fates. Then on every schedule through which the feed reads and is not cancelled,
and in which the readers act by their fates, the feed sets, in index order and each once, the checkpoints
before the first partition that has none, and tells of exactly these. When it is through, the round ends
with the fault of that partition, or well if there is none. As soon as all partitions without a result
have ended, the feed comes through by itself, and the checkpoints that are left are all that it sets and
tells of on the way. The ledger is what the operations of the steps have made of it, those of the feed and
those of others, and each step changes it by its own operation only. -/
theorem concurrent_round_eq_serial {s s' : System} {i : Nat} {t : FeedTask} {key : SlotKey}
    {readers : List Bool} {fates : List Fate} {moves : List Move} {effects : List Effect}
    (hopen : s.OpensRound i t key readers) (hlen : fates.length = readers.length)
    (hrun : s.run moves = some (s', effects))
    (hreads : ∀ st ∈ s.trace moves, st.before.ReadsRound i)
    (hagree : ∀ st ∈ s.trace moves, st.Agrees i fates) :
    let own := fates.map (Fate.result t.label)
    let ops := roundOps key (leading own)
    let told := roundEffects t (leading own)
    (∀ st ∈ s.trace moves, st.after.shared.ledger =
      st.op?.elim st.before.shared.ledger st.before.shared.ledger.apply) ∧
    s'.shared.ledger = ((s.trace moves).filterMap (·.op?)).foldl Ledger.apply s.shared.ledger ∧
    effects = (s.trace moves).flatMap (·.effects) ∧
    ∃ t', s'.feeds[i]? = some t' ∧
      ((t'.phase = .locking (serialEnd t.label t.round own) ∧
          opsBy i (s.trace moves) = ops ∧ effectsBy i (s.trace moves) = told) ∨
        (∃ r, t'.phase = .reading r ∧
          opsBy i (s.trace moves) = ops.take r.applied ∧
          effectsBy i (s.trace moves) = told.take r.applied ∧
          (t'.cancelledIn (s'.feedView i) = false → AllEnded t' r →
            ∃ (acts : List Act) (s'' : System) (later : List Effect) (t'' : FeedTask),
              s'.run (acts.map (Move.feed i)) = some (s'', later) ∧ s''.feeds[i]? = some t'' ∧
              t''.phase = .locking (serialEnd t.label t.round own) ∧
              opsBy i (s.trace moves) ++ opsBy i (s'.trace (acts.map (Move.feed i))) = ops ∧
              effectsBy i (s.trace moves) ++ effectsBy i (s'.trace (acts.map (Move.feed i))) = told ∧
              s''.shared.ledger = (ops.drop r.applied).foldl Ledger.apply s'.shared.ledger ∧
              later = told.drop r.applied))) := by
  intro own ops told
  refine ⟨fun st hst => step_ledger (step_of_mem_trace hst), ledger_eq_trace hrun, effects_eq_trace hrun, ?_⟩
  rcases (hopen.inRound hlen).run hrun hreads hagree with
    ⟨r, hin, hops, heff⟩ | ⟨⟨t', ht', hphase⟩, hops, heff⟩
  · obtain ⟨t', ht', hfeed, hround, hphase, -⟩ := hin.task
    -- nothing was applied when the round began
    have hops : opsBy i (s.trace moves) = ops.take r.applied := hops
    have heff : effectsBy i (s.trace moves) = told.take r.applied := heff
    refine ⟨t', ht', Or.inr ⟨r, hphase, hops, heff, fun hv hended => ?_⟩⟩
    obtain ⟨acts, s'', later, t'', hrun', hreads', ht'', hphase'⟩ := hin.closes
      (fun u hu => by rw [ht'] at hu; cases hu; exact hv)
      (fun u hu => by rw [ht'] at hu; cases hu; exact hended)
    refine ⟨acts, s'', later, t'', hrun', ht'', hphase', ?_⟩
    have hagree' : ∀ st ∈ s'.trace (acts.map (Move.feed i)), st.Agrees i fates := by
      intro st hst j a u p f hm
      obtain ⟨b, -, hb⟩ := List.mem_map.mp (move_mem_of_mem_trace hst)
      rw [← hb] at hm
      cases hm
    rcases hin.run hrun' hreads' hagree' with ⟨r', hin', -, -⟩ | ⟨-, hops', heff'⟩
    · obtain ⟨u, hu, -, -, hp, -⟩ := hin'.task
      rw [ht''] at hu; cases hu
      rw [hphase'] at hp; cases hp
    · have hops' : ops.take r.applied ++ opsBy i (s'.trace (acts.map (Move.feed i))) = ops := hops'
      have heff' : told.take r.applied ++ effectsBy i (s'.trace (acts.map (Move.feed i))) = told := heff'
      rw [hops, heff]
      refine ⟨hops', heff', ?_, ?_⟩
      · rw [ledger_eq_trace hrun', ← (by_of_feed s' i acts).1,
          List.append_cancel_left (hops'.trans (List.take_append_drop _ _).symm)]
      · rw [effects_eq_trace hrun', ← (by_of_feed s' i acts).2,
          List.append_cancel_left (heff'.trans (List.take_append_drop _ _).symm)]
  · exact ⟨t', ht', Or.inl ⟨hphase, hops, heff⟩⟩

/-- A stream feed that has just begun to read two partitions. -/
def twoPartitions : System where
  settings := {}
  factories := 1
  shared := { ledger := .make none [({ id := ⟨"users", none⟩ }, none)], board := [] }
  feeds := [{
    feed := .stream { id := ⟨"users", none⟩ }
    phase := .reading (.start "users" 1 2)
    parts := FeedTask.partitions [false, false] }]
  watch := .joining .streams [0]

/-- The reader of the first partition answers with a checkpoint, that of the second is lost. -/
def lostSecond : List Fate := [.answers .completed (.checkpoint ⟨.bool true, 3⟩), .lost "gone"]

/-- A schedule in which the second partition ends first. -/
def secondFirst : List Move :=
  [ .partition 0 0 .go, .partition 0 0 (.probe .ready), .partition 0 0 .go
  , .partition 0 1 .go, .partition 0 1 .go, .partition 0 1 (.probe (.crashed "gone"))
  , .feed 0 (.join 1)
  , .partition 0 0 .go, .partition 0 0 .go, .partition 0 0 (.ran .done), .partition 0 0 .go
  , .partition 0 0 .go, .partition 0 0 (.saved (.checkpoint ⟨.bool true, 3⟩)), .partition 0 0 .go
  , .feed 0 (.join 0), .feed 0 .go, .feed 0 .go ]

/-- The failure comes first, and the checkpoint before it in order is still applied. -/
theorem concurrent_round_eq_serial_second_first :
    ∃ s' effects t', twoPartitions.run secondFirst = some (s', effects) ∧ s'.feeds[0]? = some t' ∧
      t'.phase = .locking (.failed (.partition "users" 1 2 (.crashed "users" "gone"))) ∧
      opsBy 0 (twoPartitions.trace secondFirst) =
        [.set (.stream ⟨"users", none⟩) (.bool true) 3] ∧
      s'.shared.ledger =
        twoPartitions.shared.ledger.apply (.set (.stream ⟨"users", none⟩) (.bool true) 3) := by
  have hopen : twoPartitions.OpensRound 0 _ (.stream ⟨"users", none⟩) [false, false] :=
    ⟨rfl, rfl, rfl, rfl, rfl⟩
  have hrun : twoPartitions.run secondFirst = some (_, _) := rfl
  have hreads : ∀ st ∈ twoPartitions.trace secondFirst, st.before.ReadsRound 0 := by decide
  have hagree : ∀ st ∈ twoPartitions.trace secondFirst, st.Agrees 0 lostSecond := by
    intro st hst j a t p f hm _ _ hf _
    have hmem := move_mem_of_mem_trace hst
    rw [hm] at hmem
    simp only [secondFirst, List.mem_cons, Move.partition.injEq, true_and, reduceCtorEq,
      List.not_mem_nil, or_false, false_or] at hmem
    casesm* _ ∨ _ <;> obtain ⟨rfl, rfl⟩ := ‹_ ∧ _› <;> cases hf <;>
      simp [Fate.Allows, Fate.granted]
  obtain ⟨-, hledger, -, t', ht', hend⟩ := concurrent_round_eq_serial hopen rfl hrun hreads hagree
  refine ⟨_, _, t', hrun, ht', ?_⟩
  rcases hend with ⟨hphase, hops, -⟩ | ⟨r, hphase, -⟩
  · exact ⟨hphase, hops, hledger⟩
  · cases ht'
    cases hphase

end System

end Intake.Read
