import Intake.Proofs.Parties
import Mathlib.Data.List.Induction
import Mathlib.Data.List.Perm.Subperm
/-!
# The books of a round

While a feed reads the partitions of a round it gathers their ends. A result is written in two places: when the end of
a partition is taken, and when a failure stops the partitions behind it. Ends of partitions that have a result already
are taken and passed over, and several failures may stop overlapping ranges.

`entry_of_observe` says once what taking an end can write, and `mem_halted_iff` whom it stops; everything else comes
from these two. `FeedTask.Books` is what a round and its partitions keep true of each other: the count of results, the
cause that a stopped partition carries, and who was stopped. `Books.join` is the step, `gathering_step` the step of
a whole read, in which the feed may be cancelled at any time.

The main statement is `round_gathers_all_ends`: along every schedule the books are kept, no result is written twice, no
more ends are taken than there are partitions, the partitions never run out before the results, and the round ends with
a result for each of them.
-/

namespace Intake

/-- Whether a fault says that a partition was stopped because of another one. -/
def Fault.isHalt : Fault → Bool
  | .partitionHalted .. => true
  | _ => false

namespace Read

namespace Round

/-! ### What taking an end writes -/

/-- The partition of an index has the result of being stopped. -/
def HaltedAt (r : Round) (j : Nat) : Prop := ∃ e, r.results[j]? = some (some (.error e)) ∧ e.isHalt = true

/-- The results of a round are there in another one, as they are. -/
def Grows (r r' : Round) : Prop :=
  ∀ (j : Nat) (x : Except Fault Checkpoint), r.results[j]? = some (some x) → r'.results[j]? = some (some x)

/-- What a partition ends with never says that it was stopped because of another one: a fault that says so is wrapped
like any other. -/
theorem isHalt_of_judge {r : Round} {c : Bool} {i : Nat} {e : Ended} {f : Fault} (h : r.judge c i e = .error f) :
    f.isHalt = false := by
  rcases eq_of_judge h with ⟨rfl, -⟩ | ⟨source, rfl⟩ <;> rfl

theorem getElem?_of_not_recorded {r : Round} {j : Nat} (hj : j < r.size) (hn : r.isRecorded j = false) :
    r.results[j]? = some none := by
  have hget := List.getElem?_eq_getElem (l := r.results) hj
  rcases hentry : r.results[j] with _ | x
  · rw [hget, hentry]
  · rw [hentry] at hget
    rw [(r.isRecorded_iff j).mpr ⟨x, hget⟩] at hn
    cases hn

/-- A result after an end was taken was there before, or is that of the partition itself, or tells that the partition
was stopped because of this end. -/
theorem entry_of_observe {r : Round} {c : Bool} {i j : Nat} {e : Ended} {x : Except Fault Checkpoint}
    (h : (r.observe c i e).1.results[j]? = some (some x)) :
    r.results[j]? = some (some x) ∨
    (j = i ∧ x = r.judge c i e) ∨
    (∃ f, r.judge c i e = .error f ∧ i < j ∧ r.isRecorded i = false ∧ r.results[j]? = some none ∧
      x = .error (.partitionHalted r.feed r.number (j + 1) f)) := by
  unfold observe at h
  split at h
  · exact Or.inl h
  · rename_i hopen
    split at h
    · rename_i cp hjudge
      rw [getElem?_record] at h
      split at h
      · rename_i hij
        obtain ⟨_, -, hx⟩ := Option.map_eq_some_iff.mp h
        exact Or.inr (Or.inl ⟨hij.symm, by rw [hjudge, Option.some.inj hx]⟩)
      · exact Or.inl h
    · rename_i f hjudge
      rw [getElem?_record] at h
      split at h
      · rename_i hij
        obtain ⟨_, -, hx⟩ := Option.map_eq_some_iff.mp h
        exact Or.inr (Or.inl ⟨hij.symm, by rw [hjudge, Option.some.inj hx]⟩)
      · rw [getElem?_haltAfter] at h
        obtain ⟨entry, hentry, hx⟩ := Option.map_eq_some_iff.mp h
        rcases entry with _ | y
        · by_cases hij : i < j
          · rw [if_pos hij] at hx
            refine Or.inr (Or.inr ⟨f, hjudge, hij, Bool.eq_false_iff.mpr hopen, hentry, ?_⟩)
            exact (Option.some.inj hx).symm
          · rw [if_neg hij] at hx
            cases hx
        · exact Or.inl (hentry.trans (congrArg some hx))

/-- Taking an end writes over no result. -/
theorem grows_observe (r : Round) (c : Bool) (i : Nat) (e : Ended) : r.Grows (r.observe c i e).1 := by
  intro j x hx
  unfold observe
  split
  · exact hx
  · rename_i hopen
    have hij : i ≠ j := by
      rintro rfl
      exact hopen ((r.isRecorded_iff i).mpr ⟨x, hx⟩)
    split
    · rw [getElem?_record, if_neg hij, hx]
    · rw [getElem?_record, if_neg hij, getElem?_haltAfter, hx]
      rfl

/-- The end of a partition that has no result yet becomes its result. -/
theorem getElem?_observe_self {r : Round} {i : Nat} (hi : i < r.size) (hn : r.isRecorded i = false) (c : Bool)
    (e : Ended) : (r.observe c i e).1.results[i]? = some (some (r.judge c i e)) := by
  have hentry := getElem?_of_not_recorded hi hn
  simp only [observe, hn, Bool.false_eq_true, if_false]
  split
  · rename_i cp hjudge
    rw [getElem?_record, if_pos rfl, hentry, hjudge]
    rfl
  · rename_i f hjudge
    rw [getElem?_record, if_pos rfl, getElem?_haltAfter, hentry, hjudge]
    rfl

/-- A failure stops the partitions behind it that have no result, and nobody else. -/
theorem mem_halted_iff (r : Round) (c : Bool) (i j : Nat) (e : Ended) :
    j ∈ (r.observe c i e).2 ↔
      r.isRecorded i = false ∧ (∃ f, r.judge c i e = .error f) ∧ i < j ∧ r.results[j]? = some none := by
  have hopen : j ∈ r.openAfter i ↔ i < j ∧ r.results[j]? = some none := by
    simp only [openAfter, List.mem_filter, List.mem_range, Bool.and_eq_true, decide_eq_true_eq, Bool.not_eq_true']
    constructor
    · rintro ⟨hlt, hij, hn⟩
      exact ⟨hij, getElem?_of_not_recorded hlt hn⟩
    · rintro ⟨hij, hentry⟩
      refine ⟨(List.getElem?_eq_some_iff.mp hentry).1, hij, Bool.eq_false_iff.mpr fun hrec => ?_⟩
      obtain ⟨x, hx⟩ := (r.isRecorded_iff j).mp hrec
      rw [hentry] at hx
      cases hx
  unfold observe
  by_cases hrec : r.isRecorded i = true
  · simp [hrec]
  · rw [if_neg hrec]
    split
    · rename_i cp hjudge
      simp [hjudge]
    · rename_i f hjudge
      simp [hopen, hjudge, Bool.eq_false_iff.mpr hrec]

/-- Taking the end of one partition gives another one the result of being stopped if and only if it stops it. -/
theorem haltedAt_observe_iff {r : Round} {i : Nat} (hi : i < r.size) (c : Bool) (e : Ended) (j : Nat) :
    (r.observe c i e).1.HaltedAt j ↔ r.HaltedAt j ∨ j ∈ (r.observe c i e).2 := by
  constructor
  · rintro ⟨f, hf, hhalt⟩
    rcases entry_of_observe hf with hold | ⟨rfl, hself⟩ | ⟨cause, hjudge, hij, hn, hentry, -⟩
    · exact Or.inl ⟨f, hold, hhalt⟩
    · rw [isHalt_of_judge hself.symm] at hhalt
      cases hhalt
    · exact Or.inr ((mem_halted_iff r c i j e).mpr ⟨hn, ⟨cause, hjudge⟩, hij, hentry⟩)
  · rintro (⟨f, hf, hhalt⟩ | hmem)
    · exact ⟨f, grows_observe r c i e j _ hf, hhalt⟩
    · obtain ⟨hn, ⟨f, hjudge⟩, hij, hentry⟩ := (mem_halted_iff r c i j e).mp hmem
      refine ⟨.partitionHalted r.feed r.number (j + 1) f, ?_, rfl⟩
      simp only [observe, hn, Bool.false_eq_true, if_false, hjudge]
      rw [getElem?_record, if_neg (Nat.ne_of_lt hij), getElem?_haltAfter, hentry]
      simp [hij]

/-! ### Counting results -/

theorem countP_range_getElem? {α : Type} (l : List (Option α)) :
    (List.range l.length).countP (fun j => (l[j]?).join.isSome) = l.countP Option.isSome := by
  induction l using List.reverseRecOn with
  | nil => rfl
  | append_singleton l x ih =>
    rw [List.length_append, List.length_singleton, List.range_succ, List.countP_append, List.countP_append, ← ih]
    congr 1
    · apply List.countP_congr
      intro j hj
      rw [List.getElem?_append_left (List.mem_range.mp hj)]
    · simp

/-- A round has counted its results right if and only if it has counted the entries that are filled. -/
theorem tallied_iff (r : Round) : r.Tallied ↔ r.recorded = r.results.countP Option.isSome := by
  have hrec : r.isRecorded = fun j => (r.results[j]?).join.isSome := by
    funext j
    unfold isRecorded
    rcases r.results[j]? with _ | _ | x <;> rfl
  rw [Tallied, size, hrec, countP_range_getElem?]

end Round

/-! ### The books -/

namespace FeedTask

/-- What a round and the partitions whose ends it takes keep true of each other. -/
structure Books (parts : List Partition) (r : Round) : Prop where
  size_eq : r.size = parts.length
  /-- The count is that of the entries that are filled. -/
  recorded_eq : r.recorded = r.results.countP Option.isSome
  /-- A partition that was stopped has, as the cause, the failure of one before it, which was not stopped itself. -/
  caused : ∀ (j : Nat) (feed : String) (number index : Nat) (cause : Fault),
    r.results[j]? = some (some (.error (.partitionHalted feed number index cause))) →
    feed = r.feed ∧ number = r.number ∧ index = j + 1 ∧
      ∃ k < j, r.results[k]? = some (some (.error cause)) ∧ cause.isHalt = false
  /-- Those and only those were stopped that have the result of being stopped. -/
  halted_iff : ∀ (j : Nat) (p : Partition), parts[j]? = some p → (p.halted = true ↔ r.HaltedAt j)
  /-- A partition whose end was taken has a result. -/
  joined : ∀ (j : Nat) (p : Partition), parts[j]? = some p → p.joined = true → r.isRecorded j = true

theorem books_start (feed : String) (number : Nat) (readers : List Bool) :
    Books (partitions readers) (.start feed number readers.length) := by
  have hnew : ∀ (j : Nat) (p : Partition), (partitions readers)[j]? = some p →
      p.halted = false ∧ p.joined = false := by
    intro j p hp
    obtain ⟨u, rfl⟩ := eq_start_of_partitions hp
    exact ⟨rfl, rfl⟩
  have hnone : ∀ (j : Nat) (x : Except Fault Checkpoint),
      (Round.start feed number readers.length).results[j]? ≠ some (some x) := by
    intro j x hx
    simp [Round.start, List.getElem?_replicate] at hx
  exact {
    size_eq := by simp [Round.size, Round.start, partitions]
    recorded_eq := (Round.tallied_iff _).mp (Round.tallied_start feed number readers.length)
    caused := fun j _ _ _ _ hx => absurd hx (hnone j _)
    halted_iff := by
      intro j p hp
      rw [(hnew j p hp).1]
      refine ⟨fun h => absurd h Bool.false_ne_true, ?_⟩
      rintro ⟨e, he, -⟩
      exact absurd he (hnone j _)
    joined := by
      intro j p hp hjoined
      rw [(hnew j p hp).2] at hjoined
      cases hjoined }

namespace Books

variable {parts : List Partition} {r : Round}

theorem tallied (h : Books parts r) : r.Tallied := (Round.tallied_iff r).mpr h.recorded_eq

/-- A step of a partition changes neither whether it was stopped nor whether its end was taken. -/
theorem part (h : Books parts r) {v : Partition.View} {j : Nat} {p : Partition} {a : Act} {next : Partition.Next}
    (hp : parts[j]? = some p) (hr : Partition.Rule v p a next) : Books (parts.set j next.task) r := by
  have hsame : ∀ (k : Nat) (q : Partition), (parts.set j next.task)[k]? = some q →
      ∃ q₀, parts[k]? = some q₀ ∧ q.halted = q₀.halted ∧ q.joined = q₀.joined := by
    intro k q hq
    by_cases hjk : j = k
    · subst hjk
      rw [List.getElem?_set_self (List.getElem?_eq_some_iff.mp hp).1] at hq
      cases hq
      exact ⟨p, hp, hr.frame.1, hr.frame.2.1⟩
    · rw [List.getElem?_set_ne hjk] at hq
      exact ⟨q, hq, rfl, rfl⟩
  exact {
    size_eq := by rw [List.length_set]; exact h.size_eq
    recorded_eq := h.recorded_eq
    caused := h.caused
    halted_iff := by
      intro k q hq
      obtain ⟨q₀, hq₀, hhalted, -⟩ := hsame k q hq
      rw [hhalted]
      exact h.halted_iff k q₀ hq₀
    joined := by
      intro k q hq hjoined
      obtain ⟨q₀, hq₀, -, hsame⟩ := hsame k q hq
      exact h.joined k q₀ hq₀ (hsame ▸ hjoined) }

theorem applyNext (h : Books parts r) : Books parts r.applyNext :=
  ⟨h.size_eq, h.recorded_eq, h.caused, h.halted_iff, h.joined⟩

/-- Every entry of a stopped partition keeps its cause when an end is taken, and a new one gets this end as its
cause. -/
theorem caused_observe (h : Books parts r) {i : Nat} (hi : i < r.size) (c : Bool) (e : Ended) {j : Nat}
    {feed : String} {number index : Nat} {cause : Fault}
    (hx : (r.observe c i e).1.results[j]? = some (some (.error (.partitionHalted feed number index cause)))) :
    feed = r.feed ∧ number = r.number ∧ index = j + 1 ∧
      ∃ k < j, (r.observe c i e).1.results[k]? = some (some (.error cause)) ∧ cause.isHalt = false := by
  rcases Round.entry_of_observe hx with hold | ⟨-, hself⟩ | ⟨f, hjudge, hij, hn, -, hhalt⟩
  · obtain ⟨hfeed, hnumber, hindex, k, hkj, hk, hcause⟩ := h.caused j feed number index cause hold
    exact ⟨hfeed, hnumber, hindex, k, hkj, r.grows_observe c i e k _ hk, hcause⟩
  · have hno := Round.isHalt_of_judge hself.symm
    cases hno
  · cases hhalt
    refine ⟨rfl, rfl, rfl, i, hij, ?_, Round.isHalt_of_judge hjudge⟩
    rw [Round.getElem?_observe_self hi hn, hjudge]

/-- The end of a partition is taken. -/
theorem join {v : View} {t t' : FeedTask} {r' : Round} {j : Nat} (h : Books t.parts r)
    (hj : t.join v r j = some (t', r')) : Books t'.parts r' := by
  obtain ⟨p, e, hp, -, rfl, rfl⟩ := eq_taken_of_join hj
  have hi : j < r.size := by
    rw [h.size_eq]
    exact (List.getElem?_eq_some_iff.mp hp).1
  obtain ⟨hfeed, hnumber, -, hsize⟩ := r.observe_frame (t.cancelledIn v) j e
  exact {
    size_eq := by
      rw [hsize, taken, length_haltParts, List.length_set]
      exact h.size_eq
    recorded_eq := (Round.tallied_iff _).mp (h.tallied.observe hi _ e)
    caused := by
      intro k feed number index cause hk
      rw [hfeed, hnumber]
      exact h.caused_observe hi _ e hk
    halted_iff := by
      intro k q hq
      obtain ⟨q₀, hq₀, rfl⟩ := getElem?_joined hp hq
      rw [Round.haltedAt_observe_iff hi, ← h.halted_iff k q₀ hq₀, Bool.or_eq_true, decide_eq_true_eq]
    joined := by
      intro k q hq hjoined
      obtain ⟨q₀, hq₀, rfl⟩ := getElem?_joined hp hq
      rcases Bool.or_eq_true_iff.mp hjoined with hbefore | hkj
      · exact Round.isRecorded_observe_mono hi _ e (h.joined k q₀ hq₀ hbefore)
      · obtain rfl := of_decide_eq_true hkj
        exact Round.isRecorded_observe_self hi _ e }

/-- The failure of the lowest index is never that of a stopped partition. -/
theorem isHalt_of_failure? (h : Books parts r) {e : Fault} (he : r.failure? = some e) : e.isHalt = false := by
  obtain ⟨j, hj, hleast⟩ := Round.exists_of_failure? he
  cases e with
  | partitionHalted feed number index cause =>
    obtain ⟨-, -, -, k, hkj, hk, -⟩ := h.caused j feed number index cause hj
    exact absurd ⟨cause, hk⟩ (hleast k hkj)
  | _ => rfl

/-- As long as a result is missing, there is a partition whose end was not taken. -/
theorem exists_open (h : Books parts r) (hfull : r.full = false) :
    ∃ j p, parts[j]? = some p ∧ r.isRecorded j = false ∧ p.joined = false := by
  by_contra hnone
  have hrec : ∀ j ∈ List.range r.size, r.isRecorded j = true := by
    intro j hj
    by_contra hn
    have hlt : j < parts.length := h.size_eq ▸ List.mem_range.mp hj
    have hp := List.getElem?_eq_getElem hlt
    refine hnone ⟨j, parts[j], hp, Bool.eq_false_iff.mpr hn, Bool.eq_false_iff.mpr fun hjoined => ?_⟩
    exact hn (h.joined j _ hp hjoined)
  have hcount := h.tallied
  rw [Round.Tallied, List.countP_eq_length.mpr hrec, List.length_range] at hcount
  simp [Round.full, hcount] at hfull

/-- A round is closed only when every partition has a result: the partitions do not run out before. -/
theorem full_of_closes (h : Books parts r) (hc : (r.full || parts.all (·.joined)) = true) : r.full = true := by
  by_contra hfull
  obtain ⟨j, p, hp, -, hopen⟩ := h.exists_open (Bool.eq_false_iff.mpr hfull)
  rcases Bool.or_eq_true_iff.mp hc with hyes | hall
  · exact hfull hyes
  · rw [List.all_eq_true.mp hall p (List.mem_of_getElem? hp)] at hopen
    cases hopen

end Books

/-- Only the end of a partition whose end was not taken before is taken. -/
theorem not_joined_of_join {v : View} {t t' : FeedTask} {r r' : Round} {j : Nat} {p : Partition}
    (h : t.join v r j = some (t', r')) (hp : t.parts[j]? = some p) : p.joined = false := by
  unfold FeedTask.join at h
  obtain ⟨q, hq, h⟩ := Option.bind_eq_some_iff.mp h
  obtain ⟨e, -, h⟩ := Option.bind_eq_some_iff.mp h
  rw [hp] at hq
  cases hq
  split at h
  · cases h
  · rename_i hno
    exact Bool.eq_false_iff.mpr hno

/-- When the end of a partition was taken, its end and those taken before are the ones that are taken. -/
theorem joined_taken_iff {t : FeedTask} {j : Nat} {p : Partition} (hp : t.parts[j]? = some p) (indices : List Nat)
    (k : Nat) :
    (∃ q, (t.taken j p indices).parts[k]? = some q ∧ q.joined = true) ↔
      (∃ q, t.parts[k]? = some q ∧ q.joined = true) ∨ k = j := by
  constructor
  · rintro ⟨q, hq, hjoined⟩
    obtain ⟨q₀, hq₀, rfl⟩ := getElem?_joined hp hq
    rcases Bool.or_eq_true_iff.mp hjoined with hbefore | hkj
    · exact Or.inl ⟨q₀, hq₀, hbefore⟩
    · exact Or.inr (of_decide_eq_true hkj)
  · intro hk
    have hlt : k < (t.taken j p indices).parts.length := by
      rw [taken, length_haltParts, List.length_set]
      rcases hk with ⟨q, hq, -⟩ | rfl
      · exact (List.getElem?_eq_some_iff.mp hq).1
      · exact (List.getElem?_eq_some_iff.mp hp).1
    have hget := List.getElem?_eq_getElem hlt
    obtain ⟨q₀, hq₀, hq⟩ := getElem?_joined hp hget
    refine ⟨_, hget, ?_⟩
    rw [hq]
    rcases hk with ⟨q, hq', hjoined⟩ | rfl
    · rw [hq₀] at hq'
      cases hq'
      simp [hjoined]
    · simp

/-! ### One step of the round -/

/-- A feed reads the partitions of a round of some size, and has taken the ends of some of them. -/
structure Gathering (size : Nat) (ends : List Nat) (t : FeedTask) (r : Round) : Prop where
  phase : t.phase = .reading r
  size_eq : r.size = size
  books : Books t.parts r
  nodup : ends.Nodup
  mem_ends_iff : ∀ j, j ∈ ends ↔ ∃ p, t.parts[j]? = some p ∧ p.joined = true

/-- What a round may do while its feed makes a step by an act, or somebody else makes one. -/
structure Proceeds (a? : Option Act) (t t' : FeedTask) (r r' : Round) : Prop where
  /-- No result is written over. -/
  grows : r.Grows r'
  /-- Whoever is stopped had no result, and stands behind a partition whose failure is taken with this step. -/
  stopped : ∀ (j : Nat) (p p' : Partition), t.parts[j]? = some p → t'.parts[j]? = some p' → p.halted = false →
    p'.halted = true → ∃ k f, a? = some (.join k) ∧ k < j ∧ r.results[k]? = some none ∧
      r'.results[k]? = some (some (.error f)) ∧ r.results[j]? = some none

/-- A step that leaves the results alone and stops nobody. -/
theorem proceeds_of_same {a? : Option Act} {t t' : FeedTask} {r r' : Round} (hr : r'.results = r.results)
    (hp : ∀ (j : Nat) (p p' : Partition), t.parts[j]? = some p → t'.parts[j]? = some p' → p'.halted = p.halted) :
    Proceeds a? t t' r r' where
  grows := by
    intro j x hx
    rw [hr]
    exact hx
  stopped := by
    intro j p p' hj hj' hno hyes
    rw [hp j p p' hj hj', hno] at hyes
    cases hyes

end FeedTask

/-- The partition whose end is taken by an act. -/
def Act.end? : Act → Option Nat
  | .join j => some j
  | _ => none

namespace FeedTask.Gathering

variable {size : Nat} {ends : List Nat} {t : FeedTask} {r : Round}

/-- No more ends are taken than there are partitions. -/
theorem length_ends_le (h : Gathering size ends t r) : ends.length ≤ size := by
  have hsub : ends ⊆ List.range size := by
    intro j hj
    obtain ⟨p, hp, -⟩ := (h.mem_ends_iff j).mp hj
    rw [List.mem_range, ← h.size_eq, h.books.size_eq]
    exact (List.getElem?_eq_some_iff.mp hp).1
  have hle := (h.nodup.subperm hsub).length_le
  rwa [List.length_range] at hle

/-- The end of a partition is taken. -/
theorem join (h : Gathering size ends t r) {v : View} {j : Nat} {t' : FeedTask} {r' : Round}
    (hj : t.join v r j = some (t', r')) (s : Shared) :
    Gathering size (ends ++ [j]) (t'.goto s (.reading r')).task r' ∧
      Proceeds (some (.join j)) t (t'.goto s (.reading r')).task r r' := by
  have hbooks := h.books.join hj
  obtain ⟨p, e, hp, -, rfl, rfl⟩ := eq_taken_of_join hj
  have hfresh := not_joined_of_join hj hp
  have hlt := (List.getElem?_eq_some_iff.mp hp).1
  constructor
  · refine ⟨rfl, (r.observe_frame _ j e).2.2.2.trans h.size_eq, hbooks, ?_, fun k => ?_⟩
    · refine List.nodup_append.mpr ⟨h.nodup, by simp, ?_⟩
      rintro a ha b hb rfl
      rw [List.mem_singleton] at hb
      subst hb
      obtain ⟨q, hq, hjoined⟩ := (h.mem_ends_iff a).mp ha
      rw [hp] at hq
      cases hq
      rw [hfresh] at hjoined
      cases hjoined
    · rw [List.mem_append, List.mem_singleton, h.mem_ends_iff]
      exact (joined_taken_iff hp _ k).symm
  · refine ⟨r.grows_observe _ j e, fun k q q' hq hq' hno hyes => ?_⟩
    obtain ⟨q₀, hq₀, rfl⟩ := getElem?_joined hp hq'
    rw [hq] at hq₀
    cases hq₀
    have hmem : k ∈ (r.observe (t.cancelledIn v) j e).2 := by
      rcases Bool.or_eq_true_iff.mp hyes with hbefore | hmem
      · rw [hno] at hbefore
        cases hbefore
      · exact of_decide_eq_true hmem
    obtain ⟨hn, ⟨f, hjudge⟩, hjk, hentry⟩ := (Round.mem_halted_iff r _ j k e).mp hmem
    have hsize : j < r.size := h.books.size_eq ▸ hlt
    refine ⟨j, f, rfl, hjk, Round.getElem?_of_not_recorded hsize hn, ?_, hentry⟩
    rw [Round.getElem?_observe_self hsize hn, hjudge]

/-- A step of the feed itself: the round goes on, or every partition has a result and the round is closed. -/
theorem own (h : Gathering size ends t r) {v : View} {s : Shared} {a : Act} {next : Next} (hr : Rule v t s a next) :
    (∃ r', Gathering size (ends ++ a.end?.toList) next.task r' ∧ Proceeds (some a) t next.task r r') ∨
    (r.full = true ∧ a.end? = none ∧ next.task = { t with phase := .locking (t.roundEnd v r) }) := by
  rcases hr.of_reading h.phase with
    ⟨c, rfl, hn, rfl⟩ | ⟨rfl, hn, hc, rfl⟩ | ⟨j, t', r', rfl, hn, hf, hj, rfl⟩
  · refine Or.inl ⟨r.applyNext, ⟨rfl, h.size_eq, h.books.applyNext, ?_, fun j => ?_⟩, ?_⟩
    · simpa [Act.end?] using h.nodup
    · simpa [Act.end?, gotoWith] using h.mem_ends_iff j
    · refine proceeds_of_same rfl fun j p p' hp hp' => ?_
      rw [gotoWith, hp] at hp'
      cases hp'
      rfl
  · exact Or.inr ⟨h.books.full_of_closes hc, rfl, rfl⟩
  · obtain ⟨hgather, hproceeds⟩ := h.join hj s
    exact Or.inl ⟨r', hgather, hproceeds⟩

/-- A step of one of the partitions. -/
theorem part (h : Gathering size ends t r) {v : Partition.View} {j : Nat} {p : Partition} {a : Act}
    {next : Partition.Next} (hp : t.parts[j]? = some p) (hr : Partition.Rule v p a next) (releases : Nat) :
    Gathering size ends { t with parts := t.parts.set j next.task, releases } r ∧
      Proceeds none t { t with parts := t.parts.set j next.task, releases } r r := by
  have hlt := (List.getElem?_eq_some_iff.mp hp).1
  constructor
  · refine ⟨h.phase, h.size_eq, h.books.part hp hr, h.nodup, fun k => ?_⟩
    rw [h.mem_ends_iff]
    by_cases hjk : j = k
    · subst hjk
      rw [List.getElem?_set_self hlt, hp]
      simp [hr.frame.2.1]
    · simp [List.getElem?_set_ne hjk]
  · refine proceeds_of_same rfl fun k q q' hq hq' => ?_
    by_cases hjk : j = k
    · subst hjk
      rw [List.getElem?_set_self hlt] at hq'
      cases hq'
      rw [hp] at hq
      cases hq
      exact hr.frame.1
    · rw [List.getElem?_set_ne hjk, hq] at hq'
      cases hq'
      rfl

end FeedTask.Gathering

/-! ### Along a run -/

namespace System

open FeedTask (Books Gathering Proceeds)

/-- The act of the feed of an index that a move is. -/
def Move.actOf? (i : Nat) : Move → Option Act
  | .feed k a => if k = i then some a else none
  | _ => none

theorem actOf?_self (i : Nat) (a : Act) : (Move.feed i a).actOf? i = some a := if_pos rfl

theorem actOf?_eq_none {i : Nat} {move : Move} (h : ∀ a, move ≠ .feed i a) : move.actOf? i = none := by
  cases move with
  | feed k a =>
    refine if_neg ?_
    rintro rfl
    exact h a rfl
  | _ => rfl

/-- The partitions whose ends the feed of an index takes in some steps, in order. -/
def endsTakenBy (i : Nat) (steps : List Step) : List Nat :=
  steps.filterMap fun st => (st.move.actOf? i).bind Act.end?

theorem endsTakenBy_snoc (i : Nat) (steps : List Step) (st : Step) :
    endsTakenBy i (steps ++ [st]) = endsTakenBy i steps ++ ((st.move.actOf? i).bind Act.end?).toList := by
  rw [endsTakenBy, List.filterMap_append]
  rfl

/-- The feed of an index reads the partitions of a round, cancelled or not. -/
def Gathers (s : System) (i : Nat) : Prop := ∃ t r, s.feeds[i]? = some t ∧ t.phase = .reading r

instance (s : System) (i : Nat) : Decidable (s.Gathers i) :=
  decidable_of_iff ((s.feeds[i]?).any (·.phase matches .reading _) = true) <| by
    simp only [Option.any_eq_true, Gathers, exists_and_left]
    refine exists_congr fun t => and_congr_right fun _ => ?_
    rcases t.phase <;> simp

/-- What a step does while the feed of an index reads the partitions of a round of some size. The books are right before
and after it, no result is written over, and nobody is stopped but for the failure of a partition before it. If the
round is over with the step, every partition has a result, and the failure that counts is that of a partition which
was not stopped. -/
def Step.KeepsBooks (i size : Nat) (st : Step) : Prop :=
  ∃ t r t', st.before.feeds[i]? = some t ∧ t.phase = .reading r ∧ r.size = size ∧ Books t.parts r ∧
    st.after.feeds[i]? = some t' ∧
    ((∃ r', t'.phase = .reading r' ∧ r'.size = size ∧ Books t'.parts r' ∧
        Proceeds (st.move.actOf? i) t t' r r') ∨
      (t'.phase = .locking (t.roundEnd (st.before.feedView i) r) ∧
        (∀ j < size, ∃ x, r.results[j]? = some (some x)) ∧ ∀ e, r.failure? = some e → e.isHalt = false))

section
variable {i size : Nat} {ends : List Nat} {t : FeedTask} {r : Round} {s s' : System}

/-- One step of a read while the feed of an index gathers ends. -/
theorem gathering_step (h : Gathering size ends t r) (ht : s.feeds[i]? = some t) {move : Move}
    {effects : List Effect} (hs : s.step move = some (s', effects)) :
    ∃ t', s'.feeds[i]? = some t' ∧
      ((∃ r', Gathering size (ends ++ ((move.actOf? i).bind Act.end?).toList) t' r' ∧
          Proceeds (move.actOf? i) t t' r r') ∨
        (r.full = true ∧ (move.actOf? i).bind Act.end? = none ∧
          t'.phase = .locking (t.roundEnd (s.feedView i) r))) := by
  have hlt := (List.getElem?_eq_some_iff.mp ht).1
  rcases step_at hs ht with ⟨a, next, rfl, hr, rfl, -⟩ | ⟨j, a, p, next, releases, rfl, hp, hr, rfl⟩ |
    ⟨hne, halted, cause, ht', -⟩
  · refine ⟨next.task, List.getElem?_set_self hlt, ?_⟩
    rw [actOf?_self, Option.bind_some]
    rcases h.own hr with hgoes | ⟨hfull, hend, htask⟩
    · exact Or.inl hgoes
    · exact Or.inr ⟨hfull, hend, by rw [htask]⟩
  · refine ⟨_, List.getElem?_set_self hlt, Or.inl ⟨r, ?_⟩⟩
    rw [actOf?_eq_none (by rintro b ⟨⟩), Option.bind_none, Option.toList_none, List.append_nil]
    exact h.part hp hr releases
  · refine ⟨_, ht', Or.inl ⟨r, ?_⟩⟩
    rw [actOf?_eq_none hne, Option.bind_none, Option.toList_none, List.append_nil]
    refine ⟨⟨h.phase, h.size_eq, h.books, h.nodup, h.mem_ends_iff⟩, ?_⟩
    refine FeedTask.proceeds_of_same rfl fun j p p' hp hp' => ?_
    rw [hp] at hp'
    cases hp'
    rfl

theorem keepsBooks_of_gathering (h : Gathering size ends t r) (ht : s.feeds[i]? = some t) {move : Move}
    {effects : List Effect} (hs : s.step move = some (s', effects)) :
    Step.KeepsBooks i size ⟨s, move, effects, s'⟩ := by
  obtain ⟨t', ht', hgoes⟩ := gathering_step h ht hs
  refine ⟨t, r, t', ht, h.phase, h.size_eq, h.books, ht', ?_⟩
  rcases hgoes with ⟨r', hgather, hproceeds⟩ | ⟨hfull, -, hphase⟩
  · exact Or.inl ⟨r', hgather.phase, hgather.size_eq, hgather.books, hproceeds⟩
  · refine Or.inr ⟨hphase, fun j hj => ?_, fun e he => h.books.isHalt_of_failure? he⟩
    exact (r.isRecorded_iff j).mp (h.books.tallied.isRecorded_of_full hfull (h.size_eq ▸ hj))

/-- What some steps have come to in which the feed of an index gathered ends. -/
structure Gathered (i size : Nat) (past : List Step) (s : System) : Prop where
  kept : ∀ st ∈ past, st.KeepsBooks i size
  nodup : (endsTakenBy i past).Nodup
  length_le : (endsTakenBy i past).length ≤ size
  onward : s.Gathers i → ∃ t r, s.feeds[i]? = some t ∧ Gathering size (endsTakenBy i past) t r

theorem gathered_start {readers : List Bool} (ht : s.feeds[i]? = some t)
    (hphase : t.phase = .reading (.start t.label t.round readers.length))
    (hparts : t.parts = FeedTask.partitions readers) : Gathered i readers.length [] s where
  kept := fun _ hst => absurd hst List.not_mem_nil
  nodup := List.nodup_nil
  length_le := Nat.zero_le _
  onward := by
    intro _
    refine ⟨t, _, ht, hphase, by simp [Round.size, Round.start], ?_, List.nodup_nil, fun j => Iff.intro ?_ ?_⟩
    · rw [hparts]
      exact FeedTask.books_start t.label t.round readers
    · exact fun hj => absurd hj List.not_mem_nil
    · rintro ⟨p, hp, hjoined⟩
      obtain ⟨u, rfl⟩ := FeedTask.eq_start_of_partitions (hparts ▸ hp)
      cases hjoined

theorem Gathered.step {past : List Step} {st : Step} (h : Gathered i size past st.before)
    (hg : st.before.Gathers i) (hs : st.before.step st.move = some (st.after, st.effects)) :
    Gathered i size (past ++ [st]) st.after := by
  obtain ⟨t, r, ht, hgather⟩ := h.onward hg
  obtain ⟨t', ht', hgoes⟩ := gathering_step hgather ht hs
  have hkept : ∀ st' ∈ past ++ [st], st'.KeepsBooks i size := by
    intro st' hst'
    rcases List.mem_append.mp hst' with hmem | hmem
    · exact h.kept st' hmem
    · rw [List.mem_singleton.mp hmem]
      exact keepsBooks_of_gathering hgather ht hs
  rcases hgoes with ⟨r', hgather', -⟩ | ⟨-, hend, hphase⟩
  · rw [← endsTakenBy_snoc] at hgather'
    exact ⟨hkept, hgather'.nodup, hgather'.length_ends_le, fun _ => ⟨t', r', ht', hgather'⟩⟩
  · have hsame : endsTakenBy i (past ++ [st]) = endsTakenBy i past := by
      rw [endsTakenBy_snoc, hend, Option.toList_none, List.append_nil]
    refine ⟨hkept, hsame ▸ h.nodup, hsame ▸ h.length_le, ?_⟩
    -- the round is over
    rintro ⟨u, r', hu, hr'⟩
    rw [ht'] at hu
    cases hu
    rw [hphase] at hr'
    cases hr'

theorem Gathered.run {moves : List Move} {effects : List Effect} (h : Gathered i size [] s)
    (hrun : s.run moves = some (s', effects)) (hreads : ∀ st ∈ s.trace moves, st.before.Gathers i) :
    Gathered i size (s.trace moves) s' :=
  run_induction hrun h fun _ st hst hs hpast => hpast.step (hreads st hst) hs

/-! ### The round comes to its end -/

/-- As soon as all partitions without a result have ended, the feed can close the round by itself, cancelled or not. -/
theorem exists_close (hb : s.begun = true) (ht : s.feeds[i]? = some t) (h : Gathering size ends t r)
    (hended : AllEnded t r) :
    ∃ (acts : List Act) (s' : System) (effects : List Effect) (t' : FeedTask) (next : RoundEnd),
      s.run (acts.map (Move.feed i)) = some (s', effects) ∧
      (∀ st ∈ s.trace (acts.map (Move.feed i)), st.before.Gathers i) ∧
      s'.feeds[i]? = some t' ∧ t'.phase = .locking next := by
  generalize hleft : r.left = left
  induction left using Nat.strongRecOn generalizing s t r ends with
  | _ left ih =>
    have hlt := (List.getElem?_eq_some_iff.mp ht).1
    have hreads : s.Gathers i := ⟨t, r, ht, h.phase⟩
    -- it is enough to make one step into a state that has less to do
    have onward : ∀ a next r' ends', t.step (s.feedView i) s.shared a = some next →
        Gathering size ends' next.task r' → AllEnded next.task r' → r'.left < left →
        ∃ (acts : List Act) (s' : System) (effects : List Effect) (t' : FeedTask) (next : RoundEnd),
          s.run (acts.map (Move.feed i)) = some (s', effects) ∧
          (∀ st ∈ s.trace (acts.map (Move.feed i)), st.before.Gathers i) ∧
          s'.feeds[i]? = some t' ∧ t'.phase = .locking next := by
      intro a next r' ends' hs hgather hend hless
      have hm := step_feed_of hb ht hs
      obtain ⟨acts, s', effects, t', next', hrun, hacts, ht', hphase'⟩ :=
        ih _ hless (begun_step hm hb) (List.getElem?_set_self hlt) hgather hend rfl
      refine ⟨a :: acts, s', _, t', next', run_cons_of hm hrun, ?_, ht', hphase'⟩
      rw [List.map_cons, trace_cons hm]
      exact List.forall_mem_cons.mpr ⟨hreads, hacts⟩
    rcases hn : r.next? with _ | c
    · by_cases hfull : r.full = true
      · -- nothing is left to do
        have hm := step_feed_of hb ht (FeedTask.step_closes h.phase hn hfull s.shared)
        refine ⟨[.go], _, _, _, _, run_cons_of hm rfl, ?_, List.getElem?_set_self hlt, rfl⟩
        rw [List.map_cons, trace_cons hm]
        exact List.forall_mem_cons.mpr ⟨hreads, fun _ hst => absurd hst List.not_mem_nil⟩
      · -- the end of a partition can be taken
        have hfull' := Bool.eq_false_iff.mpr hfull
        obtain ⟨j, p, hp, hrec, hopen⟩ := h.books.exists_open hfull'
        obtain ⟨e, he⟩ := Option.isSome_iff_exists.mp (hended j p hp hrec)
        obtain ⟨hjoin, hs⟩ := FeedTask.step_joins_of (v := s.feedView i) h.phase hn hfull' hp he hopen s.shared
        refine onward _ _ _ _ hs (h.join hjoin s.shared).1 ?_ (hleft ▸ Round.left_observe_lt hfull' hrec _ e)
        intro k q hq hk
        obtain ⟨q₀, hq₀, rfl⟩ := FeedTask.getElem?_joined hp hq
        have hsize : j < r.size := h.books.size_eq ▸ (List.getElem?_eq_some_iff.mp hp).1
        refine hended k q₀ hq₀ (Bool.eq_false_iff.mpr fun hrec' => ?_)
        rw [Round.isRecorded_observe_mono hsize _ e hrec'] at hk
        cases hk
    · -- the next checkpoint can be applied
      have hs := FeedTask.step_applies (v := s.feedView i) h.phase hn s.shared
      refine onward _ _ r.applyNext ends hs ?_ hended (hleft ▸ Round.left_applyNext_lt hn)
      exact ⟨rfl, h.size_eq, h.books.applyNext, h.nodup, h.mem_ends_iff⟩

end

/-- **A round keeps its books.** Let a feed begin to read the partitions of a round, and follow any schedule as long as
it reads them, whatever their readers do and whenever the feed or the read is cancelled. At every step the number of
results that is kept is that of the entries that are filled, no entry is written over, and a partition that was stopped
has the failure of one before it as the cause. Those and only those were stopped that have such an entry, and a failure
stops nobody before it and nobody who has a result. The end of no partition is taken twice, so that there are at most as
many as partitions, and while a result is missing there is one whose end is still to come. When the round is over, every
partition has a result, and the failure of the lowest index is not that of a stopped one; and it comes to this as soon
as all partitions without a result have ended. -/
theorem round_gathers_all_ends {s s' : System} {i : Nat} {t : FeedTask} {readers : List Bool} {moves : List Move}
    {effects : List Effect} (hbegun : s.begun = true) (ht : s.feeds[i]? = some t)
    (hphase : t.phase = .reading (.start t.label t.round readers.length))
    (hparts : t.parts = FeedTask.partitions readers) (hrun : s.run moves = some (s', effects))
    (hreads : ∀ st ∈ s.trace moves, st.before.Gathers i) :
    (∀ st ∈ s.trace moves, st.KeepsBooks i readers.length) ∧
    (endsTakenBy i (s.trace moves)).Nodup ∧
    (endsTakenBy i (s.trace moves)).length ≤ readers.length ∧
    ∀ t' r, s'.feeds[i]? = some t' → t'.phase = .reading r →
      r.size = readers.length ∧ Books t'.parts r ∧
      (r.recorded < readers.length → ∃ (j : Nat) (p : Partition), t'.parts[j]? = some p ∧ p.joined = false) ∧
      (AllEnded t' r → ∃ (acts : List Act) (s'' : System) (later : List Effect) (t'' : FeedTask) (next : RoundEnd),
        s'.run (acts.map (Move.feed i)) = some (s'', later) ∧ s''.feeds[i]? = some t'' ∧
        t''.phase = .locking next ∧
        (∀ st ∈ s'.trace (acts.map (Move.feed i)), st.KeepsBooks i readers.length) ∧
        (endsTakenBy i (s.trace moves ++ s'.trace (acts.map (Move.feed i)))).length ≤ readers.length) := by
  have hstart := gathered_start ht hphase hparts
  have hgathered := hstart.run hrun hreads
  refine ⟨hgathered.kept, hgathered.nodup, hgathered.length_le, fun t' r ht' hr => ?_⟩
  obtain ⟨u, r', hu, hgather⟩ := hgathered.onward ⟨t', r, ht', hr⟩
  rw [ht'] at hu
  cases hu
  obtain rfl : r' = r := by
    have heq := hgather.phase.symm.trans hr
    cases heq
    rfl
  refine ⟨hgather.size_eq, hgather.books, fun hless => ?_, fun hended => ?_⟩
  · obtain ⟨j, p, hp, -, hopen⟩ := hgather.books.exists_open (by simpa [Round.full, hgather.size_eq] using hless)
    exact ⟨j, p, hp, hopen⟩
  · have hb : s'.begun = true :=
      run_induction (P := fun _ s => s.begun = true) hrun hbegun fun _ _ _ hs hb => begun_step hs hb
    obtain ⟨acts, s'', later, t'', next, hrun', hreads', ht'', hnext⟩ := exists_close hb ht' hgather hended
    obtain ⟨hall, htrace⟩ := run_append hrun hrun'
    have hboth : ∀ st ∈ s.trace (moves ++ acts.map (Move.feed i)), st.before.Gathers i := by
      rw [htrace]
      exact fun st hst => (List.mem_append.mp hst).elim (hreads st) (hreads' st)
    have hclosed := hstart.run hall hboth
    rw [htrace] at hclosed
    exact ⟨acts, s'', later, t'', next, hrun', ht'', hnext,
      fun st hst => hclosed.kept st (List.mem_append_right _ hst), hclosed.length_le⟩

/-- A feed that begins to read the three partitions of its first round. -/
def threePartitions : System where
  settings := {}
  factories := 1
  shared := { ledger := .make none [({ id := ⟨"users", none⟩ }, none)], board := [] }
  feeds := [{
    feed := .stream { id := ⟨"users", none⟩ }
    phase := .reading (.start "users" 1 3)
    parts := FeedTask.partitions [false, true, false] }]
  watch := .joining .streams [0]

/-- A schedule in which the second partition is lost first, which stops the third, and in which the read is cancelled
while the first runs. -/
def lostThenCancelled : List Move :=
  [ .partition 0 0 .go, .partition 0 0 (.probe .ready), .partition 0 0 .go
  , .partition 0 1 .go, .partition 0 1 .go, .partition 0 1 (.probe (.crashed "gone"))
  , .feed 0 (.join 1)
  , .partition 0 0 .go, .cancel, .partition 0 0 .quit, .partition 0 0 .go, .partition 0 0 .go, .partition 0 0 .go
  , .feed 0 (.join 0), .feed 0 .go ]

/-- Two ends are enough to fill three entries: the stopped partition has its entry before it ends. -/
theorem round_gathers_all_ends_of_two :
    ∃ s' effects, threePartitions.run lostThenCancelled = some (s', effects) ∧
      (∀ st ∈ threePartitions.trace lostThenCancelled, st.KeepsBooks 0 3) ∧
      endsTakenBy 0 (threePartitions.trace lostThenCancelled) = [1, 0] ∧ [1, 0].Nodup ∧ [1, 0].length ≤ 3 := by
  have hrun : threePartitions.run lostThenCancelled = some (_, _) := rfl
  have hreads : ∀ st ∈ threePartitions.trace lostThenCancelled, st.before.Gathers 0 := by decide
  have hends : endsTakenBy 0 (threePartitions.trace lostThenCancelled) = [1, 0] := rfl
  obtain ⟨hkept, hnodup, hlength, -⟩ :=
    @round_gathers_all_ends threePartitions _ 0 _ [false, true, false] _ _ rfl rfl rfl rfl hrun hreads
  rw [hends] at hnodup hlength
  exact ⟨_, _, hrun, hkept, hends, hnodup, hlength⟩

end System

end Read

end Intake
