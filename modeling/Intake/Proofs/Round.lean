import Intake.Read.Round
import Mathlib.Data.Nat.Find
import Mathlib.Tactic.Common
/-!
# Rounds put the ends of their partitions in order

Each partition of a round has a result of its own: the checkpoint or the fault that it ends with when
nobody stops it. A serial reader would apply the checkpoints of the results up to the first fault
(`leading`) and fail with that fault. A round sees the ends in any order, and gives the partitions after
a failure a result that is not their own.

`Round.Faithful` is what a round keeps true all the same, whatever the order: an entry is the partition's
own result, or says that the partition was stopped and then a partition before it has failed on its own.
`Faithful.observe` and `Faithful.applyNext` are the steps. From the invariant alone follows what comes
out in the end: `Faithful.applied_eq` (a full round with nothing left to apply has applied exactly
`leading`) and `Faithful.verdict_eq` (it fails with the fault of the first partition after those).
-/

namespace Intake.Read

/-! ### Reading results serially -/

/-- The checkpoints at the front of a list of results: those before the first fault. -/
def leading : List (Except Fault Checkpoint) → List Checkpoint
  | .ok c :: rest => c :: leading rest
  | _ => []

theorem getElem?_of_leading {own : List (Except Fault Checkpoint)} {k : Nat} {c : Checkpoint}
    (h : (leading own)[k]? = some c) : own[k]? = some (.ok c) := by
  induction own generalizing k with
  | nil => simp [leading] at h
  | cons x rest ih =>
    rcases x with e | d
    · simp [leading] at h
    · cases k with
      | zero => simpa [leading] using h
      | succ k => simpa using ih (by simpa [leading] using h)

/-- Behind the leading checkpoints the list is over or has a fault. -/
theorem getElem?_length_leading (own : List (Except Fault Checkpoint)) :
    own[(leading own).length]? = none ∨ ∃ e, own[(leading own).length]? = some (.error e) := by
  induction own with
  | nil => exact Or.inl rfl
  | cons x rest ih =>
    rcases x with e | c
    · exact Or.inr ⟨e, rfl⟩
    · simpa [leading] using ih

/-- A checkpoint that has only checkpoints before it is a leading one. -/
theorem getElem?_leading {own : List (Except Fault Checkpoint)} {k : Nat} {c : Checkpoint}
    (hk : k ≤ (leading own).length) (h : own[k]? = some (.ok c)) : (leading own)[k]? = some c := by
  rcases Nat.lt_or_eq_of_le hk with hlt | rfl
  · have hd := getElem?_of_leading (List.getElem?_eq_getElem hlt)
    rw [h] at hd
    cases hd
    exact List.getElem?_eq_getElem hlt
  · rcases getElem?_length_leading own with hn | ⟨e, he⟩
    · rw [h] at hn; cases hn
    · rw [h] at he; cases he

/-- A fault stands behind the leading checkpoints. -/
theorem length_leading_le_of_error {own : List (Except Fault Checkpoint)} {k : Nat} {e : Fault}
    (h : own[k]? = some (.error e)) : (leading own).length ≤ k := by
  by_contra hlt
  have hd := getElem?_of_leading (List.getElem?_eq_getElem (Nat.lt_of_not_le hlt))
  rw [h] at hd
  cases hd

/-- The result of a task: a crash counts as a fault. -/
def Ended.result (feed : String) : Ended → Except Fault Checkpoint
  | .finished r => r
  | .crashed message => .error (.crashed feed message)

namespace Round

/-! ### Entries -/

/-- A result with its place in the round: a fault is wrapped, a checkpoint stays as it is. -/
def place (feed : String) (number j : Nat) : Except Fault Checkpoint → Except Fault Checkpoint
  | .ok c => .ok c
  | .error e => .error (.partition feed number (j + 1) e)

/-- When the feed is not cancelled, an end is recorded as the result of the task with its place. -/
theorem judge_eq_place (r : Round) (j : Nat) (e : Ended) :
    r.judge false j e = place r.feed r.number j (e.result r.feed) := by
  rcases e with (e | c) | message
  · cases e <;> rfl
  · rfl
  · rfl

/-- A fault that is recorded for an end is wrapped with its place; the only one that is not is cancellation of the
feed. -/
theorem eq_of_judge {r : Round} {c : Bool} {i : Nat} {e : Ended} {f : Fault} (h : r.judge c i e = .error f) :
    (f = .cancelled ∧ c = true) ∨ ∃ source, f = .partition r.feed r.number (i + 1) source := by
  unfold judge at h
  split at h
  · cases h
  · split at h
    · cases h
      exact Or.inl ⟨rfl, rfl⟩
    · cases h
      exact Or.inr ⟨_, rfl⟩
  · cases h
    exact Or.inr ⟨_, rfl⟩

theorem isRecorded_iff (r : Round) (j : Nat) :
    r.isRecorded j = true ↔ ∃ x, r.results[j]? = some (some x) := by
  unfold isRecorded
  split
  · rename_i x hx
    simp [hx]
  · rename_i hn
    simp only [Bool.false_eq_true, false_iff, not_exists]
    exact hn

/-- What may be recorded for the partition of an index, given the results that all partitions have of
their own. -/
inductive Entry (feed : String) (number : Nat) (own : List (Except Fault Checkpoint)) (j : Nat) :
    Except Fault Checkpoint → Prop
  | ofOwn {x : Except Fault Checkpoint} :
      own[j]? = some x → Entry feed number own j (place feed number j x)
  | ofHalt {k : Nat} {e : Fault} : k < j → own[k]? = some (.error e) →
      Entry feed number own j
        (.error (.partitionHalted feed number (j + 1) (.partition feed number (k + 1) e)))

/-- A checkpoint is recorded only where it is the partition's own result. -/
theorem Entry.own_of_ok {feed : String} {number j : Nat} {own : List (Except Fault Checkpoint)}
    {c : Checkpoint} (h : Entry feed number own j (.ok c)) : own[j]? = some (.ok c) := by
  generalize hx : (Except.ok c : Except Fault Checkpoint) = x at h
  rcases h with @⟨y, hy⟩ | _
  · rcases y with e | d
    · cases hx
    · cases hx; exact hy
  · cases hx

/-- Up to the first fault, and there too, an entry is the partition's own result. -/
theorem Entry.eq_place {feed : String} {number j : Nat} {own : List (Except Fault Checkpoint)}
    {x y : Except Fault Checkpoint} (h : Entry feed number own j x)
    (hj : j ≤ (leading own).length) (hy : own[j]? = some y) : x = place feed number j y := by
  rcases h with hx | ⟨hk, he⟩
  · rw [hy] at hx; cases hx; rfl
  · have := length_leading_le_of_error he
    omega

/-! ### The invariant -/

/-- What a round keeps true, given the results that its partitions have of their own. -/
structure Faithful (r : Round) (own : List (Except Fault Checkpoint)) : Prop where
  size_eq : r.size = own.length
  /-- Every entry is the partition's own result, or a partition before it has failed on its own. -/
  entry : ∀ j x, r.results[j]? = some (some x) → Entry r.feed r.number own j x
  recorded_eq : r.recorded = (List.range r.size).countP r.isRecorded
  /-- Only leading checkpoints have been applied. -/
  applied_le : r.applied ≤ (leading own).length

/-- Whether a round has counted its results right. -/
def Tallied (r : Round) : Prop := r.recorded = (List.range r.size).countP r.isRecorded

theorem isRecorded_start (feed : String) (number size j : Nat) :
    (start feed number size).isRecorded j = false := by
  rw [Bool.eq_false_iff]
  intro hj
  obtain ⟨x, hx⟩ := ((start feed number size).isRecorded_iff j).mp hj
  simp [start, List.getElem?_replicate] at hx

theorem tallied_start (feed : String) (number size : Nat) : (start feed number size).Tallied := by
  unfold Tallied
  rw [List.countP_eq_zero.mpr]
  · rfl
  · intro j _
    rw [isRecorded_start]
    exact Bool.false_ne_true

theorem faithful_start (feed : String) (number : Nat) (own : List (Except Fault Checkpoint)) :
    (start feed number own.length).Faithful own where
  size_eq := by simp [size, start]
  entry := by
    intro j x hx
    simp [start, List.getElem?_replicate] at hx
  recorded_eq := tallied_start feed number own.length
  applied_le := Nat.zero_le _

/-! ### Taking an end -/

theorem getElem?_haltAfter (r : Round) (i : Nat) (cause : Fault) (j : Nat) :
    (r.haltAfter i cause).results[j]? =
      (r.results[j]?).map fun entry => match entry with
        | some x => some x
        | none =>
          if i < j then some (.error (.partitionHalted r.feed r.number (j + 1) cause)) else none :=
  List.getElem?_mapIdx

theorem isRecorded_haltAfter (r : Round) (i : Nat) (cause : Fault) (j : Nat) :
    (r.haltAfter i cause).isRecorded j = true ↔ r.isRecorded j = true ∨ (i < j ∧ j < r.size) := by
  simp only [isRecorded_iff, getElem?_haltAfter, size]
  rcases hj : r.results[j]? with _ | _ | x
  · have := List.getElem?_eq_none_iff.mp hj
    simp; omega
  · have := (List.getElem?_eq_some_iff.mp hj).1
    by_cases hij : i < j <;> simp [hij, this]
  · simp

theorem isRecorded_record {r : Round} {i : Nat} (hi : i < r.size) (x : Except Fault Checkpoint)
    (j : Nat) : (r.record i x).isRecorded j = true ↔ j = i ∨ r.isRecorded j = true := by
  simp only [isRecorded_iff, record, List.getElem?_set]
  simp only [size] at hi
  by_cases hij : i = j
  · subst hij; simp [hi]
  · simp [hij, Ne.symm hij]

@[simp] theorem size_haltAfter (r : Round) (i : Nat) (cause : Fault) :
    (r.haltAfter i cause).size = r.size := by
  simp [size, haltAfter]

@[simp] theorem size_record (r : Round) (i : Nat) (x : Except Fault Checkpoint) :
    (r.record i x).size = r.size := by
  simp [size, record]

/-- Two kinds of indices that exclude each other are counted apart. -/
theorem countP_or_eq_add {l : List Nat} {p q r : Nat → Bool}
    (hr : ∀ j ∈ l, r j = true ↔ p j = true ∨ q j = true)
    (hpq : ∀ j ∈ l, p j = true → q j = false) : l.countP r = l.countP p + l.countP q := by
  induction l with
  | nil => rfl
  | cons j rest ih =>
    have hrest := ih (fun k hk => hr k (List.mem_cons_of_mem _ hk))
      (fun k hk => hpq k (List.mem_cons_of_mem _ hk))
    have hj := hr j List.mem_cons_self
    have hx := hpq j List.mem_cons_self
    simp only [List.countP_cons, hrest]
    cases hp : p j <;> cases hq : q j <;> simp_all <;> omega

namespace Tallied

variable {r : Round}

theorem record (h : r.Tallied) {i : Nat} (hi : i < r.size) (hn : r.isRecorded i = false)
    (x : Except Fault Checkpoint) : (r.record i x).Tallied := by
  have hcount : (List.range r.size).countP (· == i) = 1 := by
    have := List.count_range (a := i) (n := r.size)
    rwa [if_pos hi] at this
  unfold Tallied at h ⊢
  rw [size_record, countP_or_eq_add (p := r.isRecorded) (q := (· == i)), hcount, ← h]
  · rfl
  · intro j _
    rw [isRecorded_record hi, beq_iff_eq]
    exact or_comm
  · intro j _ hj
    rw [beq_eq_false_iff_ne]
    rintro rfl
    rw [hn] at hj
    cases hj

theorem haltAfter (h : r.Tallied) (i : Nat) (cause : Fault) : (r.haltAfter i cause).Tallied := by
  unfold Tallied at h ⊢
  rw [size_haltAfter, countP_or_eq_add (p := r.isRecorded)
    (q := fun j => decide (i < j) && !r.isRecorded j), List.countP_eq_length_filter
    (p := fun j => decide (i < j) && !r.isRecorded j), ← h]
  · rfl
  · intro j hj
    rw [isRecorded_haltAfter]
    have hlt := List.mem_range.mp hj
    cases hr : r.isRecorded j <;> simp [hlt]
  · intro j _ hj
    simp [hj]

/-- Whatever end is taken, the results are counted right. -/
theorem observe (h : r.Tallied) {i : Nat} (hi : i < r.size) (cancelled : Bool) (e : Ended) :
    (r.observe cancelled i e).1.Tallied := by
  unfold Round.observe
  split
  · exact h
  · rename_i hr
    have hn := Bool.eq_false_iff.mpr hr
    split
    · exact h.record hi hn _
    · refine (h.haltAfter i _).record (by simpa using hi) (Bool.eq_false_iff.mpr fun hrec => ?_) _
      -- the failed partition itself is not among those that are stopped
      rcases (isRecorded_haltAfter r i _ i).mp hrec with h' | ⟨h', -⟩
      · exact hr h'
      · exact absurd h' (Nat.lt_irrefl i)

/-- A full round has a result for every partition. -/
theorem isRecorded_of_full (h : r.Tallied) (hf : r.full = true) {j : Nat} (hj : j < r.size) :
    r.isRecorded j = true := by
  have hle : r.size ≤ r.recorded := by simpa [full] using hf
  have hlen : (List.range r.size).countP r.isRecorded = (List.range r.size).length := by
    have := List.countP_le_length (p := r.isRecorded) (l := List.range r.size)
    rw [h] at hle
    simp only [List.length_range] at this ⊢
    omega
  exact List.countP_eq_length.mp hlen j (List.mem_range.mpr hj)

end Tallied

namespace Faithful

variable {r : Round} {own : List (Except Fault Checkpoint)}

theorem record (h : r.Faithful own) {i : Nat} {x : Except Fault Checkpoint} (hi : i < r.size)
    (hn : r.isRecorded i = false) (hx : Entry r.feed r.number own i x) :
    (r.record i x).Faithful own where
  size_eq := by rw [size_record]; exact h.size_eq
  entry := by
    intro j y hy
    simp only [Round.record, List.getElem?_set] at hy
    by_cases hij : i = j
    · subst hij
      rw [if_pos rfl] at hy
      split at hy
      · cases hy; exact hx
      · cases hy
    · rw [if_neg hij] at hy
      exact h.entry j y hy
  recorded_eq := Tallied.record h.recorded_eq hi hn x
  applied_le := h.applied_le

theorem haltAfter (h : r.Faithful own) {i : Nat} {e : Fault} (he : own[i]? = some (.error e)) :
    (r.haltAfter i (.partition r.feed r.number (i + 1) e)).Faithful own where
  size_eq := by rw [size_haltAfter]; exact h.size_eq
  entry := by
    intro j y hy
    rw [getElem?_haltAfter] at hy
    rcases hj : r.results[j]? with _ | _ | x
    · rw [hj] at hy; cases hy
    · rw [hj] at hy
      by_cases hij : i < j
      · simp only [Option.map_some, if_pos hij, Option.some.injEq] at hy
        subst hy
        exact .ofHalt hij he
      · simp [if_neg hij] at hy
    · rw [hj] at hy
      cases hy
      exact h.entry j y hj
  recorded_eq := Tallied.haltAfter h.recorded_eq i _
  applied_le := h.applied_le

end Faithful

/-! #### What taking an end leaves alone -/

theorem observe_of_isRecorded {r : Round} {i : Nat} (h : r.isRecorded i = true) (cancelled : Bool)
    (e : Ended) : r.observe cancelled i e = (r, []) := by
  simp [observe, h]

theorem observe_frame (r : Round) (cancelled : Bool) (i : Nat) (e : Ended) :
    (r.observe cancelled i e).1.feed = r.feed ∧ (r.observe cancelled i e).1.number = r.number ∧
      (r.observe cancelled i e).1.applied = r.applied ∧
      (r.observe cancelled i e).1.size = r.size := by
  unfold observe
  split
  · exact ⟨rfl, rfl, rfl, rfl⟩
  · split
    · exact ⟨rfl, rfl, rfl, size_record r i _⟩
    · exact ⟨rfl, rfl, rfl, by rw [size_record, size_haltAfter]⟩

/-- After the end of a partition was taken, the partition has a result. -/
theorem isRecorded_observe_self {r : Round} {i : Nat} (hi : i < r.size) (cancelled : Bool)
    (e : Ended) : (r.observe cancelled i e).1.isRecorded i = true := by
  by_cases hr : r.isRecorded i = true
  · rw [observe_of_isRecorded hr]; exact hr
  · simp only [observe, if_neg hr]
    split
    · exact (isRecorded_record hi _ i).mpr (Or.inl rfl)
    · exact (isRecorded_record (by simpa using hi) _ i).mpr (Or.inl rfl)

/-- Results that are there stay there. -/
theorem isRecorded_observe_mono {r : Round} {i j : Nat} (hi : i < r.size) (cancelled : Bool)
    (e : Ended) (hj : r.isRecorded j = true) : (r.observe cancelled i e).1.isRecorded j = true := by
  by_cases hr : r.isRecorded i = true
  · rw [observe_of_isRecorded hr]; exact hj
  · simp only [observe, if_neg hr]
    split
    · exact (isRecorded_record hi _ j).mpr (Or.inr hj)
    · exact (isRecorded_record (by simpa using hi) _ j).mpr
        (Or.inr ((isRecorded_haltAfter r i _ j).mpr (Or.inl hj)))

/-- What a round has still to do: ends to take and checkpoints to apply. -/
def left (r : Round) : Nat := (r.size - r.recorded) + (r.size - r.applied)

/-- Taking the end of a partition without a result is progress. -/
theorem left_observe_lt {r : Round} {i : Nat} (hfull : r.full = false) (hn : r.isRecorded i = false)
    (cancelled : Bool) (e : Ended) : (r.observe cancelled i e).1.left < r.left := by
  have hmore : r.recorded < (r.observe cancelled i e).1.recorded := by
    simp only [observe, hn, Bool.false_eq_true, if_false]
    split <;> simp only [record, haltAfter] <;> omega
  obtain ⟨-, -, happlied, hsize⟩ := r.observe_frame cancelled i e
  have hlt : r.recorded < r.size := by simpa [full] using hfull
  unfold left
  rw [happlied, hsize]
  omega

/-- So is applying a checkpoint. -/
theorem left_applyNext_lt {r : Round} {c : Checkpoint} (h : r.next? = some c) :
    r.applyNext.left < r.left := by
  have hlt : r.applied < r.size := by
    unfold next? at h
    split at h
    · rename_i hc
      exact (List.getElem?_eq_some_iff.mp hc).1
    · cases h
  simp only [left, applyNext, size] at hlt ⊢
  omega

/-- A partition that is stopped gets a result in the same step. -/
theorem isRecorded_of_mem_observe {r : Round} {i j : Nat} {cancelled : Bool} {e : Ended}
    (hi : i < r.size) (hj : j ∈ (r.observe cancelled i e).2) :
    (r.observe cancelled i e).1.isRecorded j = true := by
  by_cases hr : r.isRecorded i = true
  · rw [observe_of_isRecorded hr] at hj; cases hj
  · simp only [observe, if_neg hr] at hj ⊢
    split at hj
    · cases hj
    · simp only [openAfter, List.mem_filter, List.mem_range, Bool.and_eq_true,
        decide_eq_true_eq] at hj
      exact (isRecorded_record (by simpa using hi) _ j).mpr
        (Or.inr ((isRecorded_haltAfter r i _ j).mpr (Or.inr ⟨hj.2.1, hj.1⟩)))

/-- A partition gets a result by its own end, or together with all that come after it. -/
theorem isRecorded_of_observe {r : Round} {i j : Nat} {cancelled : Bool} {e : Ended}
    (hi : i < r.size) (hj : (r.observe cancelled i e).1.isRecorded j = true) :
    r.isRecorded j = true ∨ j = i ∨
      (j + 1 < r.size → (r.observe cancelled i e).1.isRecorded (j + 1) = true) := by
  by_cases hr : r.isRecorded i = true
  · rw [observe_of_isRecorded hr] at hj
    exact Or.inl hj
  · simp only [observe, if_neg hr] at hj ⊢
    split at hj
    · rcases (isRecorded_record hi _ j).mp hj with hji | hj
      · exact Or.inr (Or.inl hji)
      · exact Or.inl hj
    · rename_i failure _
      have hi' : i < (r.haltAfter i failure).size := by rwa [size_haltAfter]
      rcases (isRecorded_record hi' _ j).mp hj with hji | hj
      · exact Or.inr (Or.inl hji)
      · rcases (isRecorded_haltAfter r i _ j).mp hj with hj | hij
        · exact Or.inl hj
        · refine Or.inr (Or.inr fun hlt => (isRecorded_record hi' _ (j + 1)).mpr (Or.inr ?_))
          exact (isRecorded_haltAfter r i _ (j + 1)).mpr (Or.inr ⟨by omega, hlt⟩)

namespace Faithful

variable {r : Round} {own : List (Except Fault Checkpoint)}

/-- Taking an end keeps the invariant, if the task of a partition that has no result yet ended with the
partition's own result. -/
theorem observe (h : r.Faithful own) {i : Nat} {e : Ended}
    (he : r.isRecorded i = false → own[i]? = some (e.result r.feed)) :
    (r.observe false i e).1.Faithful own := by
  by_cases hr : r.isRecorded i = true
  · rw [observe_of_isRecorded hr]; exact h
  · have hn := Bool.eq_false_iff.mpr hr
    have hown := he hn
    have hi : i < r.size := by
      rw [h.size_eq]; exact (List.getElem?_eq_some_iff.mp hown).1
    simp only [Round.observe, if_neg hr, judge_eq_place]
    rcases hres : e.result r.feed with fault | c
    · rw [hres] at hown
      refine (h.haltAfter hown).record (by simpa using hi) ?_ (.ofOwn hown)
      -- the failed partition itself is not among those that are stopped
      rw [Bool.eq_false_iff]
      intro hrec
      rcases (isRecorded_haltAfter r i _ i).mp hrec with h' | ⟨h', -⟩
      · exact hr h'
      · exact absurd h' (Nat.lt_irrefl i)
    · rw [hres] at hown
      exact h.record hi hn (.ofOwn hown)

/-! ### Applying checkpoints -/

/-- The checkpoint that is next in order is the next of the leading ones. -/
theorem leading_of_next? (h : r.Faithful own) {c : Checkpoint} (hc : r.next? = some c) :
    (leading own)[r.applied]? = some c := by
  unfold next? at hc
  split at hc
  · rename_i d hd
    cases hc
    exact getElem?_leading h.applied_le (h.entry _ _ hd).own_of_ok
  · cases hc

theorem applyNext (h : r.Faithful own) {c : Checkpoint} (hc : r.next? = some c) :
    r.applyNext.Faithful own where
  size_eq := h.size_eq
  entry := h.entry
  recorded_eq := h.recorded_eq
  applied_le := (List.getElem?_eq_some_iff.mp (h.leading_of_next? hc)).1

/-! ### What comes out -/

/-- If not every partition has a result, there is a first one that has none. -/
theorem exists_first_open (h : r.Faithful own) (hfull : r.full = false) :
    ∃ j < r.size, r.isRecorded j = false ∧ ∀ k < j, r.isRecorded k = true := by
  have hopen : ∃ j, j < r.size ∧ r.isRecorded j = false := by
    by_contra hall
    have hrec : ∀ j ∈ List.range r.size, r.isRecorded j = true := by
      intro j hj
      by_contra hn
      exact hall ⟨j, List.mem_range.mp hj, Bool.eq_false_iff.mpr hn⟩
    have hcount := h.recorded_eq
    rw [List.countP_eq_length.mpr hrec, List.length_range] at hcount
    simp [full, hcount] at hfull
  obtain ⟨hlt, hrec⟩ := Nat.find_spec hopen
  refine ⟨Nat.find hopen, hlt, hrec, fun k hk => ?_⟩
  by_contra hn
  exact Nat.find_min hopen hk ⟨Nat.lt_trans hk hlt, Bool.eq_false_iff.mpr hn⟩

/-- In a round where every partition has a result and no checkpoint is left to apply, the leading
checkpoints have been applied. -/
theorem applied_eq (h : r.Faithful own) (hall : ∀ j < r.size, r.isRecorded j = true)
    (hn : r.next? = none) : r.applied = (leading own).length := by
  refine Nat.le_antisymm h.applied_le (Nat.le_of_not_lt fun hlt => ?_)
  have hc := List.getElem?_eq_getElem hlt
  have hown := getElem?_of_leading hc
  have hsize : r.applied < r.size := by
    rw [h.size_eq]; exact (List.getElem?_eq_some_iff.mp hown).1
  obtain ⟨x, hx⟩ := (r.isRecorded_iff _).mp (hall _ hsize)
  have hplace := (h.entry _ _ hx).eq_place h.applied_le hown
  subst hplace
  simp [next?, hx, place] at hn

/-- The first fault of a round in which every partition has a result is that of the first partition
behind the leading checkpoints. -/
theorem failure?_eq (h : r.Faithful own) (hall : ∀ j < r.size, r.isRecorded j = true) :
    r.failure? =
      match own[(leading own).length]? with
      | some (.error e) => some (.partition r.feed r.number ((leading own).length + 1) e)
      | _ => none := by
  have entry_of : ∀ j y, j ≤ (leading own).length → own[j]? = some y →
      r.results[j]? = some (some (place r.feed r.number j y)) := by
    intro j y hj hy
    have hsize : j < r.size := by
      rw [h.size_eq]; exact (List.getElem?_eq_some_iff.mp hy).1
    obtain ⟨x, hx⟩ := (r.isRecorded_iff _).mp (hall _ hsize)
    rw [hx, (h.entry _ _ hx).eq_place hj hy]
  have before : ∀ x ∈ r.results.take (leading own).length, ∃ c, x = some (.ok c) := by
    intro x hx
    obtain ⟨k, hk, rfl⟩ := List.getElem_of_mem hx
    simp only [List.length_take] at hk
    have hlt : k < (leading own).length := by omega
    have hown := getElem?_of_leading (List.getElem?_eq_getElem hlt)
    have hres := entry_of k _ (Nat.le_of_lt hlt) hown
    refine ⟨(leading own)[k], ?_⟩
    rw [List.getElem_take]
    exact Option.some.inj ((List.getElem?_eq_getElem _).symm.trans hres)
  unfold failure?
  rcases getElem?_length_leading own with hnone | ⟨e, he⟩
  · rw [hnone]
    have hlen : r.results.length ≤ (leading own).length := by
      have := List.getElem?_eq_none_iff.mp hnone
      rw [← h.size_eq] at this
      exact this
    rw [List.findSome?_eq_none_iff]
    intro x hx
    obtain ⟨c, rfl⟩ := before x (by rwa [List.take_of_length_le hlen])
    rfl
  · rw [he]
    have hres := entry_of _ _ (Nat.le_refl _) he
    obtain ⟨hlt, hget⟩ := List.getElem?_eq_some_iff.mp hres
    rw [List.findSome?_eq_some_iff]
    refine ⟨r.results.take (leading own).length,
      some (place r.feed r.number (leading own).length (.error e)),
      r.results.drop ((leading own).length + 1), ?_, ?_, ?_⟩
    · rw [← hget, ← List.drop_eq_getElem_cons hlt, List.take_append_drop]
    · rfl
    · intro x hx
      obtain ⟨c, rfl⟩ := before x hx
      rfl

/-- The verdict of a round of a feed that is not cancelled, once every partition has a result. -/
theorem verdict_eq (h : r.Faithful own) (hall : ∀ j < r.size, r.isRecorded j = true) :
    r.verdict false =
      match own[(leading own).length]? with
      | some (.error e) => .error (.partition r.feed r.number ((leading own).length + 1) e)
      | _ => .ok () := by
  unfold verdict
  rw [h.failure?_eq hall]
  rcases own[(leading own).length]? with _ | (e | c) <;> rfl

end Faithful

end Round

end Intake.Read
