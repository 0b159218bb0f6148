/-!
# Tables

A table is a list of entries read from the front: the first entry of a key is the one that counts.
`put` replaces an entry where it stands and appends a new key at the end, so a table built by `put`
alone has one entry per key and keeps its keys in the order of first arrival.

The view of a table is `find?`; `find?_put`, `find?_erase` and `find?_adjust` say what each operation
does to it, and `keys_put` and `nodup_put` what `put` does to the keys.
-/

namespace Intake

/-- Entries in order; the first entry of a key is the one that counts. -/
abbrev Table (κ : Type) (ν : Type) := List (κ × ν)

namespace Table

variable {κ ν : Type} [DecidableEq κ]

/-- The value of a key, if the table has one. -/
def find? : Table κ ν → κ → Option ν
  | [], _ => none
  | (k, v) :: rest, key => if k = key then some v else find? rest key

/-- The keys of a table, in order. -/
def keys (t : Table κ ν) : List κ := t.map Prod.fst

/-- Gives `key` the value `v`: in place when the key is known, else at the end. -/
def put : Table κ ν → κ → ν → Table κ ν
  | [], key, v => [(key, v)]
  | (k, w) :: rest, key, v => if k = key then (key, v) :: rest else (k, w) :: put rest key v

/-- Removes every entry of `key`. -/
def erase (t : Table κ ν) (key : κ) : Table κ ν := t.filter fun e => e.1 ≠ key

/-- Changes the value of `key` by `f`; an unknown key changes nothing. -/
def adjust : Table κ ν → κ → (ν → ν) → Table κ ν
  | [], _, _ => []
  | (k, v) :: rest, key, f => if k = key then (k, f v) :: rest else (k, v) :: adjust rest key f

/-! ## The view of each operation -/

@[simp] theorem find?_nil (key : κ) : find? ([] : Table κ ν) key = none := rfl

theorem find?_cons (k : κ) (v : ν) (t : Table κ ν) (key : κ) :
    find? ((k, v) :: t) key = if k = key then some v else find? t key := rfl

/-- What was put under a key is found there, and nothing else is moved. -/
theorem find?_put (t : Table κ ν) (key : κ) (v : ν) (other : κ) :
    (t.put key v).find? other = if key = other then some v else t.find? other := by
  induction t with
  | nil => rfl
  | cons e rest ih =>
    obtain ⟨k, w⟩ := e
    by_cases hk : k = key <;> by_cases ho : key = other <;> simp_all [put, find?]

/-- Putting what is there changes nothing. -/
theorem put_of_find? {t : Table κ ν} {key : κ} {v : ν} (h : t.find? key = some v) : t.put key v = t := by
  induction t with
  | nil => cases h
  | cons e rest ih =>
    obtain ⟨k, w⟩ := e
    rw [find?_cons] at h
    split at h
    · rename_i hk
      rw [put, if_pos hk, ← hk, Option.some.inj h]
    · rename_i hk
      rw [put, if_neg hk, ih h]

/-- What was removed is not found any more, and nothing else is moved. -/
theorem find?_erase (t : Table κ ν) (key other : κ) :
    (t.erase key).find? other = if key = other then none else t.find? other := by
  induction t with
  | nil => simp [erase]
  | cons e rest ih =>
    obtain ⟨k, w⟩ := e
    simp only [erase] at ih ⊢
    by_cases hk : k = key <;> by_cases ho : key = other <;> simp_all [find?]

/-- What was changed is found changed, and nothing else is moved. -/
theorem find?_adjust (t : Table κ ν) (key : κ) (f : ν → ν) (other : κ) :
    (t.adjust key f).find? other = if key = other then (t.find? key).map f else t.find? other := by
  induction t with
  | nil => simp [adjust]
  | cons e rest ih =>
    obtain ⟨k, w⟩ := e
    by_cases hk : k = key <;> by_cases ho : key = other <;> simp_all [adjust, find?]

/-- Where there is nothing, there is nothing to change. -/
theorem adjust_of_find?_eq_none {t : Table κ ν} {key : κ} (h : t.find? key = none) (f : ν → ν) :
    t.adjust key f = t := by
  induction t with
  | nil => rfl
  | cons e rest ih =>
    obtain ⟨k, w⟩ := e
    rw [find?_cons] at h
    split at h
    · cases h
    · rename_i hk
      rw [adjust, if_neg hk, ih h]

/-- The keys of a table are those under which something is found. -/
theorem mem_keys_iff (t : Table κ ν) (key : κ) : key ∈ t.keys ↔ (t.find? key).isSome := by
  induction t with
  | nil => simp [keys]
  | cons e rest ih =>
    obtain ⟨k, w⟩ := e
    simp only [keys, List.map_cons, List.mem_cons] at ih ⊢
    by_cases hk : k = key
    · simp [find?, hk]
    · have : ¬ key = k := fun h => hk h.symm
      simp [find?, hk, this, ih]

/-- A new key comes last, and a known one keeps its place. -/
theorem keys_put (t : Table κ ν) (key : κ) (v : ν) :
    (t.put key v).keys = if key ∈ t.keys then t.keys else t.keys ++ [key] := by
  induction t with
  | nil => simp [keys, put]
  | cons e rest ih =>
    obtain ⟨k, w⟩ := e
    simp only [keys] at ih ⊢
    by_cases hk : k = key
    · simp [put, hk]
    · have hk' : ¬ key = k := fun h => hk h.symm
      simp only [put, hk, if_false, List.map_cons, ih, List.mem_cons, hk', false_or]
      by_cases hm : key ∈ rest.map Prod.fst <;> simp [hm]

/-- A table with one entry per key stays so. -/
theorem nodup_put (t : Table κ ν) (key : κ) (v : ν) (h : t.keys.Nodup) :
    (t.put key v).keys.Nodup := by
  rw [keys_put]
  split
  · exact h
  · rename_i hn
    refine List.nodup_append.mpr ⟨h, by simp, ?_⟩
    intro a ha b hb
    simp only [List.mem_singleton] at hb
    rintro rfl
    exact hn (hb ▸ ha)

/-- To change a value changes no key. -/
theorem keys_adjust (t : Table κ ν) (key : κ) (f : ν → ν) : (t.adjust key f).keys = t.keys := by
  induction t with
  | nil => rfl
  | cons e rest ih =>
    obtain ⟨k, w⟩ := e
    simp only [keys] at ih ⊢
    by_cases hk : k = key <;> simp [adjust, hk, ih]

end Table

/-- What is there already is not counted once more. -/
theorem eraseDups_snoc {α : Type} [DecidableEq α] (xs : List α) (x : α) :
    (xs ++ [x]).eraseDups = if x ∈ xs then xs.eraseDups else xs.eraseDups ++ [x] := by
  rw [List.eraseDups_append]
  split
  · rename_i hmem
    simp [List.removeAll, hmem]
  · rename_i hnew
    simp [List.removeAll, hnew, List.eraseDups_cons]

end Intake
