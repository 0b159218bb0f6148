import Intake.Bootstrap
import Mathlib.Data.List.Induction
/-!
# The records of a feed

Whoever reads a feed writes the records of its streams. The writers are made in one go, from the ledger as it stands
then. Here it is said which writers there are, when the record that a writer starts from is decorated and with what
state (`Decorates`), and what comes of the data that somebody wants to write.

A global feed may list a stream more than once, with different fields; `Table.find?_puts` says that the last one
counts. Nothing is assumed of the decorator: it may add, change and remove whatever it likes. The main statement is
`records_filled_from_base`.
-/

namespace Intake

/-! ### Tables that are filled entry by entry -/

namespace Table

variable {κ ν α : Type} [DecidableEq κ]

/-- The table that is made when things are put in by their names, one after the other. -/
def puts (xs : List α) (name : α → κ) (value : α → ν) : Table κ ν :=
  xs.foldl (fun t x => put t (name x) (value x)) []

/-- What is put in last is put into the table of the others. -/
theorem puts_snoc (xs : List α) (x : α) (name : α → κ) (value : α → ν) :
    puts (xs ++ [x]) name value = (puts xs name value).put (name x) (value x) := List.foldl_append

/-- A table has each name once, in the order in which the names come first. -/
theorem keys_puts (xs : List α) (name : α → κ) (value : α → ν) :
    (puts xs name value).keys = (xs.map name).eraseDups := by
  induction xs using List.reverseRecOn with
  | nil => rfl
  | append_singleton xs x ih =>
    rw [puts_snoc, keys_put, ih, List.map_append, List.map_cons, List.map_nil, eraseDups_snoc]
    simp only [List.mem_eraseDups]

/-- Of the things with one name the last one counts. -/
theorem find?_puts (xs : List α) (name : α → κ) (value : α → ν) (key : κ) :
    (puts xs name value).find? key = (xs.reverse.find? (name · = key)).map value := by
  induction xs using List.reverseRecOn with
  | nil => rfl
  | append_singleton xs x ih =>
    rw [puts_snoc, find?_put, ih, List.reverse_append, List.reverse_singleton, List.singleton_append, List.find?_cons]
    by_cases hx : name x = key <;> simp [hx]

/-- What is found under a name was made of the last thing of that name. -/
theorem exists_of_find?_puts {xs : List α} {name : α → κ} {value : α → ν} {key : κ} {v : ν}
    (h : (puts xs name value).find? key = some v) :
    ∃ before x after, xs = before ++ x :: after ∧ name x = key ∧
      (∀ later ∈ after, name later ≠ key) ∧ value x = v := by
  rw [find?_puts] at h
  obtain ⟨x, hx, hv⟩ := Option.map_eq_some_iff.mp h
  obtain ⟨hkey, after, before, heq, hafter⟩ := List.find?_eq_some_iff_append.mp hx
  refine ⟨before.reverse, x, after.reverse, ?_, of_decide_eq_true hkey, ?_, hv⟩
  · rw [← List.reverse_reverse xs, heq]
    simp
  · intro later hlater
    simpa using hafter later (List.mem_reverse.mp hlater)

end Table

/-! ### What is written -/

/-- What is left of a value and why tell together what happened to it. -/
theorem ValueChange.eq_of_change_of_reason {c c' : ValueChange} (hchange : c.change = c'.change)
    (hreason : c.reason = c'.reason) : c = c' := by
  cases c <;> cases c' <;>
    first | rfl | exact absurd hchange (by decide) | exact absurd hreason (by decide)

/-- What is told of a field tells the field and what happened to its value. -/
theorem FieldChange.of_injective : Function.Injective fun c : String × ValueChange => FieldChange.of c.1 c.2 := by
  intro c c' h
  have hchange : c.2.change = c'.2.change := congrArg FieldChange.change h
  have hreason : c.2.reason = c'.2.reason := congrArg FieldChange.reason h
  exact Prod.ext (congrArg FieldChange.field h) (ValueChange.eq_of_change_of_reason hchange hreason)

namespace RecordWriter

/-- A record tells all that happened to its values: of two lists of changes that are told alike, each is the
other. -/
theorem changes_write_inj (w : RecordWriter) (data : Fields) {changes others : List (String × ValueChange)} :
    (w.write data changes).changes = (w.write data others).changes ↔ changes = others := by
  have hlist : (w.write data changes).changes.getD [] = changes.map fun c => .of c.1 c.2 := by
    cases changes <;> rfl
  have hother : (w.write data others).changes.getD [] = others.map fun c => .of c.1 c.2 := by
    cases others <;> rfl
  refine ⟨fun h => ?_, fun h => by rw [h]⟩
  rw [h, hother] at hlist
  exact ((List.map_inj_right fun _ _ heq => FieldChange.of_injective heq).mp hlist).symm

/-- What comes of some records, one after the other. -/
def writeAll (w : RecordWriter) (records : List (Fields × List (String × ValueChange))) : List RecordMessage :=
  records.map fun record => w.write record.1 record.2

/-- A blank record is the table of the fields of a schema with null for each. -/
theorem blank_eq_puts (schema : List String) : blank schema = Table.puts schema (fun name => name) fun _ => .null := rfl

/-- A blank record has every field of the schema once. -/
theorem keys_blank (schema : List String) : (blank schema).keys = schema.eraseDups := by
  rw [blank_eq_puts, Table.keys_puts, List.map_id']

/-- Every field of a blank record is null. -/
theorem find?_blank {schema : List String} {key : String} (h : key ∈ schema) :
    (blank schema).find? key = some .null := by
  have hkey : key ∈ (blank schema).keys := by rwa [keys_blank, List.mem_eraseDups]
  obtain ⟨v, hv⟩ := Option.isSome_iff_exists.mp ((Table.mem_keys_iff _ key).mp hkey)
  obtain ⟨_, _, _, -, -, -, rfl⟩ := Table.exists_of_find?_puts ((blank_eq_puts schema) ▸ hv)
  exact hv

/-- A record has the fields of the base record and no others. -/
theorem keys_fill (base data : Fields) : (fill base data).keys = base.keys := by
  rw [Table.keys, fill, List.map_map]
  rfl

/-- A field holds what is provided for it, be it null, and else what the base record has. -/
theorem find?_fill (base data : Fields) (key : String) :
    (fill base data).find? key = (base.find? key).map fun default => (data.find? key).getD default := by
  induction base with
  | nil => rfl
  | cons entry rest ih =>
    obtain ⟨name, default⟩ := entry
    rw [fill, List.map_cons, ← fill, Table.find?_cons, Table.find?_cons, ih]
    by_cases hname : name = key <;> simp [hname]

end RecordWriter

namespace Bootstrap

/-- The base record of a stream is decorated, and this is the state that the decorator is given. -/
inductive Decorates (b : Bootstrap) (l : Ledger) (s : Stream) : Option Value → Prop
  /-- The stream is read on its own, and the ledger's global feed lists it. -/
  | member {g : Global} : b.feed = .stream s → l.global = some g → s.id ∈ g.ids →
      Decorates b l s (l.currentAt .shared)
  /-- The stream is outside the ledger's global feed, and it is read incrementally on the cursor that all streams
  share, which is none of its own fields. -/
  | cursor {cursor : String} : (∀ g, l.global = some g → s.id ∉ g.ids) → b.decorator.cursor = some cursor →
      s.mode = .incremental → s.cursor = some cursor → cursor ∉ s.schema → Decorates b l s none

section
variable {b : Bootstrap} {l : Ledger} {s : Stream} {now : Nat}

/-- A decorator is given one state. -/
theorem Decorates.unique {state other : Option Value} (h : b.Decorates l s state) (h' : b.Decorates l s other) :
    state = other := by
  cases h with
  | member _ hg hlists =>
    cases h' with
    | member => rfl
    | cursor hapart => exact absurd hlists (hapart _ hg)
  | cursor hapart =>
    cases h' with
    | member _ hg hlists => exact absurd hlists (hapart _ hg)
    | cursor => rfl

/-- A stream follows the cursor that all share if it is read incrementally on it and has no such field of its
own. -/
theorem followsSharedCursor_iff (d : Decorator) (s : Stream) : followsSharedCursor d s = true ↔
    ∃ cursor, d.cursor = some cursor ∧ s.mode = .incremental ∧ s.cursor = some cursor ∧
      cursor ∉ s.schema := by
  unfold followsSharedCursor
  split
  · rename_i hnone
    simp [hnone]
  · rename_i cursor hcursor
    have hfields : s.schema.all (· != cursor) = true ↔ cursor ∉ s.schema := by
      rw [List.all_eq_true]
      constructor
      · intro hall hmem
        simpa using hall cursor hmem
      · intro hnot field hfield
        rw [bne_iff_ne]
        rintro rfl
        exact hnot hfield
    rw [Bool.and_eq_true, Bool.and_eq_true, hfields, beq_iff_eq, beq_iff_eq]
    constructor
    · rintro ⟨⟨hmode, hapart⟩, hreads⟩
      exact ⟨cursor, hcursor, hmode, hreads, hapart⟩
    · rintro ⟨other, hother, hmode, hreads, hapart⟩
      cases hcursor.symm.trans hother
      exact ⟨⟨hmode, hapart⟩, hreads⟩

/-- The state of the ledger's own global feed is that of the shared slot. -/
theorem current_global {g : Global} (hg : l.global = some g) : l.current (.global g) = l.currentAt .shared := by
  simp [Ledger.current, Ledger.scope?, hg]

/-- The writer of a stream starts from a blank record, or from what the decorator makes of one. -/
theorem writer_cases (hs : s ∈ b.feed.streams) (l : Ledger) (now : Nat) :
    (∃ state, b.Decorates l s state ∧
      b.writer l now s = (RecordWriter.make s now).decorated b.decorator state) ∨
    (∀ state, ¬ b.Decorates l s state) ∧ b.writer l now s = RecordWriter.make s now := by
  unfold writer
  split
  · -- the ledger's global feed lists the stream
    rename_i g hg
    obtain ⟨hglobal, hcontains⟩ := Option.filter_eq_some_iff.mp hg
    have hlists : s.id ∈ g.ids := by simpa [Global.contains] using hcontains
    split
    · rename_i hfeed
      refine .inr ⟨fun state hstate => ?_, rfl⟩
      cases hstate with
      | member hown =>
        rw [hown] at hfeed
        cases hfeed
      | cursor hapart => exact hapart g hglobal hlists
    · rename_i hfeed
      refine .inl ⟨_, .member ?_ hglobal hlists, by rw [current_global hglobal]⟩
      cases hown : b.feed with
      | stream own =>
        rw [hown] at hs
        rw [List.mem_singleton.mp hs]
      | global => exact absurd (by rw [hown]; rfl) hfeed
  · rename_i hnone
    have hapart : ∀ g, l.global = some g → s.id ∉ g.ids := by
      intro g hg hlists
      rw [hg] at hnone
      simp [Option.filter, Global.contains, hlists] at hnone
    split
    · rename_i hfollows
      obtain ⟨cursor, hcursor, hmode, hreads, hfields⟩ := (followsSharedCursor_iff _ _).mp hfollows
      exact .inl ⟨none, .cursor hapart hcursor hmode hreads hfields, rfl⟩
    · rename_i hfollows
      refine .inr ⟨fun state hstate => ?_, rfl⟩
      cases hstate with
      | member _ hg hlists => exact hapart _ hg hlists
      | cursor _ hcursor hmode hreads hfields =>
        exact hfollows ((followsSharedCursor_iff _ _).mpr ⟨_, hcursor, hmode, hreads, hfields⟩)

/-- The writer of a stream is for that stream. -/
theorem stream_writer (b : Bootstrap) (l : Ledger) (now : Nat) (s : Stream) : (b.writer l now s).stream = s := by
  unfold writer
  split <;> split <;> rfl

/-- A base record that is decorated is what the decorator makes of a blank one. -/
theorem base_of_decorates {state : Option Value} (hs : s ∈ b.feed.streams) (h : b.Decorates l s state) :
    (b.writer l now s).base = b.decorator.decorate now state s (RecordWriter.blank s.schema) := by
  rcases writer_cases hs l now with ⟨other, hother, heq⟩ | ⟨hnot, -⟩
  · rw [heq, hother.unique h]
    rfl
  · exact absurd h (hnot state)

/-- A base record that is not decorated is blank. -/
theorem base_of_not_decorates (hs : s ∈ b.feed.streams) (h : ∀ state, ¬ b.Decorates l s state) :
    (b.writer l now s).base = RecordWriter.blank s.schema := by
  rcases writer_cases hs l now with ⟨state, hstate, -⟩ | ⟨-, heq⟩
  · exact absurd hstate (h state)
  · rw [heq]
    rfl

/-- The writers of a feed are put in stream by stream. -/
theorem writers_eq_puts (b : Bootstrap) (l : Ledger) (now : Nat) :
    b.writers l now = Table.puts b.feed.streams (·.id) (b.writer l now) := rfl

end

/-- A feed has one writer for each stream that it reads, made from the last one that it lists under the name. The base
record of a writer has the fields of the stream's schema, each once and null, and if it is decorated it is what the
decorator makes of this, given the stream and the state that `Decorates` tells. Of a list of records each one becomes
a record with the fields of the base record and no others: a field holds what is provided for it, be it null, and else
what the base record has. No record depends on the ones before it. -/
theorem records_filled_from_base (b : Bootstrap) (l : Ledger) (now : Nat) :
    (b.writers l now).keys = b.feed.ids.eraseDups ∧
    ∀ id w, (b.writers l now).find? id = some w →
      let s := w.stream
      let plain := RecordWriter.blank s.schema
      (∃ before after, b.feed.streams = before ++ s :: after ∧ s.id = id ∧
        ∀ later ∈ after, later.id ≠ id) ∧
      plain.keys = s.schema.eraseDups ∧ (∀ field ∈ s.schema, plain.find? field = some .null) ∧
      (∀ state, b.Decorates l s state → w.base = b.decorator.decorate now state s plain) ∧
      ((∀ state, ¬ b.Decorates l s state) → w.base = plain) ∧
      ∀ records, (w.writeAll records).length = records.length ∧
        ∀ (i : Nat) data changes, records[i]? = some (data, changes) →
          ∃ m, (w.writeAll records)[i]? = some m ∧ m.stream = id ∧ m.data.keys = w.base.keys ∧
            ∀ field, m.data.find? field =
              (w.base.find? field).map fun default => (data.find? field).getD default := by
  refine ⟨Table.keys_puts _ _ _, fun id w hw => ?_⟩
  obtain ⟨before, s, after, hlist, hid, hlast, rfl⟩ := Table.exists_of_find?_puts (writers_eq_puts b l now ▸ hw)
  have hs : s ∈ b.feed.streams := by
    rw [hlist]
    exact List.mem_append_right _ List.mem_cons_self
  simp only [stream_writer]
  refine ⟨⟨before, after, hlist, hid, hlast⟩, RecordWriter.keys_blank _, fun _ => RecordWriter.find?_blank,
    fun _ => base_of_decorates hs, base_of_not_decorates hs, fun records => ⟨List.length_map _, ?_⟩⟩
  intro i data changes hi
  refine ⟨_, by rw [RecordWriter.writeAll, List.getElem?_map, hi, Option.map_some], ?_,
    RecordWriter.keys_fill _ _, RecordWriter.find?_fill _ _⟩
  rw [RecordWriter.write, stream_writer, hid]

/-- A global feed lists a stream twice. The last one is read on the cursor of the source and has a field twice, which
the decorator takes out. Of two records the second one provides null, a field of the decorator and one that is not
known. -/
theorem records_filled_from_base_listed_twice :
    let first : Stream := { id := { name := "a" }, schema := ["old"] }
    let last : Stream :=
      { id := { name := "a" }, schema := ["x", "y", "y"], mode := .incremental, cursor := some "lsn" }
    let d : Decorator :=
      { cursor := some "lsn"
        decorate := fun now _ s fields => (Table.erase fields "y").put "_of" (.list [.instant now, .text s.id.label]) }
    let b : Bootstrap := { feed := .global ⟨[first, { id := { name := "b" } }, last]⟩, decorator := d }
    let l := Ledger.make none []
    ∃ w, (b.writers l 7).find? { name := "a" } = some w ∧ b.Decorates l w.stream none ∧
      w.base = [("x", .null), ("_of", .list [.instant 7, .text "a"])] ∧
      ∃ m, (w.writeAll [([("x", .int 1)], []), ([("x", .null), ("_of", .int 0), ("z", .int 2)], [])])[1]? = some m ∧
        m.data.keys = ["x", "_of"] ∧ m.data.find? "x" = some .null ∧ m.data.find? "_of" = some (.int 0) ∧
        m.data.find? "z" = none := by
  intro first last d b l
  obtain ⟨-, hwriters⟩ := records_filled_from_base b l 7
  obtain ⟨-, -, -, hdecorated, -, hrecords⟩ := hwriters { name := "a" } (b.writer l 7 last) rfl
  have hdecorates : b.Decorates l last none := .cursor (by decide) rfl rfl rfl (by decide)
  obtain ⟨-, hrecord⟩ := hrecords [([("x", .int 1)], []), ([("x", .null), ("_of", .int 0), ("z", .int 2)], [])]
  obtain ⟨m, hm, -, hkeys, hfields⟩ := hrecord 1 _ _ rfl
  exact ⟨_, rfl, hdecorates, hdecorated none hdecorates, m, hm, hkeys, hfields "x", hfields "_of", hfields "z"⟩

end Bootstrap

end Intake
