import Intake.Proofs.Desk
/-!
# Progress is reported once and in order

Whatever others do in between, whoever hands out comes to an end: `HandsOn` is a run of their steps alone.
From an idle desk such a run does what `Ledger.checkpoint` does in one go (`handsOn_checkpoint`), and it
closes every slot, so that no set is left to be counted (`Books.flush`).

`progress_reported_once` puts this and the books of a run together. It speaks of every run of a desk:
somebody sets and resets slots at any time, and in between the steps of handing out are made. Each swap
hands out the state that was last set and the records that were set since the last swap or reset; each set
that a swap took up is counted in one message and in no other; and the states of a slot come out in the
order in which the slot had them, also where a slot is set or reset after nothing was found pending in it and
before it is read.
-/

namespace Intake.Desk

open Ledger

/-! ### Handing out to the end -/

/-- The one who hands out goes on, and nobody else does anything. -/
def HandsOn (d : Desk) (entries : List Entry) (d' : Desk) : Prop :=
  ∃ n, d.run (List.replicate n .hand) = some (d', entries)

section
variable {d d' d'' : Desk} {entries first more : List Entry}

theorem HandsOn.refl (d : Desk) : HandsOn d [] d := ⟨0, rfl⟩

theorem HandsOn.step (hhand : d.hand = (d', first)) (hmore : HandsOn d' more d'') :
    HandsOn d (first ++ more) d'' := by
  obtain ⟨n, hn⟩ := hmore
  exact ⟨n + 1, run_cons.mpr ⟨d', first, more, congrArg some hhand, hn, rfl⟩⟩

theorem HandsOn.trans (hfirst : HandsOn d first d') (hmore : HandsOn d' more d'') :
    HandsOn d (first ++ more) d'' := by
  obtain ⟨n, hn⟩ := hfirst
  obtain ⟨m, hm⟩ := hmore
  refine ⟨n + m, ?_⟩
  rw [← List.replicate_append_replicate]
  exact run_append hn hm

/-- The one who hands out sets nothing. -/
theorem isSet_of_mem_hand (d : Desk) : ∀ e ∈ d.hand.2, e.isSet = false := by
  intro e he
  unfold hand at he
  split at he
  · cases he
  · rename_i v rest draft _
    rcases notes_cases d.ledger v draft with ⟨-, hnotes⟩ | ⟨key, slot, -, -, hnotes⟩ | ⟨key, -, hnotes⟩
    · rw [hnotes] at he
      cases he
    · rw [hnotes] at he
      rw [List.mem_singleton.mp he]
      rfl
    · rw [hnotes] at he
      rw [List.mem_singleton.mp he]
      rfl
  · cases he
  · rw [List.mem_singleton.mp he]
    rfl
  · cases he

theorem HandsOn.isSet_eq_false (hrun : HandsOn d entries d') : ∀ e ∈ entries, e.isSet = false := by
  obtain ⟨n, hn⟩ := hrun
  induction n generalizing d entries with
  | zero =>
    cases hn
    nofun
  | succ n ih =>
    obtain ⟨next, first, more, hfirst, hmore, rfl⟩ := run_cons.mp hn
    have hhand : d.hand = (next, first) := Option.some.inj hfirst
    intro e he
    rcases List.mem_append.mp he with he | he
    · refine isSet_of_mem_hand d e ?_
      rw [hhand]
      exact he
    · exact ih hmore e he

end

theorem output_append (first more : List Entry) : output (first ++ more) = output first ++ output more :=
  List.filterMap_append

/-- A visit, and what follows it. -/
theorem handsOn_attend (l : Ledger) (draft : Draft) (v : Visit) (rest : List Visit) :
    ∃ entries, HandsOn { ledger := l, job := .visiting (v :: rest) draft } entries
        { ledger := (l.attend draft v).1, job := .visiting rest (l.attend draft v).2 } ∧
      output entries = [] ∧
      ∀ key, v.key? = some key → (l.slots.find? key).isSome = true → ∃ e ∈ entries, e.closes key = true := by
  have hcloses : ∀ key, v.key? = some key → (l.slots.find? key).isSome = true →
      ∃ e ∈ notes l v, e.closes key = true := by
    intro key hkey hthere
    obtain ⟨slot, hslot⟩ := Option.isSome_iff_exists.mp hthere
    rw [(visit_of_some hkey hslot draft).2]
    exact ⟨_, List.mem_cons_self, by simp [Entry.closes]⟩
  have hfirst : Desk.hand { ledger := l, job := .visiting (v :: rest) draft } =
      ({ ledger := (l.visit draft v).1, job := .visiting (l.follow v ++ rest) (l.visit draft v).2 },
        notes l v) := rfl
  rcases l.follow_cases v with hnil | ⟨k, hlook⟩
  · rw [hnil] at hfirst
    rw [attend_of_follow hnil]
    refine ⟨notes l v ++ [], HandsOn.step hfirst (HandsOn.refl _), ?_, fun key hkey hthere => ?_⟩
    · rw [List.append_nil, output_notes]
    · rw [List.append_nil]
      exact hcloses key hkey hthere
  · rw [hlook] at hfirst
    rw [attend_of_look hlook]
    refine ⟨notes l v ++ (notes (l.visit draft v).1 (.look k) ++ []),
      HandsOn.step hfirst (HandsOn.step rfl (HandsOn.refl _)), ?_, fun key hkey hthere => ?_⟩
    · rw [List.append_nil, output_append, output_notes, output_notes, List.append_nil]
    · obtain ⟨e, he, hclose⟩ := hcloses key hkey hthere
      exact ⟨e, List.mem_append_left _ he, hclose⟩

/-- All visits that are left, one after the other. -/
theorem handsOn_visits (left : List Visit) (l : Ledger) (draft : Draft) :
    ∃ entries, HandsOn { ledger := l, job := .visiting left draft } entries
        { ledger := (left.foldl (fun p v => p.1.attend p.2 v) (l, draft)).1
          job := .visiting [] (left.foldl (fun p v => p.1.attend p.2 v) (l, draft)).2 } ∧
      output entries = [] ∧
      ∀ v ∈ left, ∀ key, v.key? = some key → (l.slots.find? key).isSome = true →
        ∃ e ∈ entries, e.closes key = true := by
  induction left generalizing l draft with
  | nil => exact ⟨[], HandsOn.refl _, rfl, nofun⟩
  | cons v left ih =>
    obtain ⟨first, hfirst, hquiet, hclosed⟩ := handsOn_attend l draft v left
    obtain ⟨entries, hrun, hout, hcloses⟩ := ih (l.attend draft v).1 (l.attend draft v).2
    refine ⟨first ++ entries, hfirst.trans hrun, ?_, ?_⟩
    · rw [output_append, hquiet, hout, List.append_nil]
    · intro w hw key hkey hthere
      rcases List.mem_cons.mp hw with rfl | hw
      · obtain ⟨e, he, hclose⟩ := hclosed key hkey hthere
        exact ⟨e, List.mem_append_left _ he, hclose⟩
      · have hstill : ((l.attend draft v).1.slots.find? key).isSome = true := by
          rw [attend_fst, find?_visit]
          split
          · rw [Option.isSome_map]
            exact hthere
          · exact hthere
        obtain ⟨e, he, hclose⟩ := hcloses w hw key hkey hstill
        exact ⟨e, List.mem_append_right _ he, hclose⟩

/-- All messages that are left, one after the other. -/
theorem handsOn_writes (left : List StateMessage) (l : Ledger) :
    HandsOn { ledger := l, job := .writing left } (left.map .write) { ledger := l, job := .idle } := by
  induction left with
  | nil => exact HandsOn.step rfl (HandsOn.refl _)
  | cons m left ih => exact HandsOn.step rfl ih

theorem output_writes (left : List StateMessage) : output (left.map .write) = left := by
  induction left with
  | nil => rfl
  | cons m left ih => exact congrArg (m :: ·) ih

/-- Whoever hands out can come to the end. -/
theorem exists_handsOn_idle (d : Desk) :
    ∃ entries d', HandsOn d entries d' ∧ d'.job = .idle := by
  obtain ⟨l, job⟩ := d
  cases job with
  | idle => exact ⟨[], _, HandsOn.refl _, rfl⟩
  | visiting left draft =>
    obtain ⟨entries, hrun, -⟩ := handsOn_visits left l draft
    exact ⟨_, _, hrun.trans (HandsOn.step rfl (handsOn_writes _ _)), rfl⟩
  | writing left => exact ⟨_, _, handsOn_writes left l, rfl⟩

/-- When nobody else does anything, handing out is `checkpoint`: the ledger after it, and the messages that
are written. -/
theorem handsOn_checkpoint (l : Ledger) :
    ∃ entries, HandsOn { ledger := l } entries { ledger := l.checkpoint.1 } ∧
      output entries = l.checkpoint.2 ∧
      ∀ v ∈ l.plan, ∀ key, v.key? = some key → (l.slots.find? key).isSome = true →
        ∃ e ∈ entries, e.closes key = true := by
  obtain ⟨visits, hvisits, hout, hcloses⟩ := handsOn_visits l.plan l {}
  have hwrites := handsOn_writes l.checkpoint.2 l.checkpoint.1
  refine ⟨_, HandsOn.step rfl (hvisits.trans (HandsOn.step rfl hwrites)), ?_, ?_⟩
  · show output (visits ++ l.checkpoint.2.map .write) = _
    rw [output_append, hout, output_writes, List.nil_append]
  · intro v hv key hkey hthere
    obtain ⟨e, he, hclose⟩ := hcloses v hv key hkey hthere
    exact ⟨e, List.mem_append_right _ (List.mem_append_left _ he), hclose⟩

theorem Books.handsOn {initial : SlotKey → Option Value} {h entries : List Entry} {d d' : Desk}
    (hb : Books initial h d) (hrun : HandsOn d entries d') : Books initial (h ++ entries) d' := by
  obtain ⟨n, hn⟩ := hrun
  exact hb.run hn

/-- Handing out to the end, and then once more, leaves no set to be counted. -/
theorem Books.flush {initial : SlotKey → Option Value} {h : List Entry} {d : Desk}
    (hb : Books initial h d) :
    ∃ entries d', HandsOn d entries d' ∧ d'.job = .idle ∧ ∀ key, live key (h ++ entries) = [] := by
  obtain ⟨first, ⟨l, job⟩, hfirst, hidle⟩ := exists_handsOn_idle d
  obtain rfl : job = .idle := hidle
  obtain ⟨second, hsecond, -, hcloses⟩ := handsOn_checkpoint l
  have hmid := hb.handsOn hfirst
  refine ⟨first ++ second, _, hfirst.trans hsecond, rfl, fun key => ?_⟩
  rw [← List.append_assoc]
  by_cases hthere : (l.slots.find? key).isSome = true
  · obtain ⟨v, hv, hkey⟩ := hmid.stocked.covered key hthere
    obtain ⟨e, he, hclose⟩ := hcloses v hv key hkey hthere
    exact live_append_eq_nil hsecond.isSet_eq_false he hclose
  · -- a slot that is not there has no sets
    rw [List.eq_nil_iff_forall_not_mem]
    intro p hp
    obtain ⟨state, records, hget, -⟩ := isLive_iff.mp (mem_live.mp hp)
    rcases List.mem_append.mp (List.mem_of_getElem? hget) with hmem | hmem
    · exact hthere (hmid.known _ hmem key rfl)
    · cases hsecond.isSet_eq_false _ hmem

/-! ### What is reported -/

section
variable {initial : SlotKey → Option Value} {plan : List Visit} {h : List Entry} {job : Job}

/-- The sets of the messages that were written, apart from those in hand. -/
theorem Held.groups (hh : Held initial plan h job) :
    ∃ groups, List.Forall₂ (Counts h) groups (output h) ∧ groups.flatten.Nodup ∧
      (∀ p ∈ groups.flatten, IsCounted h p) ∧
      (job = .idle → ∀ p, IsCounted h p → p ∈ groups.flatten) := by
  obtain ⟨messages, places, drafts, groups, hin, hholds⟩ := hh
  have hsplit : groups.flatten =
      (groups.take (output h).length).flatten ++ (groups.drop (output h).length).flatten := by
    rw [← List.flatten_append, List.take_append_drop]
  refine ⟨groups.take (output h).length, List.forall₂_take_append _ _ _ hholds.counts, ?_, ?_, ?_⟩
  · have hnodup := hholds.accounts.nodup
    rw [hsplit] at hnodup
    exact (List.nodup_append.mp (List.nodup_append.mp hnodup).1).1
  · intro p hp
    rw [← hholds.accounts.mem_iff, hsplit]
    exact List.mem_append_left _ (List.mem_append_left _ hp)
  · rintro rfl p hp
    cases hin
    have hlength : groups.length = (output h).length := by
      rw [hholds.counts.length_eq, List.append_nil]
    have hmem := (hholds.accounts.mem_iff p).mpr hp
    rw [List.append_nil] at hmem
    rw [← hlength, List.take_length]
    exact hmem

/-- The states in the messages that were written, apart from those in hand. -/
theorem Held.times (hh : Held initial plan h job) (key : SlotKey) :
    ∃ times, Ordered key (initial key) h times (reported key (output h)) ∧
      (job = .idle → Complete key h times) := by
  obtain ⟨messages, places, drafts, groups, hin, hholds⟩ := hh
  obtain ⟨times, hordered, hcomplete⟩ := hholds.ordered key
  rw [List.append_assoc, reported_append] at hordered
  refine ⟨_, hordered.left, ?_⟩
  rintro rfl
  cases hin
  have hlength : (reported key (output h)).length = times.length := by
    have hvalues := congrArg List.length hordered.values_eq
    rw [List.length_map] at hvalues
    simpa [reported] using hvalues
  rw [hlength, List.take_length]
  exact hcomplete

end

/-- Somebody sets and resets slots while progress is handed out. Every swap hands out what its slot was
given last, with the records since the last swap or reset. The sets that swaps took up are divided among the
messages written, each in one, and once nobody is handing out none of them is missing. The states that the
messages report for a slot, swapped out of it or read where nothing was pending, are those it had at times that
never go back, and once nobody is handing out every swap of something pending is among them. And handing out can
always be brought to an end with nothing left to count. -/
theorem progress_reported_once (global : Option (Global × Option Value))
    (streams : List (Stream × Option Value)) {acts : List Act} {d : Desk} {h : List Entry}
    (hrun : ({ ledger := make global streams } : Desk).run acts = some (d, h)) :
    Told h ∧
    (∃ groups, List.Forall₂ (Counts h) groups (output h) ∧ groups.flatten.Nodup ∧
      (∀ p ∈ groups.flatten, IsCounted h p) ∧
      (d.job = .idle → ∀ p, IsCounted h p → p ∈ groups.flatten)) ∧
    (∀ key, ∃ times,
      Ordered key ((make global streams).currentAt key) h times (reported key (output h)) ∧
      (d.job = .idle → Complete key h times)) ∧
    ∃ more d', HandsOn d more d' ∧ d'.job = .idle ∧ ∀ key, live key (h ++ more) = [] := by
  have hb : Books (make global streams).currentAt h d := (books_make global streams).run hrun
  exact ⟨hb.told, hb.held.groups, hb.held.times, hb.flush⟩

/-- A global feed that lists one stream twice. -/
def twiceListed : Global where
  streams := [{ id := ⟨"users", none⟩ }, { id := ⟨"users", none⟩ }]

/-- While the slots are visited for the first time, the shared slot is set and the stream that is listed twice is
reset, each after nothing was found pending in it and before it is read; and another stream is set, reset and set.
Then they are visited once more. -/
def changesBetweenVisits : List Act :=
  ([ .set (.stream ⟨"users", none⟩) (.int 1) 3, .hand, .hand, .set .shared (.int 9) 5, .hand, .hand, .hand
   , .reset (.stream ⟨"users", none⟩), .hand, .hand
   , .set (.stream ⟨"orders", none⟩) (.int 5) 2, .reset (.stream ⟨"orders", none⟩)
   , .set (.stream ⟨"orders", none⟩) (.int 6) 7 ] : List Act) ++ List.replicate 15 .hand

/-- The first message has no state of the shared slot, which was set too late for it, and tells of the stream that
is listed twice its state and then that it was reset. Only the last set of the other stream is in the second
message. The third one has the set of the shared slot, and tells the reset again, as a pending one. -/
theorem progress_reported_once_between_visits :
    ∃ d h, ({ ledger := make (some (twiceListed, none)) [({ id := ⟨"orders", none⟩ }, none)] } :
        Desk).run changesBetweenVisits = some (d, h) ∧
      output h = [ .global .null [(⟨"users", none⟩, .int 1), (⟨"users", none⟩, .null)] 3
                 , .stream ⟨"orders", none⟩ (.int 6) 7
                 , .global (.int 9) [(⟨"users", none⟩, .null), (⟨"users", none⟩, .null)] 5 ] ∧
      (∃ groups, List.Forall₂ (Counts h) groups (output h) ∧ groups.flatten.Nodup ∧
        ∀ p, IsCounted h p → p ∈ groups.flatten) ∧
      ∃ times, Ordered (.stream ⟨"users", none⟩) none h times [.int 1, .null, .null, .null] ∧
        Complete (.stream ⟨"users", none⟩) h times := by
  have hrun : ∃ d h, ({ ledger := make (some (twiceListed, none)) [({ id := ⟨"orders", none⟩ }, none)] } :
      Desk).run changesBetweenVisits = some (d, h) ∧ d.job = .idle ∧
      output h = [ .global .null [(⟨"users", none⟩, .int 1), (⟨"users", none⟩, .null)] 3
                 , .stream ⟨"orders", none⟩ (.int 6) 7
                 , .global (.int 9) [(⟨"users", none⟩, .null), (⟨"users", none⟩, .null)] 5 ] :=
    ⟨_, _, rfl, rfl, rfl⟩
  obtain ⟨d, h, hrun, hidle, hout⟩ := hrun
  obtain ⟨-, ⟨groups, hcounts, hnodup, -, hall⟩, hordered, -⟩ := progress_reported_once _ _ hrun
  obtain ⟨times, htimes, hcomplete⟩ := hordered (.stream ⟨"users", none⟩)
  rw [hout] at htimes
  exact ⟨d, h, hrun, hout, ⟨groups, hcounts, hnodup, hall hidle⟩, times, htimes, hcomplete hidle⟩

end Intake.Desk
