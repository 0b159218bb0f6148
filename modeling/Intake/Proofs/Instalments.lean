import Intake.Proofs.Storyline
/-!
# Instalments

What a feed applies in a round waits in the slot of its stream until somebody hands out. That may be any
feed, and at any time, also between two checkpoints of the round: then the round is reported in instalments,
each with the state of its last checkpoint and the records of all of its own.

What happens to the slot of a stream and to the states of it that somebody has in hand (`Stock`) is one of four
things (`Deed`). `Divided.deed` says that each of them keeps the checkpoints divided into instalments, and
`Rule.deed` that every step of a feed is one of them.
-/

namespace Intake

open StateMessage (only)

/-- The states that the one who hands out has in hand. -/
def Desk.Job.messages : Desk.Job → List StateMessage
  | .idle => []
  | .visiting _ draft => draft.messages
  | .writing left => left

namespace Ledger

/-- Every stream has its slot, and a slot in which nothing is pending counts no records. -/
structure Proper (l : Ledger) : Prop where
  tracked : ∀ st ∈ l.streams, (l.slots.find? (.stream st.id)).isSome = true
  spent : ∀ key slot, l.slots.find? key = some slot → slot.pending = false → slot.records = 0

theorem proper_make (global : Option (Global × Option Value)) (streams : List (Stream × Option Value)) :
    (make global streams).Proper := by
  refine ⟨(enrolled_make global streams).tracked, fun key slot hslot _ => ?_⟩
  obtain ⟨initial, rfl⟩ := fresh_make global streams key slot hslot
  rfl

theorem Proper.apply {l : Ledger} (h : l.Proper) (op : Op) : (l.apply op).Proper := by
  refine ⟨fun st hst => ?_, fun key slot' hslot' hidle => ?_⟩
  · rw [streams_apply] at hst
    rw [isSome_find?_apply]
    exact h.tracked st hst
  · rw [find?_apply] at hslot'
    split at hslot'
    · obtain ⟨slot, hslot, rfl⟩ := Option.map_eq_some_iff.mp hslot'
      cases op with
      | set | reset => cases hidle
      | swap =>
        simp only [Op.onSlot, Slot.swap] at hidle ⊢
        split
        · rfl
        · exact h.spent key slot hslot (Bool.eq_false_iff.mpr ‹_›)
    · exact h.spent key slot' hslot' hidle

/-- A stream outside the global feed is visited by itself. -/
theorem eq_alone_of_mem_plan {l : Ledger} {v : Visit} {id : StreamId} (hv : v ∈ l.plan)
    (hkey : v.key? = some (.stream id)) (halone : l.isMember id = false) : v = .alone id := by
  cases v with
  | shared | wrap | look _ => cases hkey
  | alone other =>
    cases hkey
    rfl
  | member other =>
    cases hkey
    rcases hg : l.global with _ | g
    · simp [plan, hg] at hv
    · have hmem : id ∈ g.ids := by simpa [plan, hg] using hv
      have hmember : l.isMember id = true := by simpa [isMember, hg, Global.contains] using hmem
      rw [hmember] at halone
      cases halone

/-- A visit of a stream by itself takes what is pending for it. -/
theorem only_visit_of_pending {l : Ledger} {id : StreamId} {slot : Slot}
    (hslot : l.slots.find? (.stream id) = some slot) (hp : slot.pending = true) (d : Draft) :
    only id (l.visit d (.alone id)).2.messages =
      only id d.messages ++ [.stream id (.ofOption slot.latest) slot.records] := by
  have hof : StateMessage.IsOf id (.stream id (.ofOption slot.latest) slot.records) := rfl
  rw [(Desk.visit_of_some rfl hslot d).1, Slot.swap_of_pending hp]
  simp only [Option.elim_some, Draft.add, Draft.addAlone, StateMessage.only_append]
  rw [StateMessage.only_cons_pos hof]
  rfl

end Ledger

namespace Read

/-! ### Instalments -/

/-- The records of checkpoints together, as they are counted. -/
def total (cs : List Checkpoint) : Nat := min (cs.map (·.records)).sum recordLimit

theorem total_snoc (cs : List Checkpoint) (c : Checkpoint) :
    total (cs ++ [c]) = addRecords (total cs) c.records := by
  simp only [total, addRecords, List.map_append, List.map_cons, List.map_nil, List.sum_append,
    List.sum_cons, List.sum_nil]
  omega

/-- The message that reports checkpoints of a stream: the state of the last one, and the records of all. -/
def report (id : StreamId) (cs : List Checkpoint) : StateMessage :=
  .stream id (.ofOption (cs.getLast?.map (·.state))) (total cs)

/-- So many messages report checkpoints, each of them one or more, one after the other and none twice. -/
def Instalments (id : StreamId) (cs : List Checkpoint) (ms : List StateMessage) (n : Nat) : Prop :=
  ∃ parts : List (List Checkpoint), (∀ part ∈ parts, part ≠ []) ∧ cs = parts.flatten ∧
    ms = parts.map (report id) ∧ parts.length = n

/-- A single instalment reports all there is to report. -/
theorem Instalments.eq_report {id : StreamId} {cs : List Checkpoint} {ms : List StateMessage} {n : Nat}
    (h : Instalments id cs ms n) (hn : n ≤ 1) : ms = if cs.isEmpty then [] else [report id cs] := by
  obtain ⟨parts, hparts, rfl, rfl, rfl⟩ := h
  match parts, hn with
  | [], _ => rfl
  | [part], _ =>
    have hpart : part.isEmpty = false := by simpa using hparts part List.mem_cons_self
    simp [hpart]

/-- What is pending in a slot was set by these checkpoints. -/
structure Carries (slot : Slot) (cs : List Checkpoint) : Prop where
  pending : slot.pending = !cs.isEmpty
  latest : cs ≠ [] → slot.latest = cs.getLast?.map (·.state)
  records : slot.records = total cs

section
variable {slot : Slot} {cs : List Checkpoint}

theorem Carries.eq_nil (h : Carries slot cs) (hidle : slot.pending = false) : cs = [] := by
  rw [h.pending] at hidle
  simpa using hidle

theorem Carries.set (h : Carries slot cs) (c : Checkpoint) :
    Carries (slot.set c.state c.records) (cs ++ [c]) where
  pending := by simp [Slot.set]
  latest := fun _ => by simp [Slot.set]
  records := by rw [total_snoc, ← h.records]; rfl

theorem carries_swap (hp : slot.pending = true) : Carries slot.swap.1 [] := by
  unfold Slot.swap
  rw [if_pos hp]
  exact ⟨rfl, nofun, rfl⟩

end

/-- What there is of a stream that is not written: its slot, and the states of it that are in hand. -/
structure Stock where
  slot : Slot
  hand : List StateMessage

/-- What can be done with the stock of a stream, with the checkpoint that is applied, if there is one, and
the states that are written. -/
inductive Deed (id : StreamId) : Stock → Option Checkpoint → List StateMessage → Stock → Prop
  | applies {slot : Slot} {hand : List StateMessage} {c : Checkpoint} :
      Deed id ⟨slot, hand⟩ (some c) [] ⟨slot.set c.state c.records, hand⟩
  | takes {slot : Slot} {hand : List StateMessage} : slot.pending = true →
      Deed id ⟨slot, hand⟩ none []
        ⟨slot.swap.1, hand ++ [.stream id (.ofOption slot.latest) slot.records]⟩
  | writes {slot : Slot} {m : StateMessage} {hand : List StateMessage} :
      Deed id ⟨slot, m :: hand⟩ none [m] ⟨slot, hand⟩
  | rests {stock : Stock} : Deed id stock none [] stock

/-- The states that somebody else has in hand are of no account to somebody who has none. -/
theorem Deed.frame {id : StreamId} {slot slot' : Slot} {c : Option Checkpoint}
    (h : Deed id ⟨slot, []⟩ c [] ⟨slot', []⟩) (hand : List StateMessage) :
    Deed id ⟨slot, hand⟩ c [] ⟨slot', hand⟩ := by
  generalize hbefore : Stock.mk slot [] = before, hwritten : [] = written,
    hafter : Stock.mk slot' [] = after at h
  cases h with
  | applies =>
    cases hbefore
    cases hafter
    exact .applies
  | takes hp =>
    cases hbefore
    cases hafter
  | writes => cases hwritten
  | rests =>
    cases hbefore
    cases hafter
    exact .rests

/-- What was pending before a deed and is not after it was taken. -/
def Stock.loses (before after : Stock) : Bool := before.slot.pending && !after.slot.pending

/-- The checkpoints that were applied are divided into instalments, one for each time that what was pending
was taken. These are written or in hand, and what is left of the checkpoints is pending. -/
def Divided (id : StreamId) (cs : List Checkpoint) (ms : List StateMessage) (n : Nat) (stock : Stock) :
    Prop :=
  ∃ (parts : List (List Checkpoint)) (left : List Checkpoint), (∀ part ∈ parts, part ≠ []) ∧
    cs = parts.flatten ++ left ∧ ms ++ stock.hand = parts.map (report id) ∧ parts.length = n ∧
    Carries stock.slot left

section
variable {id : StreamId} {cs : List Checkpoint} {ms : List StateMessage} {n : Nat} {stock : Stock}

/-- Every deed keeps the checkpoints divided. -/
theorem Divided.deed (h : Divided id cs ms n stock) {c : Option Checkpoint} {written : List StateMessage}
    {stock' : Stock} (hd : Deed id stock c written stock') :
    Divided id (cs ++ c.toList) (ms ++ written) (n + (stock.loses stock').toNat) stock' := by
  obtain ⟨parts, left, hparts, rfl, hreports, rfl, hcarries⟩ := h
  cases hd with
  | @applies slot hand c =>
    refine ⟨parts, left ++ [c], hparts, ?_, ?_, ?_, hcarries.set c⟩
    · rw [Option.toList_some, List.append_assoc]
    · rw [List.append_nil]
      exact hreports
    · simp [Stock.loses, Slot.set]
  | @takes slot hand hp =>
    have hleft : left ≠ [] := by
      rintro rfl
      rw [hcarries.pending] at hp
      cases hp
    refine ⟨parts ++ [left], [], ?_, ?_, ?_, ?_, carries_swap hp⟩
    · intro part hpart
      rcases List.mem_append.mp hpart with hold | hnew
      · exact hparts part hold
      · rw [List.mem_singleton.mp hnew]
        exact hleft
    · simp
    · have hreport : StateMessage.stream id (.ofOption slot.latest) slot.records = report id left := by
        rw [hcarries.latest hleft, hcarries.records, report]
      rw [List.append_nil, ← List.append_assoc, hreports, hreport, List.map_append]
      rfl
    · simp [Stock.loses, hp, Slot.pending_swap]
  | @writes slot m hand =>
    refine ⟨parts, left, hparts, ?_, ?_, ?_, hcarries⟩
    · rw [Option.toList_none, List.append_nil]
    · rw [List.append_assoc]
      exact hreports
    · simp [Stock.loses]
  | rests =>
    refine ⟨parts, left, hparts, ?_, ?_, ?_, hcarries⟩
    · rw [Option.toList_none, List.append_nil]
    · rw [List.append_nil]
      exact hreports
    · simp [Stock.loses]

/-- When nothing is pending and nothing is in hand the checkpoints are reported, and a new account can be
opened. -/
theorem Divided.close (h : Divided id cs ms n stock) (hidle : stock.slot.pending = false)
    (hhand : stock.hand = []) : Instalments id cs ms n ∧ Divided id [] [] 0 stock := by
  obtain ⟨parts, left, hparts, rfl, hreports, hn, hcarries⟩ := h
  obtain rfl := hcarries.eq_nil hidle
  rw [hhand, List.append_nil] at hreports
  refine ⟨⟨parts, hparts, List.append_nil _, hreports, hn⟩, [], [], nofun, rfl, ?_, rfl, hcarries⟩
  rw [hhand]
  rfl

end

/-- A visit is a deed: it takes what is pending, if the stream is visited by itself. -/
theorem deed_of_visit {id : StreamId} {l : Ledger} {slot : Slot} {visit : Ledger.Visit}
    (hslot : l.slots.find? (.stream id) = some slot)
    (halone : visit.key? = some (.stream id) → visit = .alone id) (draft : Ledger.Draft) :
    ∃ slot', (l.visit draft visit).1.slots.find? (.stream id) = some slot' ∧
      Deed id ⟨slot, only id draft.messages⟩ none []
        ⟨slot', only id (l.visit draft visit).2.messages⟩ := by
  have hfind := l.find?_visit draft visit (.stream id)
  rw [hslot] at hfind
  by_cases htakes : visit.key? = some (.stream id) ∧ slot.pending = true
  · obtain ⟨hkey, hpending⟩ := htakes
    obtain rfl := halone hkey
    rw [if_pos hkey] at hfind
    refine ⟨_, hfind, ?_⟩
    rw [Ledger.only_visit_of_pending hslot hpending]
    exact .takes hpending
  · -- the visit is of another slot, or of one in which nothing is pending
    have hsame : (l.visit draft visit).1.slots.find? (.stream id) = some slot := by
      rw [hfind]
      split
      · rename_i hkey
        have hidle : ¬ slot.pending = true := fun hpending => htakes ⟨hkey, hpending⟩
        simp [Slot.swap, hidle]
      · rfl
    refine ⟨slot, hsame, ?_⟩
    rw [Ledger.only_visit_of_idle]
    · exact .rests
    · rintro rfl ⟨other, hother, hpending⟩
      rw [hslot] at hother
      cases hother
      exact htakes ⟨rfl, hpending⟩

/-- Writing a state that is in hand is a deed. -/
theorem deed_of_write (id : StreamId) (slot : Slot) (m : StateMessage) (rest : List StateMessage) :
    Deed id ⟨slot, only id (m :: rest)⟩ none (only id [m]) ⟨slot, only id rest⟩ := by
  by_cases hof : m.IsOf id
  · rw [StateMessage.only_cons_pos hof, StateMessage.only_cons_pos hof]
    exact .writes
  · rw [StateMessage.only_cons_neg hof, StateMessage.only_cons_neg hof]
    exact .rests

/-! ### Deeds of a feed -/

namespace FeedTask

/-- The checkpoint that an act of a feed applies. -/
def applied? (t : FeedTask) : Act → Option Checkpoint
  | .go =>
    match t.phase with
    | .reading r => r.next?
    | _ => none
  | _ => none

/-- The feed has read the partitions of its round and is handing out, or is past it. -/
def Phase.hasRead : Phase → Bool
  | .visiting .. => true
  | .writing .. => true
  | .completing _ => true
  | .completed => true
  | .failing _ => true
  | .stopping .. => true
  | .done _ => true
  | _ => false

theorem Phase.messages_job? (p : Phase) : (p.job?.getD .idle).messages = p.messages := by
  cases p <;> rfl

theorem Phase.messages_of_job? {p : Phase} (h : p.job? = none) : p.messages = [] := by
  rw [← p.messages_job?, h]
  rfl

/-- The feed does nothing with the stock of a stream. -/
theorem exists_rests {t : FeedTask} {l : Ledger} {a : Act} {next : Next} {id : StreamId} {slot : Slot}
    (hslot : next.shared.ledger.slots.find? (.stream id) = some slot) (hnone : t.applied? a = none)
    (hhand : only id next.task.phase.messages = only id t.phase.messages)
    (hstates : states next.effects = []) :
    ∃ slot', next.shared.ledger.slots.find? (.stream id) = some slot' ∧
      Deed id ⟨slot, only id t.phase.messages⟩
        (if l.scope? t.feed = some (.stream id) then t.applied? a else none)
        (only id (states next.effects)) ⟨slot', only id next.task.phase.messages⟩ := by
  refine ⟨slot, hslot, ?_⟩
  rw [hnone, ite_self, hstates, hhand]
  exact .rests

section
variable {v : View} {t : FeedTask} {s : Shared} {a : Act} {next : Next} {id : StreamId} {slot : Slot}

/-- Every step of a feed is a deed with the stock of a stream, as far as the feed has it in hand. -/
theorem Rule.deed (h : Rule v t s a next) (hslot : s.ledger.slots.find? (.stream id) = some slot)
    (halone : ∀ visit rest draft e, t.phase = .visiting (visit :: rest) draft e →
      visit.key? = some (.stream id) → visit = .alone id) :
    ∃ slot', next.shared.ledger.slots.find? (.stream id) = some slot' ∧
      Deed id ⟨slot, only id t.phase.messages⟩
        (if s.ledger.scope? t.feed = some (.stream id) then t.applied? a else none)
        (only id (states next.effects)) ⟨slot', only id next.task.phase.messages⟩ := by
  cases h with
  | @applies r c hp hc =>
    have happlied : t.applied? .go = some c := by simp only [applied?, hp, hc]
    have hledger : (t.applyCheckpoint s c).ledger.slots.find? (.stream id) =
        some (if s.ledger.scope? t.feed = some (.stream id) then slot.set c.state c.records else slot) := by
      rw [ledger_applyCheckpoint]
      rcases s.ledger.scope? t.feed with _ | key
      · simpa using hslot
      · rw [Option.map_some, Option.elim_some, Ledger.find?_apply, hslot]
        by_cases hkey : key = .stream id
        · simp [Ledger.Op.key, Ledger.Op.onSlot, hkey]
        · simp [Ledger.Op.key, hkey]
    refine ⟨_, hledger, ?_⟩
    rw [happlied, hp]
    split
    · exact .applies
    · exact .rests
  | @visits visit rest draft e hp =>
    have hnone : t.applied? .go = none := by simp only [applied?, hp]
    obtain ⟨slot', hslot', hdeed⟩ := deed_of_visit hslot (halone visit rest draft e hp) draft
    refine ⟨slot', hslot', ?_⟩
    rw [hnone, ite_self, hp]
    exact hdeed
  | @writes m rest count e hp =>
    have hnone : t.applied? .go = none := by simp only [applied?, hp]
    refine ⟨slot, hslot, ?_⟩
    rw [hnone, ite_self, hp]
    exact deed_of_write id slot m rest
  | @unlocks count e hp =>
    apply exists_rests _ (by simp only [applied?, hp])
    · rw [hp]
      cases e <;> rfl
    · show states (if count = 0 then [] else _) = []
      split <;> rfl
    · cases e <;> exact hslot
  | @saysStarting other rest hp =>
    exact exists_rests hslot (by simp only [applied?, hp]) (by rw [hp]; rfl) (states_tell t s .starting other)
  | @saysComplete other rest hp =>
    exact exists_rests hslot (by simp only [applied?, hp]) (by rw [hp]; rfl) (states_tell t s .complete other)
  | @saysStopped n e other rest hp =>
    exact exists_rests hslot (by simp only [applied?, hp]) (by rw [hp]; rfl) (states_tell t s n other)
  | closes hp hc => exact exists_rests hslot (by simp only [applied?, hp, hc]) (by rw [hp]; rfl) rfl
  | acquireMoves hp | acquireRetries hp | acquires hp | acquireFails hp | acquireCrashes hp =>
    exact exists_rests hslot (by cases a <;> simp only [applied?, hp]) (by rw [hp]; rfl) rfl
  | joins hp | isDeclined hp | makes hp | makeCrashes hp | creates hp | createFails hp | createCrashes hp
  | quits hp =>
    exact exists_rests hslot rfl (by rw [hp]; rfl) rfl
  | _ hp => exact exists_rests hslot (by simp only [applied?, hp]) (by rw [hp]; rfl) rfl

/-- The slots that are left to swap are slots that there are to visit. -/
theorem Rule.visits_planned (h : Rule v t s a next)
    (hbefore : ∀ left draft e, t.phase = .visiting left draft e →
      ∀ visit ∈ left, visit.key?.isSome = true → visit ∈ s.ledger.plan)
    {left : List Ledger.Visit} {draft : Ledger.Draft} {e : RoundEnd}
    (hp' : next.task.phase = .visiting left draft e) :
    ∀ visit ∈ left, visit.key?.isSome = true → visit ∈ s.ledger.plan := by
  cases h with
  | locks =>
    cases hp'
    exact fun _ hvisit _ => hvisit
  | visits hp =>
    cases hp'
    intro visit hvisit hkey
    rcases List.mem_append.mp hvisit with hfollow | hrest
    · rw [Ledger.key?_of_mem_follow hfollow] at hkey
      cases hkey
    · exact hbefore _ _ _ hp visit (List.mem_cons_of_mem _ hrest) hkey
  | @unlocks count e hp => cases e <;> cases hp'
  | _ => cases hp'

/-- Only a feed that is handing out takes what is pending. -/
theorem Rule.hasRead_of_takes (h : Rule v t s a next) {key : SlotKey} (hp : s.ledger.Pending key)
    (hp' : ¬ next.shared.ledger.Pending key) : next.task.phase.hasRead = true := by
  cases h with
  | visits => rfl
  | @applies r c hphase hc =>
    refine absurd ?_ hp'
    obtain ⟨slot, hslot, hpending⟩ := hp
    show (t.applyCheckpoint s c).ledger.Pending key
    rw [ledger_applyCheckpoint]
    rcases s.ledger.scope? t.feed with _ | other
    · exact ⟨slot, hslot, hpending⟩
    · by_cases hkey : other = key
      · refine ⟨slot.set c.state c.records, ?_, rfl⟩
        simp [Ledger.find?_apply, Ledger.Op.key, Ledger.Op.onSlot, hkey, hslot]
      · refine ⟨slot, ?_, hpending⟩
        simp [Ledger.find?_apply, Ledger.Op.key, hkey, hslot]
  | @unlocks count e hphase => cases e <;> exact absurd hp hp'
  | _ => exact absurd hp hp'

/-- A feed that has read the partitions of its round makes nothing pending until the next round. -/
theorem Rule.hasRead (h : Rule v t s a next) (hread : t.phase.hasRead = true)
    (hround : next.task.round = t.round) {key : SlotKey} :
    next.task.phase.hasRead = true ∧ (next.shared.ledger.Pending key → s.ledger.Pending key) := by
  cases h with
  | visits => exact ⟨rfl, fun hp => (Ledger.Pending.of_visit hp).2⟩
  | @unlocks count e hphase =>
    cases e with
    | more => exact absurd hround (Nat.succ_ne_self t.round)
    | last | failed => exact ⟨rfl, id⟩
  | hasVisited | writes | saysComplete | hasCompleted | finishes | stopsForCause | stops | saysStopped
  | hasStopped => exact ⟨rfl, id⟩
  | _ hphase =>
    rw [hphase] at hread
    cases hread

end

end FeedTask

end Read

end Intake
