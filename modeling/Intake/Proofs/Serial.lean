import Intake.Proofs.Reading
import Mathlib.Data.List.Infix
/-!
# A feed read alone and serially

What a connector does for a feed is up to its factories, its creators and its readers. `Creation` is what
becomes of one creator, beside `Fate` for a reader, and a `Conduct` says what each factory offers, by the
state of the feed at the time when it is asked.

A conduct is all that is needed to read a feed without tasks, a ledger or other feeds: `serialRound` asks
the factories in order, takes the readers one after the other and applies their checkpoints, and `serial`
reads round after round. What is noted on the way is a log of `Note`s. The reading of `serial n` is at the
beginning of round `n + 1`, or it has come to its end before; `serial_isPrefix` and `serial_of_stopped` say
that more rounds only add to the log.
-/

namespace Intake.Read

/-! ### Conducts -/

/-- What becomes of a creator that nobody stops. -/
inductive Creation
  /-- Its probe fails. -/
  | denied (e : Fault)
  /-- Its probe crashes. -/
  | lost (message : String)
  /-- It fails. -/
  | fails (e : Fault)
  | crashes (message : String)
  /-- It makes readers. Each says whether it may run without limit, and has its fate. -/
  | makes (readers : List (Bool × Fate))

/-- What a factory has for a feed: nothing, a creator, or a crash. -/
abbrev Offer := Option (Except String Creation)

/-- How a connector behaves towards a feed: what the factory of an index offers, by the state of the
feed. -/
abbrev Conduct := Nat → Option Value → Offer

/-- What a factory answers. -/
def Offer.made : Offer → Made
  | none => .none
  | some (.ok _) => .creator
  | some (.error message) => .crashed message

theorem Offer.eq_none_of_made {o : Offer} (h : .none = o.made) : o = none := by
  rcases o with _ | _ | _ <;> cases h
  rfl

theorem Offer.eq_ok_of_made {o : Offer} (h : .creator = o.made) : ∃ c, o = some (.ok c) := by
  rcases o with _ | _ | c <;> cases h
  exact ⟨c, rfl⟩

theorem Offer.eq_error_of_made {o : Offer} {message : String} (h : .crashed message = o.made) :
    o = some (.error message) := by
  rcases o with _ | _ | _ <;> cases h
  rfl

/-- The creator that a factory has. -/
def Offer.creation? : Offer → Option Creation
  | some (.ok c) => some c
  | _ => none

namespace Creation

/-- Whether the probe of the creator gets its resources in the end. -/
def granted : Creation → Bool
  | .denied _ => false
  | .lost _ => false
  | _ => true

/-- Whether an act agrees with what becomes of the creator; any number of probes may be refused. -/
def Allows (c : Creation) : Act → Prop
  | .probe .ready => c.granted = true
  | .probe (.failed e) => c = .denied e
  | .probe (.crashed message) => c = .lost message
  | .created (.readers l) => ∃ readers, c = .makes readers ∧ readers.map Prod.fst = l
  | .created (.failed e) => c = .fails e
  | .created (.crashed message) => c = .crashes message
  | _ => True

/-- The fates of the readers that the creator makes. -/
def fates : Creation → List Fate
  | .makes readers => readers.map Prod.snd
  | _ => []

end Creation

/-! ### Logs -/

/-- What is noted of a feed. -/
inductive Note
  /-- In a round the factory of an index is asked, with the feed in a state. -/
  | asked (round factory : Nat) (state : Option Value)
  /-- The creator of a round has made readers. -/
  | opened (round : Nat) (readers : List Bool)
  /-- A checkpoint is applied to the slot of the feed. -/
  | applied (state : Value) (records : Nat)

/-- The state that a note sets. -/
def Note.state? : Note → Option Value
  | .applied state _ => some state
  | _ => none

/-- The last state that was applied, or else the initial one. -/
def stateAfter (initial : Option Value) (log : List Note) : Option Value :=
  (log.filterMap Note.state?).getLast?.or initial

theorem stateAfter_append (initial : Option Value) (first later : List Note) :
    stateAfter initial (first ++ later) = stateAfter (stateAfter initial first) later := by
  simp only [stateAfter, List.filterMap_append, List.getLast?_append, Option.or_assoc]

@[simp] theorem stateAfter_opened (initial : Option Value) (round : Nat) (readers : List Bool) :
    stateAfter initial [.opened round readers] = initial := rfl

@[simp] theorem stateAfter_applied (initial : Option Value) (state : Value) (records : Nat) :
    stateAfter initial [.applied state records] = some state := rfl

/-- The notes of some checkpoints. -/
def applications (cs : List Checkpoint) : List Note := cs.map fun c => .applied c.state c.records

/-! ### Serial reading -/

/-- How a feed goes on after a round. -/
inductive Course
  /-- With a further round, in a state. -/
  | onward (state : Option Value)
  /-- It has come to its end. -/
  | ended (r : Except Fault Unit)
  | crashed (message : String)

/-- How a feed goes on after a round that ended in one way or another and left it in a state. -/
def RoundEnd.course (state : Option Value) : RoundEnd → Course
  | .last => .ended (.ok ())
  | .more => .onward state
  | .failed e => .ended (.error e)

/-- Asks as many factories as are left, from one index on, until one has something. -/
def serialAsk (conduct : Conduct) (number : Nat) (state : Option Value) :
    (left factory : Nat) → List Note × Offer
  | 0, _ => ([], none)
  | left + 1, factory =>
    match conduct factory state with
    | none =>
      let rest := serialAsk conduct number state left (factory + 1)
      (.asked number factory state :: rest.1, rest.2)
    | some answer => ([.asked number factory state], some answer)

/-- Reads the partitions of a round, one after the other. -/
def Creation.serial (feed : String) (number : Nat) (state : Option Value) :
    Creation → List Note × Course
  | .denied e => ([], .ended (.error (.creation feed number e)))
  | .lost message => ([], .crashed message)
  | .fails e => ([], .ended (.error (.creation feed number e)))
  | .crashes message => ([], .crashed message)
  | .makes readers =>
    let own := (readers.map Prod.snd).map (Fate.result feed)
    let log := .opened number (readers.map Prod.fst) :: applications (leading own)
    let roundEnd := if readers.isEmpty then .last else serialEnd feed number own
    (log, roundEnd.course (stateAfter state log))

/-- Reads one round. -/
def serialRound (conduct : Conduct) (factories : Nat) (feed : String) (number : Nat)
    (state : Option Value) : List Note × Course :=
  let (log, offer) := serialAsk conduct number state factories 0
  match offer with
  | none => (log, .ended (.error (.noFactory feed)))
  | some (.error message) => (log, .crashed message)
  | some (.ok c) => (log ++ (c.serial feed number state).1, (c.serial feed number state).2)

/-- Reads a number of rounds, if the feed does not come to its end before. -/
def serial (conduct : Conduct) (factories : Nat) (feed : String) (initial : Option Value) :
    Nat → List Note × Course
  | 0 => ([], .onward initial)
  | n + 1 =>
    match serial conduct factories feed initial n with
    | (log, .onward state) =>
      let round := serialRound conduct factories feed (n + 1) state
      (log ++ round.1, round.2)
    | stopped => stopped

section
variable {conduct : Conduct} {factories : Nat} {feed : String} {initial state : Option Value}
  {n m number : Nat} {log : List Note}

theorem serialRound_of_none (h : serialAsk conduct number state factories 0 = (log, none)) :
    serialRound conduct factories feed number state =
      (log, .ended (.error (.noFactory feed))) := by
  simp only [serialRound, h]

theorem serialRound_of_error {message : String}
    (h : serialAsk conduct number state factories 0 = (log, some (.error message))) :
    serialRound conduct factories feed number state = (log, .crashed message) := by
  simp only [serialRound, h]

theorem serialRound_of_ok {c : Creation}
    (h : serialAsk conduct number state factories 0 = (log, some (.ok c))) :
    serialRound conduct factories feed number state =
      (log ++ (c.serial feed number state).1, (c.serial feed number state).2) := by
  simp only [serialRound, h]

/-- The creator of a round has nothing to note. -/
theorem serialRound_of_silent {c : Creation} {course : Course}
    (h : serialAsk conduct number state factories 0 = (log, some (.ok c)))
    (hc : c.serial feed number state = ([], course)) :
    serialRound conduct factories feed number state = (log, course) := by
  rw [serialRound_of_ok h, hc, List.append_nil]

theorem serial_succ (h : serial conduct factories feed initial n = (log, .onward state)) :
    serial conduct factories feed initial (n + 1) =
      (log ++ (serialRound conduct factories feed (n + 1) state).1,
        (serialRound conduct factories feed (n + 1) state).2) := by
  simp only [serial, h]

/-- A further round only adds to the log. -/
theorem serial_isPrefix_succ (conduct : Conduct) (factories : Nat) (feed : String)
    (initial : Option Value) (n : Nat) :
    (serial conduct factories feed initial n).1 <+:
      (serial conduct factories feed initial (n + 1)).1 := by
  rcases h : serial conduct factories feed initial n with ⟨log, state | r | message⟩
  · rw [serial_succ h]
    exact List.prefix_append _ _
  · simp only [serial, h]
    exact List.prefix_rfl
  · simp only [serial, h]
    exact List.prefix_rfl

/-- Further rounds only add to the log. -/
theorem serial_isPrefix (hnm : n ≤ m) :
    (serial conduct factories feed initial n).1 <+: (serial conduct factories feed initial m).1 := by
  induction hnm with
  | refl => exact List.prefix_rfl
  | @step m _ ih => exact ih.trans (serial_isPrefix_succ conduct factories feed initial m)

/-- The phase in which the task of a feed is over, if it has no further round. -/
def Course.phase? : Course → Option FeedTask.Phase
  | .onward _ => none
  | .ended r => some (.done r)
  | .crashed message => some (.crashed message)

/-- A feed that has come to its end stays there. -/
theorem serial_of_stopped {phase : FeedTask.Phase}
    (h : (serial conduct factories feed initial n).2.phase? = some phase) (hnm : n ≤ m) :
    serial conduct factories feed initial m = serial conduct factories feed initial n := by
  induction hnm with
  | refl => rfl
  | @step m _ ih =>
    rcases hn : serial conduct factories feed initial n with ⟨log, state | r | message⟩
    · rw [hn] at h
      cases h
    · rw [hn] at ih
      simp only [serial, ih]
    · rw [hn] at ih
      simp only [serial, ih]

/-- Asking factories sets no state. -/
theorem states_serialAsk (conduct : Conduct) (number : Nat) (state : Option Value)
    (left factory : Nat) :
    (serialAsk conduct number state left factory).1.filterMap Note.state? = [] := by
  induction left generalizing factory with
  | zero => rfl
  | succ left ih =>
    simp only [serialAsk]
    split
    · exact ih (factory + 1)
    · rfl

/-- While factories are asked the feed is in the state in which the round began. -/
theorem stateAfter_of_asked {part : List Note}
    (h : part <+: (serialAsk conduct number state factories 0).1) :
    stateAfter state part = state := by
  have hall := states_serialAsk conduct number state factories 0
  obtain ⟨rest, hrest⟩ := h
  rw [← hrest, List.filterMap_append, List.append_eq_nil_iff] at hall
  rw [stateAfter, hall.1]
  rfl

/-- A round begins with asking factories. -/
theorem serialAsk_isPrefix :
    (serialAsk conduct number state factories 0).1 <+:
      (serialRound conduct factories feed number state).1 := by
  rcases hask : serialAsk conduct number state factories 0 with ⟨asked, _ | message | c⟩
  · rw [serialRound_of_none hask]
  · rw [serialRound_of_error hask]
  · rw [serialRound_of_ok hask]
    exact List.prefix_append _ _

theorem RoundEnd.state_of_course {e : RoundEnd} {next : Option Value}
    (h : e.course state = .onward next) : next = state := by
  cases e <;> cases h
  rfl

/-- A round that has a next one leaves the feed in the state that was applied last. -/
theorem state_of_serialRound {next : Option Value}
    (h : (serialRound conduct factories feed number state).2 = .onward next) :
    next = stateAfter state (serialRound conduct factories feed number state).1 := by
  rcases hask : serialAsk conduct number state factories 0 with ⟨asked, _ | message | c⟩
  · rw [serialRound_of_none hask] at h
    cases h
  · rw [serialRound_of_error hask] at h
    cases h
  · have hstate : stateAfter state asked = state :=
      stateAfter_of_asked (by rw [hask])
    rw [serialRound_of_ok hask] at h ⊢
    rw [stateAfter_append, hstate]
    cases c with
    | makes readers => exact RoundEnd.state_of_course h
    | _ => cases h

/-- The state at the beginning of a round is the one that was applied last. -/
theorem state_of_serial (h : (serial conduct factories feed initial n).2 = .onward state) :
    state = stateAfter initial (serial conduct factories feed initial n).1 := by
  induction n generalizing state with
  | zero => cases h; rfl
  | succ n ih =>
    rcases hn : serial conduct factories feed initial n with ⟨log, before | r | message⟩
    · rw [hn] at ih
      rw [serial_succ hn] at h ⊢
      rw [stateAfter_append, ← ih rfl]
      exact state_of_serialRound h
    · simp only [serial, hn] at h
      cases h
    · simp only [serial, hn] at h
      cases h

end

end Intake.Read
