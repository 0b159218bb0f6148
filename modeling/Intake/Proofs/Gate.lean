import Intake.Acquisition
import Mathlib.Data.List.Basic
/-!
# Calls at a gate

Any number of tasks acquire at one gate. A `Call` is one acquisition of one task, with its token and a log of what it
does. A move of the gate is a step of one call, a notification that something was released, or a cancellation of
tokens; a list of moves is one interleaving. How long a heartbeat lasts, which probe comes first and when a token is
cancelled is all up to the moves, and where a call could either see that it is cancelled or go on, both are moves.

Others change what a call sees of the gate and nothing of the call itself: `Turn` says what a move of the gate is for
one call, and `turns_of_run` what a run is. The steps of the call itself are given rule by rule (`Call.Rule`).

The log of a call has a fixed form. It is made of rounds that were refused, `refusals n`, and of a rest that depends on
where the call stands (`Rest`). `Call.Tidy` says so, and `tidy_run` that it holds after every run.
-/

namespace Intake

/-- How an acquisition ends with the answer of a probe. A refusal does not end it. -/
def ProbeAnswer.outcome? : ProbeAnswer → Option Acquisition.Outcome
  | .ready => some .acquired
  | .retry => none
  | .failed e => some (.failed e)
  | .crashed message => some (.crashed message)

namespace Acquisition

/-- Where a call stands. -/
inductive Place
  | underway (p : Phase)
  | over (o : Outcome)

/-- What a call does that can be seen from outside. -/
inductive Entry
  /-- It notes the count of releases. -/
  | registers
  /-- Its probe answers. -/
  | probes (a : ProbeAnswer)
  /-- It reports that it was refused. -/
  | reports

def Entry.answer? : Entry → Option ProbeAnswer
  | .probes a => some a
  | _ => none

def Entry.isReport : Entry → Bool
  | .reports => true
  | _ => false

def Entry.isRegistration : Entry → Bool
  | .registers => true
  | _ => false

/-- Where a call stands after a step. -/
def Next.place : Next → Place
  | .moved p => .underway p
  | .retried p => .underway p
  | .done o => .over o

/-- What is seen of a step. -/
def Next.entries (move : Move) (next : Next) : List Entry :=
  match move, next with
  | .probe a, _ => [.probes a]
  | _, .retried _ => [.reports]
  | _, .moved (.armed _) => [.registers]
  | _, _ => []

end Acquisition

open Acquisition (Phase Place Entry Outcome)

/-- One acquisition of one task. -/
structure Call where
  place : Place := .underway .fresh
  /-- Whether the token of the task is cancelled. -/
  cancelled : Bool := false
  /-- What the call has done, oldest first. -/
  log : List Entry := []

namespace Call

/-- The call makes a step of its acquisition, if it can, given the number of releases so far. -/
def step (releases : Nat) (c : Call) (m : Acquisition.Move) : Option Call :=
  match c.place with
  | .over _ => none
  | .underway p =>
    (Acquisition.step c.cancelled releases p m).map fun next =>
      { c with place := next.place, log := c.log ++ next.entries m }

/-- The answers of the probes, in order. -/
def answers (c : Call) : List ProbeAnswer := c.log.filterMap Entry.answer?

/-- How many refusals the call has reported. -/
def reported (c : Call) : Nat := c.log.countP Entry.isReport

/-- The number of the round that the call is in: how often it has registered. -/
def round (c : Call) : Nat := c.log.countP Entry.isRegistration

/-- The rules by which a call goes on. -/
inductive Rule (releases : Nat) (c : Call) : Acquisition.Move → Call → Prop
  | registers : c.place = .underway .fresh → c.cancelled = false →
      Rule releases c .go { c with place := .underway (.armed releases), log := c.log ++ [.registers] }
  /-- The answer of the probe ends the call. -/
  | answered {seen : Nat} {a : ProbeAnswer} {o : Outcome} : c.place = .underway (.armed seen) →
      a.outcome? = some o →
      Rule releases c (.probe a) { c with place := .over o, log := c.log ++ [.probes a] }
  | refused {seen : Nat} : c.place = .underway (.armed seen) →
      Rule releases c (.probe .retry)
        { c with place := .underway (.refused seen), log := c.log ++ [.probes .retry] }
  | reports {seen : Nat} : c.place = .underway (.refused seen) →
      Rule releases c .go { c with place := .underway (.waiting seen), log := c.log ++ [.reports] }
  /-- Something was released since the call registered. -/
  | wakes {seen : Nat} : c.place = .underway (.waiting seen) → seen < releases →
      Rule releases c .go { c with place := .underway .fresh }
  | elapses {seen : Nat} : c.place = .underway (.waiting seen) →
      Rule releases c .elapse { c with place := .underway .fresh }
  /-- The call sees that it is cancelled. A refusal is always reported first. -/
  | quits {p : Phase} {m : Acquisition.Move} : c.place = .underway p → (∀ seen, p ≠ .refused seen) →
      c.cancelled = true → (m = .go ∨ m = .quit) →
      Rule releases c m { c with place := .over (.failed .cancelled) }

section
variable {releases : Nat} {c c' : Call} {m : Acquisition.Move}

/-- Whatever a call does is by one of the rules. -/
theorem rule_of_step (h : c.step releases m = some c') : Rule releases c m c' := by
  unfold step at h
  split at h
  · cases h
  · rename_i p hp
    obtain ⟨next, hnext, rfl⟩ := Option.map_eq_some_iff.mp h
    have silent : ∀ {m : Acquisition.Move} {place : Place}, Rule releases c m { c with place } →
        Rule releases c m { c with place, log := c.log ++ [] } := by
      intro m place hrule
      rwa [List.append_nil]
    unfold Acquisition.step at hnext
    split at hnext
    · split at hnext
      · rename_i hcancelled
        cases hnext
        exact silent (.quits hp nofun hcancelled (.inl rfl))
      · rename_i hcancelled
        cases hnext
        exact .registers hp (Bool.eq_false_iff.mpr hcancelled)
    · cases hnext
      exact .answered hp rfl
    · cases hnext
      exact .refused hp
    · cases hnext
      exact .answered hp rfl
    · cases hnext
      exact .answered hp rfl
    · split at hnext
      · rename_i hcancelled
        cases hnext
        exact silent (.quits hp nofun hcancelled (.inr rfl))
      · cases hnext
    · cases hnext
      exact .reports hp
    · split at hnext
      · rename_i hreleased
        cases hnext
        exact silent (.wakes hp hreleased)
      · cases hnext
    · cases hnext
      exact silent (.elapses hp)
    · split at hnext
      · rename_i hcancelled
        cases hnext
        exact silent (.quits hp nofun hcancelled (.inr rfl))
      · cases hnext
    · cases hnext

end

end Call

/-- A gate, with the number of releases that it was told of, and the calls at it. -/
structure Gate where
  releases : Nat := 0
  calls : List Call := []

namespace Gate

/-- One thing that happens at a gate. -/
inductive Move
  /-- The call of an index goes on. -/
  | call (i : Nat) (m : Acquisition.Move)
  /-- The gate is told that something was released. -/
  | notify
  /-- The tokens of some calls are cancelled, all at once. -/
  | cancel (who : List Nat)

/-- Makes a move, if it can be made. -/
def step (g : Gate) : Move → Option Gate
  | .call i m => do
    let c ← g.calls[i]?
    let c ← c.step g.releases m
    return { g with calls := g.calls.set i c }
  | .notify => some { g with releases := g.releases + 1 }
  | .cancel who =>
    some { g with
      calls := g.calls.mapIdx fun i c => { c with cancelled := c.cancelled || decide (i ∈ who) } }

/-- Makes a list of moves, if each of them can be made in its turn. -/
def run (g : Gate) (moves : List Move) : Option Gate := moves.foldlM step g

/-- A gate with calls that have not begun, given which of their tokens are cancelled. -/
def opened (releases : Nat) (tokens : List Bool) : Gate where
  releases := releases
  calls := tokens.map fun cancelled => { cancelled }

/-- What a move of the gate is for the call of an index, with the releases before and after it. -/
inductive Turn (i : Nat) (releases : Nat) (c : Call) : Move → Nat → Call → Prop
  | own {m : Acquisition.Move} {c' : Call} : c.Rule releases m c' → Turn i releases c (.call i m) releases c'
  | other {j : Nat} {m : Acquisition.Move} : j ≠ i → Turn i releases c (.call j m) releases c
  | notify : Turn i releases c .notify (releases + 1) c
  | cancel {who : List Nat} :
      Turn i releases c (.cancel who) releases { c with cancelled := c.cancelled || decide (i ∈ who) }

/-- What a list of moves is for the call of an index. -/
inductive Turns (i : Nat) : Nat → Call → List Move → Nat → Call → Prop
  | nil {releases : Nat} {c : Call} : Turns i releases c [] releases c
  | cons {releases releases' releases'' : Nat} {c c' c'' : Call} {move : Move} {moves : List Move} :
      Turn i releases c move releases' c' → Turns i releases' c' moves releases'' c'' →
      Turns i releases c (move :: moves) releases'' c''

section
variable {g g' : Gate} {i : Nat} {c c' : Call} {move : Move} {moves : List Move}

theorem turn_of_step (h : g.step move = some g') (hc : g.calls[i]? = some c) :
    ∃ c', g'.calls[i]? = some c' ∧ Turn i g.releases c move g'.releases c' := by
  cases move with
  | call j m =>
    simp only [step, Option.bind_eq_bind, Option.bind_eq_some_iff] at h
    obtain ⟨d, hd, d', hstep, heq⟩ := h
    cases heq
    by_cases hji : j = i
    · subst hji
      cases hc.symm.trans hd
      refine ⟨d', ?_, .own (Call.rule_of_step hstep)⟩
      exact List.getElem?_set_self (List.getElem?_eq_some_iff.mp hd).1
    · refine ⟨c, ?_, .other hji⟩
      rw [List.getElem?_set_ne hji]
      exact hc
  | notify =>
    cases h
    exact ⟨c, hc, .notify⟩
  | cancel who =>
    cases h
    refine ⟨_, ?_, .cancel⟩
    rw [List.getElem?_mapIdx, hc]
    rfl

theorem length_step (h : g.step move = some g') : g'.calls.length = g.calls.length := by
  cases move with
  | call j m =>
    simp only [step, Option.bind_eq_bind, Option.bind_eq_some_iff] at h
    obtain ⟨d, hd, d', hstep, heq⟩ := h
    cases heq
    exact List.length_set
  | notify =>
    cases h
    rfl
  | cancel who =>
    cases h
    exact List.length_mapIdx

theorem run_cons : g.run (move :: moves) = (g.step move).bind (run · moves) := List.foldlM_cons

theorem run_append (before after : List Move) : g.run (before ++ after) = (g.run before).bind (run · after) :=
  List.foldlM_append

/-- A run is for each call a list of turns. -/
theorem turns_of_run (h : g.run moves = some g') (hc : g.calls[i]? = some c) :
    ∃ c', g'.calls[i]? = some c' ∧ Turns i g.releases c moves g'.releases c' := by
  induction moves generalizing g c with
  | nil =>
    cases h
    exact ⟨c, hc, .nil⟩
  | cons move rest ih =>
    rw [run_cons] at h
    obtain ⟨mid, hstep, hrest⟩ := Option.bind_eq_some_iff.mp h
    obtain ⟨d, hd, hturn⟩ := turn_of_step hstep hc
    obtain ⟨c', hc', hturns⟩ := ih hrest hd
    exact ⟨c', hc', .cons hturn hturns⟩

/-- The calls after a run are those before it. -/
theorem exists_turns_of_run (h : g.run moves = some g') (hc' : g'.calls[i]? = some c') :
    ∃ c, g.calls[i]? = some c ∧ Turns i g.releases c moves g'.releases c' := by
  have hlength : g'.calls.length = g.calls.length := by
    clear hc'
    induction moves generalizing g with
    | nil =>
      cases h
      rfl
    | cons move rest ih =>
      rw [run_cons] at h
      obtain ⟨mid, hstep, hrest⟩ := Option.bind_eq_some_iff.mp h
      exact (ih hrest).trans (length_step hstep)
  have hi : i < g.calls.length := hlength ▸ (List.getElem?_eq_some_iff.mp hc').1
  obtain ⟨d, hd, hturns⟩ := turns_of_run h (List.getElem?_eq_getElem hi)
  cases hc'.symm.trans hd
  exact ⟨_, List.getElem?_eq_getElem hi, hturns⟩

end

end Gate

/-! ### The log of a call -/

namespace Call

/-- Rounds that were refused. In each the call registers, is refused and reports it. -/
def refusals (n : Nat) : List Entry :=
  (List.replicate n [Entry.registers, Entry.probes .retry, Entry.reports]).flatten

/-- What the log has after the refused rounds, by where the call stands and whether its token is cancelled. -/
inductive Rest : Bool → Place → List Entry → Prop
  | fresh {b : Bool} : Rest b (.underway .fresh) []
  | armed {b : Bool} {seen : Nat} : Rest b (.underway (.armed seen)) [.registers]
  | refused {b : Bool} {seen : Nat} : Rest b (.underway (.refused seen)) [.registers, .probes .retry]
  | waiting {b : Bool} {seen : Nat} : Rest b (.underway (.waiting seen)) []
  | answered {b : Bool} {a : ProbeAnswer} {o : Outcome} : a.outcome? = some o →
      Rest b (.over o) [.registers, .probes a]
  | quit {b : Bool} {rest : List Entry} : b = true → (rest = [] ∨ rest = [.registers]) →
      Rest b (.over (.failed .cancelled)) rest

/-- The log is as the place of the call says. -/
def Tidy (c : Call) : Prop := ∃ n rest, c.log = refusals n ++ rest ∧ Rest c.cancelled c.place rest

theorem refusals_succ (n : Nat) :
    refusals (n + 1) = refusals n ++ [.registers, .probes .retry, .reports] := by
  rw [refusals, List.replicate_succ', List.flatten_append, List.flatten_singleton, refusals]

section
variable {releases : Nat} {c c' : Call} {m : Acquisition.Move}

theorem Rule.tidy (h : Rule releases c m c') (hc : c.Tidy) : c'.Tidy := by
  obtain ⟨n, rest, hlog, hrest⟩ := hc
  cases h with
  | registers hp =>
    rw [hp] at hrest
    cases hrest
    exact ⟨n, [.registers], by simp [hlog], .armed⟩
  | @answered seen a o hp ho =>
    rw [hp] at hrest
    cases hrest
    exact ⟨n, [.registers, .probes a], by simp [hlog], .answered ho⟩
  | refused hp =>
    rw [hp] at hrest
    cases hrest
    exact ⟨n, [.registers, .probes .retry], by simp [hlog], .refused⟩
  | reports hp =>
    rw [hp] at hrest
    cases hrest
    exact ⟨n + 1, [], by simp [hlog, refusals_succ], .waiting⟩
  | wakes hp | elapses hp =>
    rw [hp] at hrest
    cases hrest
    exact ⟨n, [], hlog, .fresh⟩
  | @quits p m hp hrefused hcancelled hm =>
    refine ⟨n, rest, hlog, ?_⟩
    rw [hp] at hrest
    cases hrest with
    | fresh | waiting => exact .quit hcancelled (.inl rfl)
    | armed => exact .quit hcancelled (.inr rfl)
    | refused => exact absurd rfl (hrefused _)

/-- A token that is cancelled stays so. -/
theorem Rest.or {b : Bool} {place : Place} {rest : List Entry} (h : Rest b place rest) (b' : Bool) :
    Rest (b || b') place rest := by
  cases h with
  | fresh => exact .fresh
  | armed => exact .armed
  | refused => exact .refused
  | waiting => exact .waiting
  | answered ho => exact .answered ho
  | quit hb hrest => exact .quit (by rw [hb, Bool.true_or]) hrest

theorem filterMap_refusals (n : Nat) : (refusals n).filterMap Entry.answer? = List.replicate n .retry := by
  induction n with
  | zero => rfl
  | succ n ih => rw [refusals_succ, List.filterMap_append, ih, List.replicate_succ']; rfl

theorem countP_refusals (n : Nat) : (refusals n).countP Entry.isReport = n := by
  induction n with
  | zero => rfl
  | succ n ih => rw [refusals_succ, List.countP_append, ih]; rfl

/-- A call has got an answer that ended it, or all its probes were refused and it has not ended by itself. All refusals
are reported, but for the one that the call is about to report. -/
theorem Tidy.account (h : c.Tidy) : ∃ n,
    (∃ a o, c.answers = List.replicate n .retry ++ [a] ∧ a.outcome? = some o ∧ c.place = .over o ∧
      c.reported = n) ∨
    c.answers = List.replicate n .retry ∧
      ((∃ seen, c.place = .underway (.refused seen) ∧ c.reported + 1 = n) ∨
       (∃ p, c.place = .underway p ∧ c.reported = n) ∨
       c.place = .over (.failed .cancelled) ∧ c.cancelled = true ∧ c.reported = n) := by
  obtain ⟨n, rest, hlog, hrest⟩ := h
  have hanswers : c.answers = List.replicate n .retry ++ rest.filterMap Entry.answer? := by
    rw [answers, hlog, List.filterMap_append, filterMap_refusals]
  have hreported : c.reported = n + rest.countP Entry.isReport := by
    rw [reported, hlog, List.countP_append, countP_refusals]
  generalize c.place = place at hrest
  cases hrest with
  | fresh | armed | waiting =>
    exact ⟨n, .inr ⟨hanswers.trans (List.append_nil _), .inr (.inl ⟨_, rfl, hreported⟩)⟩⟩
  | refused =>
    refine ⟨n + 1, .inr ⟨?_, .inl ⟨_, rfl, by rw [hreported]; rfl⟩⟩⟩
    rw [hanswers, List.replicate_succ']
    rfl
  | @answered a o ho => exact ⟨n, .inl ⟨a, o, hanswers, ho, rfl, hreported⟩⟩
  | quit hb hrest =>
    rcases hrest with rfl | rfl
    · exact ⟨n, .inr ⟨hanswers.trans (List.append_nil _), .inr (.inr ⟨rfl, hb, hreported⟩)⟩⟩
    · exact ⟨n, .inr ⟨hanswers.trans (List.append_nil _), .inr (.inr ⟨rfl, hb, hreported⟩)⟩⟩

/-- A call does by the answers of its probes. -/
structure Accountable (c : Call) : Prop where
  /-- Round by round it registers, is refused and reports it. What comes after that depends on where it stands. -/
  course : ∃ n rest, c.log = refusals n ++ rest ∧ Rest c.cancelled c.place rest
  /-- Its probes are refused, and at most one more is not. Every refusal is reported once; only while the call is about
  to report the last one, that report is missing. -/
  answers : ∃ n last, c.answers = List.replicate n .retry ++ last.toList ∧ last ≠ some .retry ∧
    (c.reported = n ∨ c.reported + 1 = n ∧ ∃ seen, c.place = .underway (.refused seen))
  /-- It ends well if and only if its last probe was ready. -/
  succeeds : c.place = .over .acquired ↔ c.answers.getLast? = some .ready
  /-- It ends with the fault of its last probe. -/
  fails : ∀ e, c.answers.getLast? = some (.failed e) → c.place = .over (.failed e)
  /-- It crashes with its last probe. -/
  crashes : ∀ message, c.answers.getLast? = some (.crashed message) → c.place = .over (.crashed message)
  /-- Otherwise, if it ends at all, its token is cancelled, and all its probes were refused. -/
  quits : ∀ o, c.place = .over o → (∀ a, c.answers.getLast? = some a → a.outcome? = none) →
    o = .failed .cancelled ∧ c.cancelled = true ∧ ∀ a ∈ c.answers, a = .retry

theorem Tidy.accountable (h : c.Tidy) : c.Accountable := by
  obtain ⟨n, ⟨a, o, hanswers, ho, hplace, hreported⟩ | ⟨hanswers, hstate⟩⟩ := h.account
  · -- the last answer has ended the call
    have hlast : c.answers.getLast? = some a := by rw [hanswers, List.getLast?_concat]
    constructor
    case course => exact h
    case answers =>
      refine ⟨n, some a, hanswers, ?_, .inl hreported⟩
      rintro ⟨⟩
      cases ho
    case succeeds =>
      rw [hplace, hlast]
      cases a <;> cases ho <;> simp
    case fails =>
      intro e he
      cases hlast.symm.trans he
      cases ho
      exact hplace
    case crashes =>
      intro message hm
      cases hlast.symm.trans hm
      cases ho
      exact hplace
    case quits =>
      intro _ _ hnone
      cases ho.symm.trans (hnone a hlast)
  · -- all answers were refusals
    have hall : ∀ a ∈ c.answers, a = .retry := by
      rw [hanswers]
      exact fun a ha => List.eq_of_mem_replicate ha
    have hlast : ∀ a, c.answers.getLast? = some a → a = .retry := fun a ha => hall a (List.mem_of_getLast? ha)
    constructor
    case course => exact h
    case answers =>
      refine ⟨n, none, by simpa using hanswers, nofun, ?_⟩
      rcases hstate with ⟨seen, hplace, hreported⟩ | ⟨p, -, hreported⟩ | ⟨-, -, hreported⟩
      · exact .inr ⟨hreported, seen, hplace⟩
      · exact .inl hreported
      · exact .inl hreported
    case succeeds =>
      constructor
      · intro hover
        rcases hstate with ⟨seen, hplace, -⟩ | ⟨p, hplace, -⟩ | ⟨hplace, -⟩
        · cases hplace.symm.trans hover
        · cases hplace.symm.trans hover
        · cases hplace.symm.trans hover
      · intro hready
        cases hlast _ hready
    case fails =>
      intro e he
      cases hlast _ he
    case crashes =>
      intro message hm
      cases hlast _ hm
    case quits =>
      intro o hover _
      rcases hstate with ⟨seen, hplace, -⟩ | ⟨p, hplace, -⟩ | ⟨hplace, hcancelled, -⟩
      · cases hplace.symm.trans hover
      · cases hplace.symm.trans hover
      · cases hplace.symm.trans hover
        exact ⟨rfl, hcancelled, hall⟩

end

end Call

namespace Gate

section
variable {i releases releases' : Nat} {c c' : Call} {move : Move} {moves : List Move}

theorem Turn.tidy (h : Turn i releases c move releases' c') (hc : c.Tidy) : c'.Tidy := by
  cases h with
  | own hrule => exact hrule.tidy hc
  | other | notify => exact hc
  | cancel =>
    obtain ⟨n, rest, hlog, hrest⟩ := hc
    exact ⟨n, rest, hlog, hrest.or _⟩

theorem Turns.tidy (h : Turns i releases c moves releases' c') (hc : c.Tidy) : c'.Tidy := by
  induction h with
  | nil => exact hc
  | cons hturn _ ih => exact ih (hturn.tidy hc)

/-- A call that finds its token cancelled when it begins does nothing but to end. -/
theorem Turns.idle (h : Turns i releases c moves releases' c') (hlog : c.log = []) (hcancelled : c.cancelled = true)
    (hplace : c.place = .underway .fresh ∨ c.place = .over (.failed .cancelled)) : c'.log = [] := by
  induction h with
  | nil => exact hlog
  | @cons releases releases' _ c c' _ move moves hturn _ ih =>
    have hnext : c'.log = [] ∧ c'.cancelled = true ∧
        (c'.place = .underway .fresh ∨ c'.place = .over (.failed .cancelled)) := by
      cases hturn with
      | own hrule =>
        have hend : ∀ p, c.place = .underway p → p = .fresh := by
          intro p hp
          rcases hplace with h | h
          · cases h.symm.trans hp
            rfl
          · cases h.symm.trans hp
        cases hrule with
        | registers _ hb => exact absurd hcancelled (by rw [hb]; nofun)
        | quits => exact ⟨hlog, hcancelled, .inr rfl⟩
        | answered hp | refused hp | reports hp | wakes hp | elapses hp => cases hend _ hp
      | other | notify => exact ⟨hlog, hcancelled, hplace⟩
      | cancel => exact ⟨hlog, by simp [hcancelled], hplace⟩
    exact ih hnext.1 hnext.2.1 hnext.2.2

theorem exists_opened {releases : Nat} {tokens : List Bool} (hc : (opened releases tokens).calls[i]? = some c) :
    ∃ b, tokens[i]? = some b ∧ c = { cancelled := b } := by
  rw [opened, List.getElem?_map] at hc
  obtain ⟨b, hb, rfl⟩ := Option.map_eq_some_iff.mp hc
  exact ⟨b, hb, rfl⟩

theorem tidy_run {releases : Nat} {tokens : List Bool} {g : Gate}
    (h : (opened releases tokens).run moves = some g) (hc : g.calls[i]? = some c) : c.Tidy := by
  obtain ⟨d, hd, hturns⟩ := exists_turns_of_run h hc
  obtain ⟨b, -, rfl⟩ := exists_opened hd
  exact hturns.tidy ⟨0, [], rfl, .fresh⟩

end

end Gate

end Intake
