import Intake.Proofs.Supervision
/-!
# A stream feed by itself

What becomes of a stream feed in a read that nobody cancels depends on the turns of its own tasks and on
what they hear from the connector, and on nothing else: not on the other feeds, the ledger they share, the
lock, the board or the supervisor. `FeedTask.replay` runs a feed on its turns alone, and `stream_replay`
says that the feed in the read has come to where it comes alone.

The steps by which a feed waits for the lock and hands out are not turns; only that it has handed out is one
(`Turn.handed`). So the two are compared without what they have in hand (`FeedTask.bare`).
-/

namespace Intake.Read

/-- A turn of a feed. -/
inductive Turn
  /-- The task of the feed acts. -/
  | act (a : Act)
  /-- The task of one of its partitions acts. -/
  | part (j : Nat) (a : Act)
  /-- The feed has handed out. -/
  | handed

namespace FeedTask

/-- How the round ended of which a feed is handing out. -/
def Phase.handing? : Phase → Option RoundEnd
  | .locking next => some next
  | .visiting _ _ next => some next
  | .writing _ _ next => some next
  | _ => none

/-- The task without what it has in hand. -/
def bare (t : FeedTask) : FeedTask :=
  match t.phase.handing? with
  | some next => { t with phase := .locking next }
  | none => t

/-- The turn that an act of a feed is, if it is one. -/
def turn? (t : FeedTask) (a : Act) : Option Turn :=
  match t.phase with
  | .locking _ => none
  | .visiting _ _ _ => none
  | .writing (_ :: _) _ _ => none
  | .writing [] _ _ => some .handed
  | _ => some (.act a)

/-- A turn of a feed that is by itself. -/
def alone (v : View) (l : Ledger) (t : FeedTask) : Turn → Option FeedTask
  | .act a => (t.step v { ledger := l, board := [] } a).map (·.task.bare)
  | .part j a => (t.stepPart v j a).map (·.1.bare)
  | .handed => t.phase.handing?.map fun next => (t.afterRound { ledger := l, board := [] } next).task.bare

/-- The turns of a feed that is by itself, one after the other. -/
def replay (v : View) (l : Ledger) (t : FeedTask) (turns : List Turn) : Option FeedTask :=
  turns.foldlM (alone v l) t

theorem replay_snoc (v : View) (l : Ledger) (t : FeedTask) (turns : List Turn) (turn : Turn) :
    t.replay v l (turns ++ [turn]) = (t.replay v l turns).bind (·.alone v l turn) := by
  rw [replay, List.foldlM_append]
  rcases h : turns.foldlM (alone v l) t with _ | u
  · rw [replay, h]
    rfl
  · rw [replay, h]
    simp

theorem bare_of_handing? {t : FeedTask} {next : RoundEnd} (h : t.phase.handing? = some next) :
    t.bare = { t with phase := .locking next } := by
  rw [bare, h]

theorem bare_of_none {t : FeedTask} (h : t.phase.handing? = none) : t.bare = t := by
  rw [bare, h]

/-- Apart from handing out, what becomes of a task depends on what is shared only in that the feed has a
slot. -/
theorem map_task_step {v : View} {t : FeedTask} {s s₀ : Shared} (hp : t.phase.handing? = none)
    (hscope : s.ledger.scope? t.feed = s₀.ledger.scope? t.feed) (a : Act) :
    (t.step v s a).map (·.task) = (t.step v s₀ a).map (·.task) := by
  unfold step
  rcases hphase : t.phase with _ | k | p | left | _ | _ | r | r | readers | r | next | ⟨left, draft, next⟩ |
    ⟨left, count, next⟩ | left | _ | e | ⟨n, e, left⟩ | r | message
  case asleep =>
    simp only [stepAsleep]
    rw [hscope]
    cases a <;> rfl
  case making =>
    simp only [stepMaking]
    cases a with
    | go => dsimp only; split <;> rfl
    | made m =>
      dsimp only
      split
      · cases m <;> rfl
      · rfl
    | _ => rfl
  case acquiring =>
    simp only [stepAcquiring]
    rcases a.acquisition? with _ | move
    · rfl
    · simp only [Option.bind_eq_bind, Option.bind_some]
      rcases Acquisition.step (t.cancelledIn v) t.releases p move with _ | result
      · rfl
      · rcases result with p' | p' | (_ | e | message) <;> rfl
  case starting => cases a <;> cases left <;> rfl
  case opening => cases a <;> rfl
  case creating =>
    simp only [stepCreating]
    cases a with
    | created c => cases c <;> rfl
    | quit => dsimp only; split <;> rfl
    | _ => rfl
  case releasing => cases a <;> rfl
  case notifying => cases a <;> cases r <;> rfl
  case created => cases a <;> rfl
  case reading =>
    simp only [stepReading]
    cases a with
    | go =>
      dsimp only
      rcases r.next? with _ | c
      · dsimp only
        split <;> rfl
      · rfl
    | join j =>
      dsimp only
      split
      · rcases t.join v r j with _ | ⟨t', r'⟩ <;> rfl
      · rfl
    | _ => rfl
  case locking | visiting | writing =>
    rw [hphase] at hp
    cases hp
  case completing => cases a <;> cases left <;> rfl
  case completed => cases a <;> rfl
  case failing =>
    simp only [stepFailing]
    cases a with
    | go => dsimp only; split <;> rfl
    | _ => rfl
  case stopping => cases a <;> cases left <;> rfl
  case done | crashed => rfl

theorem turn?_of_none {t : FeedTask} (h : t.phase.handing? = none) (a : Act) :
    t.turn? a = some (.act a) := by
  unfold turn?
  split
  case h_1 hp | h_2 hp | h_3 hp | h_4 hp =>
    rw [hp] at h
    cases h
  case h_5 => rfl

/-- A task that acts comes to where it comes alone. -/
theorem alone_of_step {v : View} {t : FeedTask} {s : Shared} {a : Act} {next : Next} {l : Ledger}
    (h : t.step v s a = some next) (hscope : s.ledger.scope? t.feed = l.scope? t.feed) :
    (t.turn? a).elim (some t.bare) (t.bare.alone v l) = some next.task.bare := by
  rcases hp : t.phase.handing? with _ | fate
  · have hsame : (t.step v s a).map (·.task) = (t.step v { ledger := l, board := [] } a).map (·.task) :=
      map_task_step hp hscope a
    rw [h] at hsame
    obtain ⟨next', hnext', htask⟩ := Option.map_eq_some_iff.mp hsame.symm
    rw [turn?_of_none hp, bare_of_none hp, Option.elim_some]
    simp only [alone, hnext', Option.map_some, htask]
  · cases rule_of_step h with
    | locks hphase | visits hphase | hasVisited hphase | writes hphase =>
      simp only [turn?, hphase, Option.elim_none, bare, Phase.handing?, goto, gotoWith]
    | @unlocks count next hphase =>
      simp only [turn?, hphase, Option.elim_some, bare, Phase.handing?, alone, Option.map_some]
      cases next <;> rfl
    | _ hphase =>
      rw [hphase] at hp
      cases hp

/-- What becomes of a partition does not depend on what the feed has in hand. -/
theorem alone_of_stepPart {v : View} {t t' : FeedTask} {j : Nat} {a : Act} {effects : List Effect}
    (l : Ledger) (h : t.stepPart v j a = some (t', effects)) :
    t.bare.alone v l (.part j a) = some t'.bare := by
  -- the step does not look at the phase
  have hphase : ∀ p, ({ t with phase := p }.stepPart v j a).map Prod.fst =
      (t.stepPart v j a).map fun e => { e.1 with phase := p } := by
    intro p
    simp only [stepPart]
    rcases t.parts[j]? with _ | part
    · rfl
    · simp only [Option.bind_eq_bind, Option.bind_some]
      show Option.map _ (Option.bind (part.step (t.partView v j part) a) _) = _
      rcases part.step (t.partView v j part) a with _ | next <;> rfl
  have hkeep : t'.phase = t.phase := by
    unfold stepPart at h
    obtain ⟨part, -, h⟩ := Option.bind_eq_some_iff.mp h
    obtain ⟨next, -, h⟩ := Option.bind_eq_some_iff.mp h
    cases h
    rfl
  show (t.bare.stepPart v j a).map (bare ∘ Prod.fst) = some t'.bare
  rcases hp : t.phase.handing? with _ | fate
  · rw [bare_of_none hp, h]
    rfl
  · rw [bare_of_handing? hp, ← Option.map_map, hphase, h, bare_of_handing? (hkeep ▸ hp)]
    rfl

end FeedTask

namespace System

/-- The turn of the feed of an index that a step is, if it is one. -/
def Step.turn? (i : Nat) (st : Step) : Option Turn :=
  match st.move with
  | .feed k a => if k = i then (st.before.feeds[i]?).bind (·.turn? a) else none
  | .partition k j a => if k = i then some (.part j a) else none
  | _ => none

/-- The turns of the feed of an index among steps, in order. -/
def turns (i : Nat) (steps : List Step) : List Turn := steps.filterMap (·.turn? i)

theorem turns_snoc (i : Nat) (steps : List Step) (st : Step) :
    turns i (steps ++ [st]) = turns i steps ++ (st.turn? i).toList := by
  rw [turns, List.filterMap_append]
  congr 1

section
variable {s s' : System} {effects : List Effect} {i : Nat} {t : FeedTask}

/-- A move of a feed is a step of its task. -/
theorem exists_step_feed {a : Act} (h : s.step (.feed i a) = some (s', effects))
    (ht : s.feeds[i]? = some t) :
    ∃ next, t.step (s.feedView i) s.shared a = some next ∧ s'.feeds[i]? = some next.task := by
  simp only [step, ht, Option.bind_eq_bind, Option.bind_some] at h
  split at h
  · obtain ⟨next, hn, h⟩ := Option.bind_eq_some_iff.mp h
    cases h
    exact ⟨next, hn, List.getElem?_set_self (List.getElem?_eq_some_iff.mp ht).1⟩
  · cases h

/-- A move of a partition is a step of it in its feed. -/
theorem exists_step_partition {j : Nat} {a : Act} (h : s.step (.partition i j a) = some (s', effects))
    (ht : s.feeds[i]? = some t) :
    ∃ t', t.stepPart (s.feedView i) j a = some (t', effects) ∧ s'.feeds[i]? = some t' := by
  simp only [step, ht, Option.bind_eq_bind, Option.bind_some] at h
  obtain ⟨⟨t', es⟩, hs, h⟩ := Option.bind_eq_some_iff.mp h
  cases h
  exact ⟨t', hs, List.getElem?_set_self (List.getElem?_eq_some_iff.mp ht).1⟩

end

section
variable {feeds : List Feed} {st : Step} {i : Nat} {t : FeedTask}

/-- A step of a read is for a stream feed a turn of its own, or nothing. -/
theorem Orderly.alone_step (ho : Orderly feeds st.before) {l : Ledger}
    (h : st.before.step st.move = some (st.after, st.effects)) (ht : st.before.feeds[i]? = some t)
    (hg : t.feed.isGlobal = false)
    (hscope : st.before.shared.ledger.scope? t.feed = l.scope? t.feed) :
    ∃ t', st.after.feeds[i]? = some t' ∧
      (st.turn? i).elim (some t.bare) (t.bare.alone (st.before.feedView i) l) = some t'.bare := by
  -- what is not a move of the feed or of its partitions leaves it alone
  have other : st.turn? i = none → st.after.feeds[i]? = some t → ∃ t', st.after.feeds[i]? = some t' ∧
      (st.turn? i).elim (some t.bare) (t.bare.alone (st.before.feedView i) l) = some t'.bare := by
    intro hnone hsame
    rw [hnone]
    exact ⟨t, hsame, rfl⟩
  rcases hm : st.move with ⟨k, a⟩ | ⟨k, j, a⟩ | _ | _ | key | r
  all_goals rw [hm] at h
  case feed =>
    by_cases hk : k = i
    · subst hk
      obtain ⟨next, hn, ht'⟩ := exists_step_feed h ht
      refine ⟨_, ht', ?_⟩
      have halone := FeedTask.alone_of_step hn hscope
      simpa only [Step.turn?, hm, if_true, ht, Option.bind_some] using halone
    · refine other (by simp only [Step.turn?, hm, if_neg hk]) ?_
      obtain ⟨u, next, -, -, heq, -⟩ := step_feed h
      rw [heq, List.getElem?_set_ne hk]
      exact ht
  case partition =>
    by_cases hk : k = i
    · subst hk
      obtain ⟨t', hs, ht'⟩ := exists_step_partition h ht
      refine ⟨t', ht', ?_⟩
      have halone := FeedTask.alone_of_stepPart l hs
      simpa only [Step.turn?, hm, if_true, Option.elim_some] using halone
    · refine other (by simp only [Step.turn?, hm, if_neg hk]) ?_
      obtain ⟨u, p, next, releases, -, -, -, heq, -⟩ := step_partition h
      rw [heq, List.getElem?_set_ne hk]
      exact ht
  case supervise =>
    refine other (by simp only [Step.turn?, hm]) ?_
    have hnot : i ∉ Watch.targets st.before.watch := fun hi => by
      rw [ho.targets i hi t ht] at hg; cases hg
    rcases step_at h ht with ⟨a, _, hfeed, -⟩ | ⟨j, a, _, _, _, hpart, -⟩ | ⟨-, halted, cause, hu, hkeep⟩
    · cases hfeed
    · cases hpart
    · obtain ⟨rfl, rfl⟩ := hkeep hnot
      exact hu
  case cancel | reset | record =>
    refine other (by simp only [Step.turn?, hm]) ?_
    generalize st.after = s', st.effects = effects at h ⊢
    cases h
    exact ht

end

/-- In a read that nobody cancels, a stream feed comes to where it comes by itself on its own turns. -/
theorem Orderly.stream_replay {feeds : List Feed} {s s' : System} {moves : List Move}
    {effects : List Effect} {i : Nat} {t : FeedTask} (ho : Orderly feeds s)
    (h : s.run moves = some (s', effects)) (hcancel : Move.cancel ∉ moves)
    (ht : s.feeds[i]? = some t) (hg : t.feed.isGlobal = false) :
    ∃ t', s'.feeds[i]? = some t' ∧
      t.bare.replay (s.feedView i) s.shared.ledger (turns i (s.trace moves)) = some t'.bare := by
  have hall := run_induction (P := fun past s₁ => Orderly feeds s₁ ∧ s₁.feedView i = s.feedView i ∧
    (∀ feed, s₁.shared.ledger.scope? feed = s.shared.ledger.scope? feed) ∧
    ∃ t', s₁.feeds[i]? = some t' ∧ t'.feed = t.feed ∧
      t.bare.replay (s.feedView i) s.shared.ledger (turns i past) = some t'.bare) h
    ⟨ho, rfl, fun _ => rfl, t, ht, rfl, rfl⟩ ?_
  · obtain ⟨-, -, -, t', ht', -, hreplay⟩ := hall
    exact ⟨t', ht', hreplay⟩
  · rintro past st hmem hst ⟨hbefore, hview, hscope, t₁, ht₁, hfeed, hreplay⟩
    obtain ⟨hsettings, hfactories, hcancelled⟩ := frame_step hst
    have hnot : st.move ≠ .cancel := fun hm => hcancel (hm ▸ move_mem_of_mem_trace hmem)
    obtain ⟨t₂, ht₂, halone⟩ := hbefore.alone_step hst ht₁ (hfeed ▸ hg) (hscope t₁.feed)
    refine ⟨hbefore.step hst, ?_, fun feed => (scope?_step hst feed).trans (hscope feed), t₂, ht₂,
      (feed_step hst ht₁ ht₂).trans hfeed, ?_⟩
    · rw [← hview, feedView, feedView, hsettings, hfactories, hcancelled hnot]
    · rw [hview] at halone
      rw [turns_snoc]
      rcases hturn : st.turn? i with _ | turn
      · rw [hturn, Option.elim_none] at halone
        rw [Option.toList_none, List.append_nil, hreplay, halone]
      · rw [hturn, Option.elim_some] at halone
        rw [Option.toList_some, FeedTask.replay_snoc, hreplay, Option.bind_some, halone]

end System

end Intake.Read
