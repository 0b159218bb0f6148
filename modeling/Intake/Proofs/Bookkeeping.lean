import Intake.Proofs.Instalments
import Intake.Proofs.Parties
/-!
# The states of a round

In a read the feeds apply their checkpoints and hand out in any order. `Stocks.step` says that every step,
whoever makes it, is a deed with the stock of a stream outside the global feed, and `Booked` keeps the account
of the stream round by round: when its feed goes on to the next round, nothing is pending and nothing in hand,
so the account of the round can be closed.

The main statement is `round_reported_in_instalments`: a round is reported in as many instalments as it was
taken from its slot, and so in one, if nobody but the feed itself took it.
-/

namespace Intake.Read

open StateMessage (only)

namespace System

/-! ### Deeds in a read -/

/-- The checkpoint that a step applies for the feed of an index. -/
def Step.applied? (i : Nat) (st : Step) : Option Checkpoint :=
  match st.move with
  | .feed k a => if k = i then (st.before.feeds[i]?).bind (·.applied? a) else none
  | _ => none

/-- Whoever hands out has only such slots left to swap as there are to visit. -/
def Planned (s : System) : Prop :=
  ∀ (k : Nat) (u : FeedTask) (left : List Ledger.Visit) (draft : Ledger.Draft) (e : RoundEnd),
    s.feeds[k]? = some u → u.phase = .visiting left draft e →
      ∀ visit ∈ left, visit.key?.isSome = true → visit ∈ s.shared.ledger.plan

/-- What there is of a stream in a read that is not written. -/
structure Stocks (id : StreamId) (s : System) (stock : Stock) : Prop where
  slot : s.shared.ledger.slots.find? (.stream id) = some stock.slot
  hand : ∃ d holder, Mirrors s d holder ∧ stock.hand = only id d.job.messages

theorem planned_start (settings : Settings) (factories : Nat) (l : Ledger) :
    Planned (start settings factories l) := by
  intro k u left draft e hu hp
  obtain ⟨feed, -, rfl⟩ := List.mem_map.mp (List.mem_of_getElem? hu)
  cases hp

section
variable {feeds : List Feed} {i : Nat} {stream : Stream} {id : StreamId} {s s' : System} {move : Move}
  {effects : List Effect} {stock : Stock}

theorem plan_step (h : s.step move = some (s', effects)) :
    s'.shared.ledger.plan = s.shared.ledger.plan := by
  rw [step_ledger h]
  rcases s.op? move with _ | op
  · rfl
  · exact Ledger.plan_apply _ op

theorem isMember_step (h : s.step move = some (s', effects)) :
    s'.shared.ledger.isMember id = s.shared.ledger.isMember id := by
  rw [step_ledger h]
  rcases s.op? move with _ | op
  · rfl
  · rw [Option.elim_some, Ledger.isMember, Ledger.global_apply]
    rfl

theorem Planned.step (hs : Planned s) (h : s.step move = some (s', effects)) : Planned s' := by
  intro k u' left draft e hu' hp'
  rw [plan_step h]
  obtain ⟨u, hu⟩ := exists_before h hu'
  rcases own_or_other h hu hu' with ⟨a, next, -, hr, rfl, -⟩ | ⟨-, hphase, -⟩
  · exact hr.visits_planned (fun left draft e => hs k u left draft e hu) hp'
  · rw [hphase] at hp'
    exact hs k u left draft e hu hp'

/-- A step that is no step of a feed leaves what is in hand alone. -/
theorem Mirrors.of_other {d : Desk} {holder : Option Nat} (hm : Mirrors s d holder)
    (h : s.step move = some (s', effects)) (hmove : ∀ k a, move ≠ .feed k a) :
    ∃ d', Mirrors s' d' holder ∧ d'.job = d.job := by
  have hphases := phases_step h hmove
  cases move with
  | feed k a => exact absurd rfl (hmove k a)
  | partition k j a =>
    obtain ⟨t, p, next, releases, -, -, -, rfl, -⟩ := step_partition h
    exact ⟨d, hm.of_phases rfl rfl List.length_set hphases, rfl⟩
  | supervise =>
    have hlocked := (supervision_of_supervise h).locked
    exact ⟨d, hm.of_phases (supervise_ledger h) hlocked (length_feeds_step h) hphases, rfl⟩
  | reset key =>
    cases h
    exact ⟨⟨_, d.job⟩, ⟨rfl, hm.locked, hm.idle, hm.job, hm.held⟩, rfl⟩
  | cancel | record _ =>
    cases h
    exact ⟨d, ⟨hm.ledger, hm.locked, hm.idle, hm.job, hm.held⟩, rfl⟩

theorem Stocks.step_of_other (hst : Stocks id s stock) (h : s.step move = some (s', effects))
    (hmove : ∀ k a, move ≠ .feed k a) (hreset : move ≠ .reset (.stream id)) : Stocks id s' stock := by
  obtain ⟨d, holder, hm, hhand⟩ := hst.hand
  obtain ⟨d', hm', hjob⟩ := hm.of_other h hmove
  refine ⟨?_, d', holder, hm', by rw [hjob]; exact hhand⟩
  rw [step_ledger h]
  cases move with
  | feed k a => exact absurd rfl (hmove k a)
  | reset key =>
    have hkey : (Ledger.Op.reset key).key ≠ .stream id := fun hkey => hreset (congrArg Move.reset hkey)
    rw [op?, Option.elim_some, Ledger.find?_apply, if_neg hkey]
    exact hst.slot
  | _ => exact hst.slot

/-- A step of a feed applies a checkpoint to the slot of the stream only if it is the feed of the stream. -/
theorem applied?_feed (hst : Stocks stream.id s stock) (ha : Attended feeds s)
    (hi : feeds[i]? = some (.stream stream)) {k : Nat} {a : Act} {u : FeedTask}
    (hu : s.feeds[k]? = some u) :
    Step.applied? i ⟨s, .feed k a, effects, s'⟩ =
      if s.shared.ledger.scope? u.feed = some (.stream stream.id) then u.applied? a else none := by
  by_cases hk : k = i
  · subst hk
    have hfeed := ha.orderly.feed_eq k u hu
    rw [hi] at hfeed
    have hscope : s.shared.ledger.scope? u.feed = some (.stream stream.id) := by
      rw [← Option.some.inj hfeed, Ledger.scope?, Ledger.streamScope?, hst.slot]
      rfl
    simp only [Step.applied?, if_true, hu, Option.bind_some, hscope]
  · simp only [Step.applied?, if_neg hk, if_neg (scope?_ne ha.orderly ha.keys hi hk hu)]

/-- Every step of a read is a deed with the stock of a stream outside the global feed. -/
theorem Stocks.step (hst : Stocks stream.id s stock) (ha : Attended feeds s)
    (hi : feeds[i]? = some (.stream stream)) (hplanned : Planned s)
    (halone : s.shared.ledger.isMember stream.id = false) (h : s.step move = some (s', effects))
    (hreset : move ≠ .reset (.stream stream.id)) :
    ∃ stock', Stocks stream.id s' stock' ∧
      Deed stream.id stock (Step.applied? i ⟨s, move, effects, s'⟩) (only stream.id (states effects))
        stock' := by
  by_cases hmover : ∃ k a, move = .feed k a
  · obtain ⟨k, a, rfl⟩ := hmover
    obtain ⟨u, next, hu, hr, rfl, rfl⟩ := step_feed h
    rw [applied?_feed hst ha hi hu]
    obtain ⟨slot', hslot', hdeed⟩ := hr.deed hst.slot fun visit rest draft e hp hkey =>
      have hmem := hplanned k u _ draft e hu hp visit List.mem_cons_self (by rw [hkey]; rfl)
      Ledger.eq_alone_of_mem_plan hmem hkey halone
    obtain ⟨d, holder, hm, hhand⟩ := hst.hand
    rcases hr.apart_or_hands with hapart | hhands
    · rw [FeedTask.Phase.messages_of_job? hapart.before, FeedTask.Phase.messages_of_job? hapart.after,
        hapart.states_eq] at hdeed
      rw [hapart.states_eq]
      exact ⟨⟨slot', stock.hand⟩, ⟨hslot', _, holder, hm.apart hu hapart rfl, hhand⟩,
        hdeed.frame stock.hand⟩
    · -- the feed has the lock, so what is in hand is what it has in hand
      obtain ⟨-, -, -, -, hnext⟩ := hm.hands hu hhands
      obtain ⟨hjob, -, -⟩ := hm.holds hu hhands.free
      rw [hjob, FeedTask.Phase.messages_job?] at hhand
      rw [← hhand] at hdeed
      refine ⟨⟨slot', only stream.id next.task.phase.messages⟩, ⟨hslot', _, _, hnext, ?_⟩, hdeed⟩
      rw [FeedTask.Phase.messages_job?]
  · have hmove : ∀ k a, move ≠ .feed k a := fun k a hm => hmover ⟨k, a, hm⟩
    have happlied : Step.applied? i ⟨s, move, effects, s'⟩ = none := by
      cases move with
      | feed k a => exact absurd rfl (hmove k a)
      | _ => rfl
    rw [happlied, states_of_other h hmove]
    exact ⟨stock, hst.step_of_other h hmove hreset, .rests⟩

/-- When the feed of a stream is not in a round, all there is of the stream is written. -/
theorem Narrated.empty {past : List Step} (hn : Narrated feeds i stream past s)
    (hst : Stocks stream.id s stock) {t : FeedTask} (ht : s.feeds[i]? = some t)
    (hround : t.phase.inRound = false) : stock.slot.pending = false ∧ stock.hand = [] := by
  constructor
  · by_contra hp
    have howes := hn.timely.owed t ht ⟨_, hst.slot, Bool.not_eq_false _ ▸ hp⟩
    rw [howes.inRound] at hround
    cases hround
  · obtain ⟨d, holder, hm, hhand⟩ := hst.hand
    rw [hhand, only, List.filter_eq_nil_iff]
    intro m hmem hof
    rcases holder with _ | k
    · rw [hm.idle rfl] at hmem
      cases hmem
    · have hu := List.getElem?_eq_getElem (hm.held k rfl)
      have hjob := hm.job k _ hu
      rw [if_pos rfl] at hjob
      have hheld := hn.timely.held k _ t hu ht m
        (by rw [← FeedTask.Phase.messages_job?, hjob]; exact hmem) (of_decide_eq_true hof)
      rw [hheld] at hround
      cases hround

/-- A feed stays in its round, or goes on to the next one, in which it has not begun to read. -/
theorem round_step (h : s.step move = some (s', effects)) {t t' : FeedTask} (ht : s.feeds[i]? = some t)
    (ht' : s'.feeds[i]? = some t') :
    t'.round = t.round ∨ (t'.round = t.round + 1 ∧ t'.phase.inRound = false) := by
  rcases own_or_other h ht ht' with ⟨a, next, -, hr, rfl, -⟩ | ⟨-, -, hround⟩
  · rcases hr.round with ⟨hsame, -⟩ | ⟨hnext, hphase, -⟩
    · exact Or.inl hsame
    · exact Or.inr ⟨hnext, by rw [hphase]; rfl⟩
  · exact Or.inl hround

end

/-! ### The account of a round -/

/-- Whether something is pending for a stream. -/
def hasPending (s : System) (id : StreamId) : Bool :=
  (s.shared.ledger.slots.find? (.stream id)).any (·.pending)

/-- Whether a step takes what is pending for a stream. -/
def Step.takes (id : StreamId) (st : Step) : Bool := st.before.hasPending id && !st.after.hasPending id

/-- Whether the feed of an index itself takes with a step what is pending for a stream. -/
def Step.takesItself (i : Nat) (id : StreamId) (st : Step) : Bool := st.byFeed i && st.takes id

/-- The steps that are made, by whomever, while the feed of an index is in a round. -/
def during (i n : Nat) (steps : List Step) : List Step :=
  steps.filter fun st => (st.before.feeds[i]?).any (·.round == n)

/-- The checkpoints that the feed of an index applies in some steps. -/
def checkpoints (i : Nat) (steps : List Step) : List Checkpoint := steps.filterMap (Step.applied? i)

/-- The states of a stream by itself that are written in some steps. -/
def written (id : StreamId) (steps : List Step) : List StateMessage :=
  only id (states (steps.flatMap (·.effects)))

/-- The account of the stream of a feed for some steps. -/
def Account (i : Nat) (id : StreamId) (steps : List Step) (stock : Stock) : Prop :=
  Divided id (checkpoints i steps) (written id steps) (steps.countP (Step.takes id)) stock

/-- After some steps of a read the accounts of a stream are in order: that of the round in which its feed is,
and those of all rounds before. In a round the feed takes at most once what is pending, and then it has read
its partitions. -/
structure Booked (i : Nat) (id : StreamId) (past : List Step) (s : System) : Prop where
  planned : Planned s
  alone : s.shared.ledger.isMember id = false
  account : ∃ stock, Stocks id s stock ∧
    ∀ t, s.feeds[i]? = some t → Account i id (during i t.round past) stock
  earlier : ∀ t, s.feeds[i]? = some t → ∀ n < t.round,
    Instalments id (checkpoints i (during i n past)) (written id (during i n past))
      ((during i n past).countP (Step.takes id))
  later : ∀ t, s.feeds[i]? = some t → ∀ n, t.round < n → during i n past = []
  once : ∀ n, (during i n past).countP (Step.takesItself i id) ≤ 1
  read : ∀ t, s.feeds[i]? = some t → (during i t.round past).countP (Step.takesItself i id) ≠ 0 →
    t.phase.hasRead = true ∧ ¬ s.shared.ledger.Pending (.stream id)

section
variable {i : Nat} {id : StreamId} {past steps : List Step} {st : Step} {s : System} {t : FeedTask}

theorem hasPending_iff : s.hasPending id = true ↔ s.shared.ledger.Pending (.stream id) := by
  rw [hasPending, Option.any_eq_true]
  rfl

theorem Step.takes_iff : st.takes id = true ↔
    st.before.shared.ledger.Pending (.stream id) ∧ ¬ st.after.shared.ledger.Pending (.stream id) := by
  rw [Step.takes, Bool.and_eq_true, Bool.not_eq_true', ← Bool.not_eq_true, hasPending_iff,
    hasPending_iff]

theorem Stocks.hasPending_eq {stock : Stock} (hst : Stocks id s stock) :
    s.hasPending id = stock.slot.pending := by
  rw [hasPending, hst.slot]
  rfl

theorem during_snoc_self (ht : st.before.feeds[i]? = some t) :
    during i t.round (past ++ [st]) = during i t.round past ++ [st] := by
  simp [during, ht]

theorem during_snoc_of_ne (ht : st.before.feeds[i]? = some t) {n : Nat} (hn : t.round ≠ n) :
    during i n (past ++ [st]) = during i n past := by
  simp [during, ht, hn]

theorem Account.snoc {stock stock' : Stock} (h : Account i id steps stock)
    (hst : Stocks id st.before stock) (hst' : Stocks id st.after stock')
    (hdeed : Deed id stock (st.applied? i) (only id (states st.effects)) stock') :
    Account i id (steps ++ [st]) stock' := by
  have hloses : stock.loses stock' = st.takes id := by
    rw [Stock.loses, Step.takes, hst.hasPending_eq, hst'.hasPending_eq]
  have hnext := Divided.deed h hdeed
  rw [hloses] at hnext
  have hcheckpoints : checkpoints i (steps ++ [st]) = checkpoints i steps ++ (st.applied? i).toList := by
    rw [checkpoints, List.filterMap_append]
    rcases hc : st.applied? i with _ | c <;> simp [checkpoints, hc]
  have hwritten : written id (steps ++ [st]) = written id steps ++ only id (states st.effects) := by
    rw [written, List.flatMap_append, List.flatMap_singleton, states_append, StateMessage.only_append]
    rfl
  have htakes : (steps ++ [st]).countP (Step.takes id) =
      steps.countP (Step.takes id) + (st.takes id).toNat := by
    rw [List.countP_append, List.countP_singleton]
    cases st.takes id <;> rfl
  rw [Account, hcheckpoints, hwritten, htakes]
  exact hnext

end

section
variable {feeds : List Feed} {i : Nat} {stream : Stream} {past : List Step} {s s' : System} {move : Move}
  {effects : List Effect}

/-- The account of the round in which the feed is before a step, with that step. -/
theorem Booked.account_snoc (hb : Booked i stream.id past s) (ha : Attended feeds s)
    (hi : feeds[i]? = some (.stream stream)) (h : s.step move = some (s', effects))
    (hreset : move ≠ .reset (.stream stream.id)) :
    ∃ stock, Stocks stream.id s' stock ∧ ∀ t, s.feeds[i]? = some t →
      Account i stream.id (during i t.round (past ++ [⟨s, move, effects, s'⟩])) stock := by
  obtain ⟨stock, hst, haccount⟩ := hb.account
  obtain ⟨stock', hst', hdeed⟩ := hst.step ha hi hb.planned hb.alone h hreset
  refine ⟨stock', hst', fun t ht => ?_⟩
  rw [during_snoc_self ht]
  exact (haccount t ht).snoc hst hst' hdeed

/-- A feed takes at most once in a round what is pending, since it makes nothing pending after it. -/
theorem Booked.once_step (hb : Booked i stream.id past s) {t : FeedTask} (ht : s.feeds[i]? = some t)
    (n : Nat) :
    (during i n (past ++ [⟨s, move, effects, s'⟩])).countP (Step.takesItself i stream.id) ≤ 1 := by
  by_cases hround : t.round = n
  case neg =>
    rw [during_snoc_of_ne ht hround]
    exact hb.once n
  subst hround
  rw [during_snoc_self ht, List.countP_append, List.countP_singleton]
  split
  · rename_i htakes
    rw [Step.takesItself, Bool.and_eq_true, Step.takes_iff] at htakes
    have hnone : (during i t.round past).countP (Step.takesItself i stream.id) = 0 := by
      by_contra hsome
      exact (hb.read t ht hsome).2 htakes.2.1
    rw [hnone]
  · exact hb.once t.round

theorem Booked.read_step (hb : Booked i stream.id past s) (ha : Attended feeds s)
    (hi : feeds[i]? = some (.stream stream)) (h : s.step move = some (s', effects))
    (hreset : move ≠ .reset (.stream stream.id)) {t t' : FeedTask} (ht : s.feeds[i]? = some t)
    (ht' : s'.feeds[i]? = some t') (hround : t'.round = t.round)
    (hsome : (during i t'.round (past ++ [⟨s, move, effects, s'⟩])).countP
      (Step.takesItself i stream.id) ≠ 0) :
    t'.phase.hasRead = true ∧ ¬ s'.shared.ledger.Pending (.stream stream.id) := by
  rw [hround, during_snoc_self ht, List.countP_append, List.countP_singleton] at hsome
  rcases own_or_other h ht ht' with ⟨a, next, -, hr, rfl, hshared⟩ | ⟨hne, hphase, -⟩
  · rw [hshared]
    split at hsome
    · rename_i htakes
      rw [Step.takesItself, Bool.and_eq_true, Step.takes_iff] at htakes
      obtain ⟨-, hbefore, hafter⟩ := htakes
      change ¬ s'.shared.ledger.Pending _ at hafter
      rw [hshared] at hafter
      exact ⟨hr.hasRead_of_takes hbefore hafter, hafter⟩
    · obtain ⟨hread, hidle⟩ := hb.read t ht hsome
      obtain ⟨hread', hpending⟩ := hr.hasRead hread hround
      exact ⟨hread', fun hp => hidle (hpending hp)⟩
  · have hother : Step.takesItself i stream.id ⟨s, move, effects, s'⟩ = false := by
      have hby : Step.byFeed i ⟨s, move, effects, s'⟩ = false := by
        cases move with
        | feed k a => exact beq_false_of_ne fun hk => hne a (by rw [hk])
        | _ => rfl
      rw [Step.takesItself, hby]
      rfl
    rw [hother] at hsome
    obtain ⟨hread, hidle⟩ := hb.read t ht hsome
    refine ⟨?_, fun hp => hidle (pending_of_other h ha hi hne hreset hp)⟩
    rw [hphase]
    exact hread

/-- Every step keeps the accounts in order. -/
theorem Booked.step (hb : Booked i stream.id past s) (hn : Narrated feeds i stream past s)
    (hi : feeds[i]? = some (.stream stream)) (h : s.step move = some (s', effects))
    (hreset : move ≠ .reset (.stream stream.id)) :
    Booked i stream.id (past ++ [⟨s, move, effects, s'⟩]) s' := by
  obtain ⟨stock, hst, haccount⟩ := hb.account_snoc hn.attended hi h hreset
  have hn' := hn.step hi (fun hm => absurd hm hreset) h
  -- when the feed goes on to the next round, the account of the last one can be closed
  have hclose : ∀ t t', s.feeds[i]? = some t → s'.feeds[i]? = some t' → t'.phase.inRound = false →
      Instalments stream.id (checkpoints i (during i t.round (past ++ [⟨s, move, effects, s'⟩])))
        (written stream.id (during i t.round (past ++ [⟨s, move, effects, s'⟩])))
        ((during i t.round (past ++ [⟨s, move, effects, s'⟩])).countP (Step.takes stream.id)) ∧
      Account i stream.id [] stock := by
    intro t t' ht ht' hround
    obtain ⟨hidle, hhand⟩ := hn'.empty hst ht' hround
    exact (haccount t ht).close hidle hhand
  constructor
  case planned => exact hb.planned.step h
  case alone => exact (isMember_step h).trans hb.alone
  case account =>
    refine ⟨stock, hst, fun t' ht' => ?_⟩
    obtain ⟨t, ht⟩ := exists_before h ht'
    rcases round_step h ht ht' with hsame | ⟨hnext, hround⟩
    · rw [hsame]
      exact haccount t ht
    · rw [during_snoc_of_ne ht (by omega), hb.later t ht _ (by omega)]
      exact (hclose t t' ht ht' hround).2
  case earlier =>
    intro t' ht' n hlt
    obtain ⟨t, ht⟩ := exists_before h ht'
    by_cases hcurrent : t.round = n
    · subst hcurrent
      rcases round_step h ht ht' with hsame | ⟨-, hround⟩
      · omega
      · exact (hclose t t' ht ht' hround).1
    · rw [during_snoc_of_ne ht hcurrent]
      refine hb.earlier t ht n ?_
      rcases round_step h ht ht' with hsame | ⟨hnext, -⟩ <;> omega
  case later =>
    intro t' ht' n hlt
    obtain ⟨t, ht⟩ := exists_before h ht'
    have hle : t.round ≤ t'.round := by
      rcases round_step h ht ht' with hsame | ⟨hnext, -⟩ <;> omega
    rw [during_snoc_of_ne ht (by omega)]
    exact hb.later t ht n (by omega)
  case once =>
    obtain ⟨t, ht, -⟩ := hn.exists_task hi
    exact hb.once_step ht
  case read =>
    intro t' ht' hsome
    obtain ⟨t, ht⟩ := exists_before h ht'
    rcases round_step h ht ht' with hsame | ⟨hnext, -⟩
    · exact hb.read_step hn.attended hi h hreset ht ht' hsame hsome
    · rw [during_snoc_of_ne ht (by omega), hb.later t ht _ (by omega)] at hsome
      exact absurd rfl hsome

end

/-! ### The statement -/

/-- A ledger that is handed to a read has a slot for every stream, and none counts records that nobody is to
hear of. -/
theorem Handed.proper {id : StreamId} {l : Ledger} (hl : Handed id l) : l.Proper := by
  obtain ⟨global, streams, ops, rfl⟩ := hl.used
  exact List.foldlRecOn (motive := Ledger.Proper) ops Ledger.apply (Ledger.proper_make global streams)
    fun _ hl op _ => hl.apply op

theorem booked_start (settings : Settings) (factories : Nat) {l : Ledger} (i : Nat) {stream : Stream}
    (hl : Handed stream.id l) (hlisted : stream ∈ l.streams) (halone : l.isMember stream.id = false) :
    Booked i stream.id [] (start settings factories l) where
  planned := planned_start settings factories l
  alone := halone
  account := by
    obtain ⟨slot, hslot⟩ := Option.isSome_iff_exists.mp (hl.proper.tracked stream hlisted)
    have hidle : slot.pending = false := by
      by_contra hp
      exact hl.idle ⟨slot, hslot, Bool.not_eq_false _ ▸ hp⟩
    refine ⟨⟨slot, []⟩, ⟨hslot, _, _, mirrors_start settings factories l, rfl⟩, fun t _ => ?_⟩
    exact ⟨[], [], nofun, rfl, rfl, rfl, hidle, nofun, hl.proper.spent _ slot hslot hidle⟩
  earlier := fun _ _ _ _ => ⟨[], nofun, rfl, rfl, rfl⟩
  later := fun _ _ _ _ => rfl
  once := fun _ => Nat.zero_le 1
  read := fun _ _ hsome => absurd rfl hsome

theorem booked_run (settings : Settings) (factories : Nat) {l : Ledger} {i : Nat} {stream : Stream}
    (hl : Handed stream.id l) (hlisted : stream ∈ l.streams) (halone : l.isMember stream.id = false)
    (hi : l.feeds[i]? = some (.stream stream)) {moves : List Move} {s' : System} {effects : List Effect}
    (hrun : (start settings factories l).run moves = some (s', effects))
    (hreset : Move.reset (.stream stream.id) ∉ moves) :
    Narrated l.feeds i stream ((start settings factories l).trace moves) s' ∧
      Booked i stream.id ((start settings factories l).trace moves) s' := by
  refine run_induction (P := fun past s => Narrated l.feeds i stream past s ∧ Booked i stream.id past s)
    hrun ?_ fun past st hmem hst hpast => ?_
  · exact ⟨narrated_start settings factories hl.nodup_keys hlisted hl.idle,
      booked_start settings factories i hl hlisted halone⟩
  · have hmove : st.move ≠ .reset (.stream stream.id) :=
      fun hm => hreset (hm ▸ move_mem_of_mem_trace hmem)
    exact ⟨hpast.1.step hi (fun hm => absurd hm hmove) hst, hpast.2.step hpast.1 hi hst hmove⟩

/-- **A round is reported in instalments.** Let nobody reset a stream outside the global feed, and let a round
of its feed be over. Then the states of the stream that were written in the round report all checkpoints that
were applied in it, in order and each once: there is one state for each time that somebody took what was
pending for the stream, with the state of the last checkpoint since the time before and the records of all
checkpoints since then. When only the feed itself did so, there is one state for the whole round if a
checkpoint was applied in it, and otherwise none. -/
theorem round_reported_in_instalments (settings : Settings) (factories : Nat) {l : Ledger} {stream : Stream}
    (hl : Handed stream.id l) (hlisted : stream ∈ l.streams) (halone : l.isMember stream.id = false)
    {moves : List Move} {s' : System} {effects : List Effect}
    (hrun : (start settings factories l).run moves = some (s', effects))
    (hreset : Move.reset (.stream stream.id) ∉ moves) {i : Nat} {t : FeedTask}
    (ht : s'.feeds[i]? = some t) (hfeed : t.feed = .stream stream) {n : Nat}
    (hover : n < t.round ∨ t.phase.inRound = false) :
    let steps := during i n ((start settings factories l).trace moves)
    Instalments stream.id (checkpoints i steps) (written stream.id steps)
        (steps.countP (Step.takes stream.id)) ∧
      ((∀ st ∈ steps, st.takes stream.id = true → st.byFeed i = true) →
        written stream.id steps =
          if (checkpoints i steps).isEmpty then [] else [report stream.id (checkpoints i steps)]) := by
  intro steps
  have hi : l.feeds[i]? = some (.stream stream) := by
    obtain ⟨ha, -⟩ := (attended_start settings factories hl.nodup_keys).run_heralded
      (heralded_start settings factories l) hrun
    rw [ha.orderly.feed_eq i t ht, hfeed]
  obtain ⟨hn, hb⟩ := booked_run settings factories hl hlisted halone hi hrun hreset
  have hinstalments : Instalments stream.id (checkpoints i steps) (written stream.id steps)
      (steps.countP (Step.takes stream.id)) := by
    rcases Nat.lt_trichotomy n t.round with hlt | rfl | hgt
    · exact hb.earlier t ht n hlt
    · obtain ⟨stock, hst, haccount⟩ := hb.account
      obtain ⟨hidle, hhand⟩ := hn.empty hst ht (hover.resolve_left (Nat.lt_irrefl _))
      exact ((haccount t ht).close hidle hhand).1
    · have hnone : steps = [] := hb.later t ht n hgt
      rw [hnone]
      exact ⟨[], nofun, rfl, rfl, rfl⟩
  refine ⟨hinstalments, fun hitself => hinstalments.eq_report ?_⟩
  calc steps.countP (Step.takes stream.id)
      = steps.countP (Step.takesItself i stream.id) := by
        refine List.countP_congr fun st hmem => ?_
        rw [Step.takesItself, Bool.and_eq_true]
        exact ⟨fun htakes => ⟨hitself st hmem htakes, htakes⟩, fun htakes => htakes.2⟩
    _ ≤ 1 := hb.once n

/-- The reader of a partition comes to its checkpoint. -/
def readsOn (i j : Nat) (c : Checkpoint) : List Move :=
  [ .partition i j .go, .partition i j (.probe .ready), .partition i j .go, .partition i j .go
  , .partition i j .go, .partition i j (.ran .done), .partition i j .go, .partition i j .go
  , .partition i j (.saved (.checkpoint c)), .partition i j .go ]

/-- The first feed has applied one of two checkpoints when the second one reads a partition and hands out. -/
def handsOutMidRound : List Move :=
  .supervise :: comesToRead 0 [false, false] ++ readsOn 0 0 ⟨.bool true, 2⟩ ++
  [.feed 0 (.join 0), .feed 0 .go] ++
  comesToRead 1 [false] ++ readsOn 1 0 ⟨.null, 5⟩ ++ .feed 1 (.join 0) :: List.replicate 9 (.feed 1 .go)

/-- The first feed goes on with the other checkpoint to the end of its round. -/
def endsRound : List Move :=
  .partition 0 1 .go :: readsOn 0 1 ⟨.bool false, 3⟩ ++
  .feed 0 (.join 1) :: List.replicate 8 (.feed 0 .go)

/-- The round of the first feed applies two checkpoints, and two states of its stream are written for it, with
the records of one checkpoint each. -/
theorem round_yields_two_states :
    ∃ s' effects t,
      (start {} 1 (.make none twoStreams)).run (handsOutMidRound ++ endsRound) = some (s', effects) ∧
      s'.feeds[0]? = some t ∧ t.round = 2 ∧
      checkpoints 0
          (during 0 1 ((start {} 1 (.make none twoStreams)).trace (handsOutMidRound ++ endsRound))) =
        [⟨.bool true, 2⟩, ⟨.bool false, 3⟩] ∧
      written ⟨"users", none⟩
          (during 0 1 ((start {} 1 (.make none twoStreams)).trace (handsOutMidRound ++ endsRound))) =
        [.stream ⟨"users", none⟩ (.bool true) 2, .stream ⟨"users", none⟩ (.bool false) 3] := by
  have hbetween : (start {} 1 (.make none twoStreams)).run handsOutMidRound = some (_, _) := rfl
  obtain ⟨hrun, -⟩ := run_append hbetween (rfl : run _ endsRound = some (_, _))
  exact ⟨_, _, _, hrun, rfl, rfl, rfl, rfl⟩

/-- The round of the first feed is reported in two instalments. That of the second one, which nobody else
took, is reported in one. -/
theorem round_reported_in_instalments_users_orders :
    ∃ s' effects,
      (start {} 1 (.make none twoStreams)).run (handsOutMidRound ++ endsRound) = some (s', effects) ∧
      Instalments ⟨"users", none⟩
        (checkpoints 0
          (during 0 1 ((start {} 1 (.make none twoStreams)).trace (handsOutMidRound ++ endsRound))))
        (written ⟨"users", none⟩
          (during 0 1 ((start {} 1 (.make none twoStreams)).trace (handsOutMidRound ++ endsRound)))) 2 ∧
      written ⟨"orders", none⟩
          (during 1 1 ((start {} 1 (.make none twoStreams)).trace (handsOutMidRound ++ endsRound))) =
        [report ⟨"orders", none⟩ [⟨.null, 5⟩]] := by
  have hbetween : (start {} 1 (.make none twoStreams)).run handsOutMidRound = some (_, _) := rfl
  obtain ⟨hrun, -⟩ := run_append hbetween (rfl : run _ endsRound = some (_, _))
  have hreset : ∀ key, Move.reset key ∉ handsOutMidRound ++ endsRound := by
    simp [handsOutMidRound, endsRound, comesToRead, readsOn]
  have husers : { id := ⟨"users", none⟩ } ∈ (Ledger.make none twoStreams).streams := List.mem_cons_self
  have horders : { id := ⟨"orders", none⟩ } ∈ (Ledger.make none twoStreams).streams :=
    List.mem_cons_of_mem _ List.mem_cons_self
  obtain ⟨hinstalments, -⟩ := round_reported_in_instalments {} 1 (.make none twoStreams) husers rfl hrun
    (hreset _) (i := 0) rfl rfl (n := 1) (Or.inl (Nat.lt_succ_self 1))
  obtain ⟨-, hsingle⟩ := round_reported_in_instalments {} 1 (.make none twoStreams) horders rfl hrun
    (hreset _) (i := 1) rfl rfl (n := 1) (Or.inl (Nat.lt_succ_self 1))
  refine ⟨_, _, hrun, hinstalments, hsingle fun st hmem htakes => ?_⟩
  have hitself : (during 1 1 ((start {} 1 (.make none twoStreams)).trace
      (handsOutMidRound ++ endsRound))).all
        (fun st => !st.takes ⟨"orders", none⟩ || st.byFeed 1) = true := rfl
  have hst := List.all_eq_true.mp hitself st hmem
  rw [htakes] at hst
  exact hst

end System

end Intake.Read
