import Intake.Proofs.Roster
import Intake.Proofs.Status
/-!
# The notices that feeds give

A task tells the board of each of its streams when it begins and when it ends. A task that crashed cannot, and
the supervisor does it in its place. `System.touch?` says which touch of the board a move is, and
`board_eq_trace` that the board and the traces of a run are those of its touches.

Each feed gives notice of its end exactly once for each of its streams, whichever way it ends: `Heralded` says
how far it has come with that, and `Heralded.step` that every step keeps it.
-/

namespace Intake.Read

/-- The trace that an effect writes. -/
def Effect.trace? : Effect → Option Trace
  | .write (.trace t) => some t
  | _ => none

/-- The traces among the effects of steps, in order. -/
def traces (effects : List Effect) : List Trace := effects.filterMap Effect.trace?

theorem traces_append (first later : List Effect) :
    traces (first ++ later) = traces first ++ traces later :=
  List.filterMap_append

theorem Partition.Rule.traces_eq {v : Partition.View} {t : Partition} {a : Act}
    {next : Partition.Next} (h : Partition.Rule v t a next) : traces next.effects = [] := by
  cases h with
  | opens => rcases t.limit v with _ | d <;> rfl
  | _ => rfl

/-! ### Touches -/

namespace FeedTask

/-- The notice that a task is about to give, and the stream it is about. -/
def Phase.notice? : Phase → Option (Notice × StreamId)
  | .starting (id :: _) => some (.starting, id)
  | .completing (id :: _) => some (.complete, id)
  | .stopping n _ (id :: _) => some (n, id)
  | _ => none

/-- The touch of the board that an act of a feed is, if it is one. -/
def touch? (t : FeedTask) : Act → Option Board.Touch
  | .go => t.phase.notice?.map fun e => ⟨t.feed.key, e.1, e.2⟩
  | _ => none

theorem touch?_of_notice? {t : FeedTask} (h : t.phase.notice? = none) (a : Act) :
    t.touch? a = none := by
  cases a <;> simp [touch?, h]

/-- Telling the board is a touch of it, and the traces are those of the touch. -/
theorem tell_eq_run (t : FeedTask) (s : Shared) (n : Notice) (id : StreamId) :
    ((t.tell s n id).1.board, traces (t.tell s n id).2) = s.board.run [⟨t.feed.key, n, id⟩] := by
  rw [Board.run_singleton, tell, traces, List.filterMap_map]
  have hsome : Effect.trace? ∘ (fun trace => Effect.write (.trace trace)) = some := rfl
  rw [hsome, List.filterMap_some]

/-- A step of a feed changes the board by the touch of its act and in no other way. -/
theorem Rule.board {v : View} {t : FeedTask} {s : Shared} {a : Act} {next : Next}
    (h : Rule v t s a next) :
    (next.shared.board, traces next.effects) = s.board.run (t.touch? a).toList := by
  cases h with
  | @saysStarting id _ hp =>
    simp only [touch?, hp, Phase.notice?, Option.map_some]
    exact t.tell_eq_run s .starting id
  | @saysComplete id _ hp =>
    simp only [touch?, hp, Phase.notice?, Option.map_some]
    exact t.tell_eq_run s .complete id
  | @saysStopped n _ id _ hp =>
    simp only [touch?, hp, Phase.notice?, Option.map_some]
    exact t.tell_eq_run s n id
  | applies hp =>
    rw [touch?_of_notice? (by rw [hp]; rfl)]
    simp only [gotoWith, applyCheckpoint]
    split <;> rfl
  | @unlocks count next hp =>
    rw [touch?_of_notice? (by rw [hp]; rfl)]
    cases next <;> simp only [afterRound, goto] <;> split <;> rfl
  | _ hp =>
    rw [touch?_of_notice? (by rw [hp]; rfl)]
    rfl

end FeedTask

namespace System

/-- The touch of the board that a move is, if it is one. -/
def touch? (s : System) : Move → Option Board.Touch
  | .feed i a => (s.feeds[i]?).bind (·.touch? a)
  | .supervise =>
    match s.watch with
    | .burying _ _ i _ (id :: _) => (s.feeds[i]?).map fun t => ⟨t.feed.key, .failure, id⟩
    | _ => none
  | _ => none

/-- The touch that a step is. -/
def Step.touch? (st : Step) : Option Board.Touch := st.before.touch? st.move

/-- The touches of the board among steps, in order. -/
def touches (steps : List Step) : List Board.Touch := steps.filterMap (·.touch?)

theorem touches_snoc (steps : List Step) (st : Step) :
    touches (steps ++ [st]) = touches steps ++ st.touch?.toList := by
  rw [touches, List.filterMap_append]
  congr 1

/-- A step changes the board by the touch of its move and in no other way. -/
theorem step_board {s s' : System} {move : Move} {effects : List Effect}
    (h : s.step move = some (s', effects)) :
    (s'.shared.board, traces effects) = s.shared.board.run (s.touch? move).toList := by
  cases move with
  | feed i a =>
    obtain ⟨t, next, ht, hr, rfl, rfl⟩ := step_feed h
    simp only [touch?, ht, Option.bind_some]
    exact hr.board
  | partition i j a =>
    obtain ⟨t, p, next, releases, -, -, hr, rfl, rfl⟩ := step_partition h
    rw [hr.traces_eq]
    rfl
  | supervise =>
    cases supervision_of_supervise h with
    | @buries _ _ _ _ id _ t hw ht =>
      simp only [touch?, hw, ht, Option.map_some]
      exact t.tell_eq_run s.shared .failure id
    | _ hw =>
      simp only [touch?, hw]
      rfl
  | cancel | reset _ | record _ => cases h; rfl

/-- The board and the traces of a run are those of its touches. -/
theorem board_eq_trace {s s' : System} {moves : List Move} {effects : List Effect}
    (h : s.run moves = some (s', effects)) :
    (s'.shared.board, traces effects) = s.shared.board.run (touches (s.trace moves)) := by
  rw [effects_eq_trace h]
  refine run_induction (P := fun past s₁ => (s₁.shared.board, traces (past.flatMap (·.effects))) =
    s.shared.board.run (touches past)) h rfl fun past st _ hst hpast => ?_
  have hstep := step_board hst
  rw [touches_snoc, Board.run_append, ← hpast, List.flatMap_append, List.flatMap_singleton,
    traces_append, Step.touch?, ← hstep]

end System

/-! ### What a feed has said of its end -/

end Intake.Read

namespace Intake.Board

/-- The touches by which a feed says that it has ended, in order. -/
def stopsOf (key : FeedKey) (h : List Touch) : List Touch :=
  h.filter fun t => t.feed = key ∧ t.notice ≠ .starting

/-- What a feed with some streams has said of its end: nothing, or for all streams but those left the one
notice that tells how it ended. -/
def Told (key : FeedKey) (ids : List StreamId) (h : List Touch) : Option (Notice × List StreamId) → Prop
  | none => stopsOf key h = []
  | some (n, left) => ∃ said, ids = said ++ left ∧ stopsOf key h = said.map (⟨key, n, ·⟩)

section
variable {key : FeedKey} {ids : List StreamId} {h : List Touch} {t : Touch}

theorem stopsOf_snoc : stopsOf key (h ++ [t]) =
    stopsOf key h ++ if t.feed = key ∧ t.notice ≠ .starting then [t] else [] := by
  rw [stopsOf, List.filter_append, ← stopsOf]
  congr 1
  by_cases ht : t.feed = key ∧ t.notice ≠ .starting
  · rw [if_pos ht, List.filter_cons_of_pos (by simpa using ht), List.filter_nil]
  · rw [if_neg ht, List.filter_cons_of_neg (by simpa using ht), List.filter_nil]

/-- What others say, and what a feed says of its beginning, is nothing about its end. -/
theorem Told.other {o : Option (Notice × List StreamId)} (ho : Told key ids h o)
    (ht : ¬ (t.feed = key ∧ t.notice ≠ .starting)) : Told key ids (h ++ [t]) o := by
  unfold Told at ho ⊢
  rw [stopsOf_snoc, if_neg ht, List.append_nil]
  exact ho

/-- What others say does not matter, whether they say anything or not. -/
theorem Told.others {o : Option (Notice × List StreamId)} {x? : Option Touch} (ho : Told key ids h o)
    (hx : ∀ x, x? = some x → x.feed ≠ key) : Told key ids (h ++ x?.toList) o := by
  rcases x? with _ | x
  · rw [Option.toList_none, List.append_nil]
    exact ho
  · exact ho.other fun hc => hx x rfl hc.1

/-- A feed begins to say how it ended. -/
theorem Told.begin (ho : Told key ids h none) (n : Notice) : Told key ids h (some (n, ids)) :=
  ⟨[], rfl, ho⟩

/-- A feed says of one more stream how it ended. -/
theorem Told.say {n : Notice} {id : StreamId} {rest : List StreamId}
    (ho : Told key ids h (some (n, id :: rest))) (hn : n ≠ .starting) :
    Told key ids (h ++ [⟨key, n, id⟩]) (some (n, rest)) := by
  obtain ⟨said, hids, hstops⟩ := ho
  refine ⟨said ++ [id], ?_, ?_⟩
  · rw [hids, List.append_assoc]
    rfl
  · rw [stopsOf_snoc, if_pos ⟨rfl, hn⟩, hstops, List.map_append]
    rfl

end

end Intake.Board

namespace Intake.Read

namespace FeedTask

/-- How a task says that it ended, and the streams of which it has still to say so. -/
def Phase.saying? : Phase → Option (Notice × List StreamId)
  | .completing left => some (.complete, left)
  | .completed => some (.complete, [])
  | .stopping n _ left => some (n, left)
  | .done (.ok ()) => some (.complete, [])
  | .done (.error e) => some (e.notice, [])
  | _ => none

/-- The notice that tells how a task ended. -/
def ending (t : FeedTask) : Notice :=
  match t.fault? with
  | none => .complete
  | some e => e.notice

theorem saying?_of_done {t : FeedTask} {r : Except Fault Unit} (h : t.phase = .done r) :
    t.phase.saying? = some (t.ending, []) := by
  rw [ending, fault?, outcome?, h]
  rcases r with e | _ <;> rfl

theorem ending_of_crashed {t : FeedTask} {message : String} (h : t.phase = .crashed message) :
    t.ending = .failure := by
  rw [ending, fault?, outcome?, h]
  rfl

theorem Ends.ne_starting {v : View} {t : FeedTask} {n : Notice} {e : Fault} (h : t.Ends v n e) :
    n ≠ .starting := by
  cases h <;> nofun

/-- Every step of a task says as much as its phase says it has. -/
theorem Rule.told {v : View} {t : FeedTask} {s : Shared} {a : Act} {next : Next}
    (h : Rule v t s a next) (hs : t.Sound v) {past : List Board.Touch}
    (ht : Board.Told t.feed.key t.feed.ids past t.phase.saying?) :
    Board.Told t.feed.key t.feed.ids (past ++ (t.touch? a).toList) next.task.phase.saying? := by
  -- in a phase that gives no notice nothing is said
  have silent : ∀ {p : Phase}, t.phase = p → p.notice? = none →
      Board.Told t.feed.key t.feed.ids (past ++ (t.touch? a).toList) p.saying? := by
    rintro p rfl hp
    rw [touch?_of_notice? hp]
    simpa using ht
  cases h with
  | @saysStarting id _ hp =>
    simp only [touch?, hp, Phase.notice?, Option.map_some]
    rw [hp] at ht
    exact ht.other fun hc => hc.2 rfl
  | @saysComplete id _ hp =>
    simp only [touch?, hp, Phase.notice?, Option.map_some]
    rw [hp] at ht
    exact Board.Told.say ht nofun
  | @saysStopped n e id rest hp =>
    simp only [touch?, hp, Phase.notice?, Option.map_some]
    rw [hp] at ht
    exact Board.Told.say ht (hs.stopping _ _ _ hp).ne_starting
  | hasStopped hp =>
    have hsame := silent hp rfl
    rw [Phase.saying?, (hs.stopping _ _ _ hp).notice_eq] at hsame
    exact hsame
  | @unlocks count next hp =>
    have hnone := silent hp rfl
    cases next with
    | last => exact Board.Told.begin hnone .complete
    | more | failed => exact hnone
  | stopsForCause hp => exact Board.Told.begin (silent hp rfl) .stopped
  | stops hp => exact Board.Told.begin (silent hp rfl) .failure
  | _ hp =>
    have hsame := silent hp rfl
    exact hsame

end FeedTask

namespace System

/-- The streams of a crashed feed of which the supervisor has still to say that they failed. -/
def Watch.burial? (i : Nat) : Watch → Option (List StreamId)
  | .burying _ _ k _ ids => if k = i then some ids else none
  | _ => none

/-- How a feed says that it ended, and the streams of which this is still to be said. A crashed feed says so
through the supervisor, when it comes to it. -/
def saying? (s : System) (i : Nat) (t : FeedTask) : Option (Notice × List StreamId) :=
  match t.phase with
  | .crashed _ =>
    match Watch.burial? i s.watch with
    | some ids => some (.failure, ids)
    | none => if i ∈ s.awaited then none else some (.failure, [])
  | p => p.saying?

/-- Every touch was made for some feed, and each feed has said of its end what it should. -/
structure Heralded (h : List Board.Touch) (s : System) : Prop where
  known : ∀ x ∈ h, ∃ (i : Nat) (t : FeedTask), s.feeds[i]? = some t ∧ t.feed.key = x.feed
  told : ∀ (i : Nat) (t : FeedTask), s.feeds[i]? = some t →
    Board.Told t.feed.key t.feed.ids h (s.saying? i t)

theorem heralded_start (settings : Settings) (factories : Nat) (l : Ledger) :
    Heralded [] (start settings factories l) := by
  refine ⟨nofun, fun i t ht => ?_⟩
  simp only [start, List.getElem?_map] at ht
  obtain ⟨feed, -, rfl⟩ := Option.map_eq_some_iff.mp ht
  rfl

section
variable {s s' : System} {move : Move} {effects : List Effect} {i : Nat} {t : FeedTask}

theorem saying?_of_alive (hc : ∀ message, t.phase ≠ .crashed message) :
    s.saying? i t = t.phase.saying? := by
  unfold saying?
  split
  · rename_i hp
    exact absurd hp (hc _)
  · rfl

theorem saying?_of_crashed {message : String} (hc : t.phase = .crashed message) :
    s.saying? i t =
      match Watch.burial? i s.watch with
      | some ids => some (.failure, ids)
      | none => if i ∈ s.awaited then none else some (.failure, []) := by
  unfold saying?
  rw [hc]

/-- Who gives a touch. -/
theorem exists_of_touch? {x : Board.Touch} (h : s.touch? move = some x) :
    ∃ (k : Nat) (u : FeedTask), s.feeds[k]? = some u ∧ u.feed.key = x.feed ∧
      ((∃ a, move = .feed k a) ∨ ∃ stage left message id rest,
        move = .supervise ∧ s.watch = .burying stage left k message (id :: rest) ∧
          x = ⟨u.feed.key, .failure, id⟩) := by
  cases move with
  | feed k a =>
    obtain ⟨u, hu, hx⟩ := Option.bind_eq_some_iff.mp h
    refine ⟨k, u, hu, ?_, Or.inl ⟨a, rfl⟩⟩
    unfold FeedTask.touch? at hx
    split at hx
    · obtain ⟨e, -, rfl⟩ := Option.map_eq_some_iff.mp hx
      rfl
    · cases hx
  | supervise =>
    unfold touch? at h
    dsimp only at h
    split at h
    · rename_i hw
      obtain ⟨u, hu, rfl⟩ := Option.map_eq_some_iff.mp h
      exact ⟨_, u, hu, rfl, Or.inr ⟨_, _, _, _, _, rfl, hw, rfl⟩⟩
    · cases h
  | partition | cancel | reset | record => cases h

/-- What a feed has still to say of its end depends on its phase and on where the supervisor stands. -/
theorem saying?_congr {t' : FeedTask} (hp : t'.phase = t.phase)
    (hb : Watch.burial? i s'.watch = Watch.burial? i s.watch)
    (ha : i ∈ s'.awaited ↔ i ∈ s.awaited) : s'.saying? i t' = s.saying? i t := by
  unfold saying?
  rw [hp, hb]
  simp only [ha]

end

section
variable {feeds : List Feed} {past : List Board.Touch} {s s' : System} {move : Move}
  {effects : List Effect} {i : Nat} {t t' : FeedTask}

theorem alive_of_not_finished (hf : t.finished = false) (message : String) :
    t.phase ≠ .crashed message := by
  intro hp
  rw [FeedTask.finished, hp] at hf
  cases hf

/-- Whoever the supervisor buries has crashed. -/
theorem Attended.crashed_of_burial (ha : Attended feeds s) (ht : s.feeds[i]? = some t)
    {stage : Stage} {left : List Nat} {message : String} {ids : List StreamId}
    (hw : s.watch = .burying stage left i message ids) : t.phase = .crashed message := by
  obtain ⟨-, u, hu, hcrash, -⟩ := ha.posted.buries _ _ _ _ _ hw
  rw [ht] at hu; cases hu
  exact hcrash

theorem burial?_eq_none (h : ∀ stage left message ids, s.watch ≠ .burying stage left i message ids) :
    Watch.burial? i s.watch = none := by
  unfold Watch.burial?
  split
  · rename_i stage left k message ids hw
    rw [if_neg]
    rintro rfl
    exact h _ _ _ _ hw
  · rfl

/-- A step of a feed says what it should of the end of the feed. -/
theorem Heralded.told_own (hh : Heralded past s) (ha : Attended feeds s) {a : Act}
    (h : s.step (.feed i a) = some (s', effects)) (ht' : s'.feeds[i]? = some t') :
    Board.Told t'.feed.key t'.feed.ids (past ++ (s.touch? (.feed i a)).toList) (s'.saying? i t') := by
  have hwatch := books_step h nofun
  have hawaited := awaited_step h
  obtain ⟨t, next, ht, hr, rfl, -⟩ := step_feed h
  rw [List.getElem?_set_self (List.getElem?_eq_some_iff.mp ht).1] at ht'
  cases ht'
  have halive := alive_of_not_finished hr.not_finished
  have htold := hh.told i t ht
  rw [saying?_of_alive halive] at htold
  have hnext := hr.told (ha.sincere.sound i t ht) htold
  simp only [touch?, ht, Option.bind_some]
  rw [hr.frame.1]
  by_cases hc : ∃ message, next.task.phase = .crashed message
  · -- a task that has just crashed is still to be waited for
    obtain ⟨message, hc⟩ := hc
    obtain ⟨joined, hj⟩ := ha.joined
    have hmem := hj.awaited_of_not_finished ht hr.not_finished
    have hburial : Watch.burial? i s.watch = none :=
      burial?_eq_none fun _ _ _ _ hw => halive _ (ha.crashed_of_burial ht hw)
    rw [saying?_of_crashed hc, hawaited]
    show Board.Told _ _ _ (match Watch.burial? i s.watch with
      | some ids => some (.failure, ids)
      | none => if i ∈ s.awaited then none else some (.failure, []))
    rw [hburial]
    dsimp only
    rw [if_pos hmem]
    rw [hc] at hnext
    exact hnext
  · rw [saying?_of_alive fun message hm => hc ⟨message, hm⟩]
    exact hnext

/-- What the supervisor does says what it should of the end of a crashed feed. -/
theorem Heralded.told_crashed (hh : Heralded past s) (ha : Attended feeds s)
    (h : s.step .supervise = some (s', effects)) (ht : s.feeds[i]? = some t) {message : String}
    (hcrash : t.phase = .crashed message) (hp : t'.phase = t.phase) :
    Board.Told t.feed.key t.feed.ids (past ++ (s.touch? .supervise).toList) (s'.saying? i t') := by
  have htold := hh.told i t ht
  have hawaited := awaited_step h
  obtain ⟨joined, hj⟩ := ha.joined
  -- nothing is said of this feed, and it is where it was
  have still : (∀ x, s.touch? .supervise = some x → x.feed ≠ t.feed.key) →
      Watch.burial? i s'.watch = Watch.burial? i s.watch → (i ∈ s'.awaited ↔ i ∈ s.awaited) →
      Board.Told t.feed.key t.feed.ids (past ++ (s.touch? .supervise).toList) (s'.saying? i t') := by
    intro hx hb hmem
    rw [saying?_congr hp hb hmem]
    exact htold.others hx
  have nobody : s.touch? .supervise = none →
      ∀ x, s.touch? .supervise = some x → x.feed ≠ t.feed.key := by
    intro hnone x hx
    rw [hnone] at hx
    cases hx
  cases supervision_of_supervise h with
  | opens hw | hasStreams hw | hasGlobals hw | passesFinished hw | passesSound hw | blames hw
  | halts hw | closes hw =>
    refine still (nobody (by simp only [touch?, hw])) (by rw [hw]; rfl) ?_
    rw [hawaited, awaited, hw]
    rfl
  | hasChecked hw =>
    refine still (nobody (by simp only [touch?, hw])) (by rw [hw]; rfl) ?_
    rw [hawaited, awaited, hw]
    exact iff_of_eq (congrArg (i ∈ ·) (List.append_nil _))
  | joinsDone hw hu hdone | joinsFailed hw hu hdone =>
    refine still (nobody (by simp only [touch?, hw])) (by rw [hw]; rfl) ?_
    rw [hawaited, awaited, hw]
    refine (List.mem_cons.trans (or_iff_right ?_)).symm
    rintro rfl
    rw [ht] at hu; cases hu
    rw [hcrash] at hdone
    cases hdone
  | @joinsCrashed stage k left u _ hw hu _ =>
    have hnone : s.touch? .supervise = none := by simp only [touch?, hw]
    by_cases hk : k = i
    · -- its turn has come
      subst hk
      rw [ht] at hu; cases hu
      have hmem : k ∈ s.awaited := by
        rw [awaited, hw]
        exact List.mem_cons_self
      have hburial : Watch.burial? k s.watch = none := by rw [hw]; rfl
      rw [saying?_of_crashed hcrash, hburial] at htold
      dsimp only at htold
      rw [if_pos hmem] at htold
      rw [hnone, Option.toList_none, List.append_nil, saying?_of_crashed (hp.trans hcrash)]
      simp only [Watch.burial?, if_true]
      exact htold.begin .failure
    · refine still (nobody hnone) ?_ ?_
      · rw [hw]
        exact if_neg hk
      · rw [hawaited, awaited, hw]
        rfl
  | @buries stage left k _ id rest u hw hu =>
    have hsome : s.touch? .supervise = some ⟨u.feed.key, .failure, id⟩ := by
      simp only [touch?, hw, hu, Option.map_some]
    by_cases hk : k = i
    · subst hk
      rw [ht] at hu; cases hu
      have hburial : Watch.burial? k s.watch = some (id :: rest) := by
        rw [hw]
        exact if_pos rfl
      rw [saying?_of_crashed hcrash, hburial] at htold
      rw [hsome, saying?_of_crashed (hp.trans hcrash)]
      simp only [Watch.burial?, if_true]
      exact Board.Told.say htold (by decide)
    · refine still ?_ ?_ ?_
      · intro x hx hkey
        rw [hsome] at hx; cases hx
        exact hk (ha.orderly.index_eq ha.keys hu ht hkey)
      · rw [hw]
        exact (if_neg hk).trans (if_neg hk).symm
      · rw [hawaited, awaited, hw]
        rfl
  | @hasBuried stage left k _ u hw hu =>
    have hnone : s.touch? .supervise = none := by simp only [touch?, hw]
    by_cases hk : k = i
    · -- it has been waited for, and is not waited for again
      subst hk
      have hburial : Watch.burial? k s.watch = some [] := by
        rw [hw]
        exact if_pos rfl
      have hgone : k ∉ left ++ Stage.later (s.indices .globals) stage := by
        have hnodup := s.nodup_roster
        rw [← hj.roster, awaited, hw] at hnodup
        exact (List.nodup_cons.mp (List.nodup_append.mp hnodup).2.1).1
      rw [saying?_of_crashed hcrash, hburial] at htold
      rw [hnone, Option.toList_none, List.append_nil, saying?_of_crashed (hp.trans hcrash), hawaited]
      simp only [Watch.burial?, Watch.ahead, hgone, if_false]
      exact htold
    · refine still (nobody hnone) ?_ ?_
      · rw [hw]
        exact (if_neg hk).symm
      · rw [hawaited, awaited, hw]
        exact (List.mem_cons.trans (or_iff_right fun hc => hk hc.symm)).symm

/-- What others do says nothing of the end of a feed, unless the supervisor buries it. -/
theorem Attended.touch_ne (ha : Attended feeds s) (ht : s.feeds[i]? = some t)
    (hown : ¬ ∃ a, move = .feed i a)
    (hbury : move = .supervise → ∀ message, t.phase ≠ .crashed message) {x : Board.Touch}
    (hx : s.touch? move = some x) : x.feed ≠ t.feed.key := by
  intro hkey
  obtain ⟨k, u, hu, huk, hwho⟩ := exists_of_touch? hx
  have hki := ha.orderly.index_eq ha.keys hu ht (huk.trans hkey)
  subst hki
  rcases hwho with hfeed | ⟨_, _, _, _, _, hm, hw, -⟩
  · exact hown hfeed
  · exact hbury hm _ (ha.crashed_of_burial ht hw)

/-- Every step keeps what the feeds have said of their ends. -/
theorem Heralded.step (hh : Heralded past s) (ha : Attended feeds s)
    (h : s.step move = some (s', effects)) : Heralded (past ++ (s.touch? move).toList) s' := by
  refine ⟨fun x hx => ?_, fun i t' ht' => ?_⟩
  · obtain ⟨k, u, hu, hkey⟩ : ∃ (k : Nat) (u : FeedTask), s.feeds[k]? = some u ∧ u.feed.key = x.feed := by
      rcases List.mem_append.mp hx with hold | hnew
      · exact hh.known x hold
      · obtain ⟨k, u, hu, hkey, -⟩ := exists_of_touch? (Option.mem_toList.mp hnew)
        exact ⟨k, u, hu, hkey⟩
    obtain ⟨u', hu', hfeed⟩ := exists_after h hu
    exact ⟨k, u', hu', hfeed ▸ hkey⟩
  · by_cases hown : ∃ a, move = .feed i a
    · obtain ⟨a, rfl⟩ := hown
      exact hh.told_own ha h ht'
    · obtain ⟨t, ht⟩ := exists_before h ht'
      have hp := (phase_of_other h (fun a hm => hown ⟨a, hm⟩) ht ht').1
      rw [feed_step h ht ht']
      by_cases hc : ∃ message, t.phase = .crashed message
      · obtain ⟨message, hcrash⟩ := hc
        by_cases hm : move = .supervise
        · subst hm
          exact hh.told_crashed ha h ht hcrash hp
        · have hw := (books_step h hm).1
          have hawaited : s'.awaited = s.awaited := by
            rw [awaited_step h, hw]
            rfl
          have hsame : s'.saying? i t' = s.saying? i t :=
            saying?_congr hp (by rw [hw]) (by rw [hawaited])
          rw [hsame]
          exact (hh.told i t ht).others fun x => ha.touch_ne ht hown fun hs => absurd hs hm
      · have halive : ∀ message, t.phase ≠ .crashed message := fun message hm => hc ⟨message, hm⟩
        have htold := hh.told i t ht
        rw [saying?_of_alive halive] at htold
        rw [saying?_of_alive (hp ▸ halive), hp]
        exact htold.others fun x => ha.touch_ne ht hown fun _ => halive

/-- A feed that is over, and was waited for if it crashed, has said of each of its streams how it ended, and
has said nothing else. -/
theorem Heralded.stops_eq (hh : Heralded past s) (ht : s.feeds[i]? = some t) (hf : t.finished = true)
    (hwaited : (∃ message, t.phase = .crashed message) → i ∉ s.awaited) :
    Board.stopsOf t.feed.key past = t.feed.ids.map (⟨t.feed.key, t.ending, ·⟩) := by
  have hsaying : s.saying? i t = some (t.ending, []) := by
    by_cases hc : ∃ message, t.phase = .crashed message
    · have hnot := hwaited hc
      obtain ⟨message, hcrash⟩ := hc
      have hburial : Watch.burial? i s.watch = none := by
        refine burial?_eq_none fun _ _ _ _ hw => hnot ?_
        rw [awaited, hw]
        exact List.mem_cons_self
      rw [saying?_of_crashed hcrash, hburial, FeedTask.ending_of_crashed hcrash]
      simp only [hnot, if_false]
    · rw [saying?_of_alive fun message hm => hc ⟨message, hm⟩]
      unfold FeedTask.finished at hf
      split at hf
      · exact FeedTask.saying?_of_done ‹_›
      · exact absurd ⟨_, ‹_›⟩ hc
      · cases hf
  have htold := hh.told i t ht
  rw [hsaying] at htold
  obtain ⟨said, hids, hstops⟩ := htold
  rw [hstops, hids, List.append_nil]

/-- The books and the notices of a whole run. -/
theorem Attended.run_heralded {moves : List Move} (ha : Attended feeds s) (hh : Heralded [] s)
    (h : s.run moves = some (s', effects)) :
    Attended feeds s' ∧ Heralded (touches (s.trace moves)) s' := by
  refine run_induction (P := fun past s₁ => Attended feeds s₁ ∧ Heralded (touches past) s₁) h
    ⟨ha, hh⟩ fun past st _ hst hpast => ⟨hpast.1.step hst, ?_⟩
  rw [touches_snoc]
  exact hpast.2.step hpast.1 hst

end

end System

end Intake.Read
