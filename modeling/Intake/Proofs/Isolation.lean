import Intake.Proofs.Progress
/-!
# Stream feeds do not interfere

What a stream feed does in a read of many feeds is what it does when it is read alone and serially. The main
statement is `stream_feed_isolated`: the safety half of it is `Follows.run` and `Follows.matches`, which
compare the log of the feed with its serial reading, and the other half is `Follows.canFinish`, by which
the feed can always be brought to the end of that reading.
-/

namespace Intake.Read.System

section
variable {conduct : Conduct} {i : Nat} {plan : Option Creation} {s s' : System} {rest : List Move}
  {effects : List Effect}

/-- A step that neither the feed of an index nor a partition of it makes. -/
theorem honours_cons_of_ne {move : Move} (hs : s.step move = some (s', effects))
    (hfeed : ∀ a, move ≠ .feed i a) (hpart : ∀ j a, move ≠ .partition i j a)
    (h : Honours conduct i plan (s'.trace rest)) :
    Honours conduct i plan (s.trace (move :: rest)) := by
  rw [trace_cons hs]
  refine ⟨Step.honours_of_ne hfeed hpart, ?_⟩
  rw [planAfter_of_ne hfeed]
  exact h

/-- A step of the feed itself. -/
theorem honours_cons_feed {a : Act} {t : FeedTask} (hs : s.step (.feed i a) = some (s', effects))
    (ht : s.feeds[i]? = some t) (hears : t.Hears conduct plan s.shared.ledger a)
    (h : Honours conduct i (t.planAfter conduct plan s.shared.ledger a) (s'.trace rest)) :
    Honours conduct i plan (s.trace (.feed i a :: rest)) := by
  rw [trace_cons hs]
  refine ⟨Step.honours_of_own ht hears, ?_⟩
  rw [planAfter_of_own ht]
  exact h

/-- A step of a partition of the feed. -/
theorem honours_cons_partition {j : Nat} {a : Act} {t : FeedTask} {p : Partition}
    (hs : s.step (.partition i j a) = some (s', effects)) (ht : s.feeds[i]? = some t)
    (hp : t.parts[j]? = some p)
    (hallows : ∀ c f, plan = some c → c.fates[j]? = some f → f.Allows p.phase a)
    (h : Honours conduct i plan (s'.trace rest)) :
    Honours conduct i plan (s.trace (.partition i j a :: rest)) := by
  rw [trace_cons hs]
  exact ⟨Step.honours_of_partition ht hp hallows, h⟩

end

/-- **Stream feeds do not interfere.** In a read that is not cancelled from outside, of any feeds and on
any schedule, let the connector honour a conduct towards one stream feed, and not reset its slot. Then
the log of this feed is that of its serial reading, as far as the feed has come: it asks the same
factories in the same states, opens the same readers and applies the same checkpoints, and nobody else
applies any to its slot. When a factory is asked, the state of the feed is the last one that was applied,
or the initial one. The feed ends as the serial reading does, and it has ended when the read is over. So
it does the same, and with the same end, as in any read of this feed alone. And if the serial reading has
an end, nothing that has happened so far keeps the feed from it: the read can be continued until the feed
has the whole log of the serial reading and ends as it does. -/
theorem stream_feed_isolated (settings : Settings) (factories : Nat) (conduct : Conduct)
    (global : Option (Global × Option Value)) (streams : List (Stream × Option Value)) {i : Nat}
    {stream : Stream} (hi : (Ledger.make global streams).feeds[i]? = some (.stream stream))
    {moves : List Move} {s' : System} {effects : List Effect}
    (hrun : (start settings factories (Ledger.make global streams)).run moves = some (s', effects))
    (hcancel : Move.cancel ∉ moves) (hreset : Move.reset (.stream stream.id) ∉ moves)
    (hconduct : Honours conduct i none
      ((start settings factories (Ledger.make global streams)).trace moves)) :
    let initial := (Ledger.make global streams).current (.stream stream)
    let read := start settings factories (Ledger.make global streams)
    let notes := log i (.stream stream.id) (read.trace moves)
    let reading := serial conduct factories stream.id.label initial
    let alone := start settings factories (Ledger.make none [(stream, initial)])
    ∃ t, s'.feeds[i]? = some t ∧ Matches reading notes t ∧
      (∀ k, t.phase = .making k →
        s'.shared.ledger.current (.stream stream) = stateAfter initial notes) ∧
      (s'.result?.isSome = true → t.finished = true) ∧
      (∀ moves₀ s₀ effects₀, alone.run moves₀ = some (s₀, effects₀) → Move.cancel ∉ moves₀ →
        Move.reset (.stream stream.id) ∉ moves₀ → Honours conduct 0 none (alone.trace moves₀) →
        ∃ t₀, s₀.feeds[0]? = some t₀ ∧
          let notes₀ := log 0 (.stream stream.id) (alone.trace moves₀)
          (notes <+: notes₀ ∨ notes₀ <+: notes) ∧
          (t.finished = true → t₀.finished = true → notes = notes₀ ∧ t.phase = t₀.phase)) ∧
      (conduct.Timed settings → ∀ n phase, (reading n).2.phase? = some phase →
        ∃ more s₁ later t₁, read.run (moves ++ more) = some (s₁, effects ++ later) ∧
          Move.cancel ∉ more ∧ Move.reset (.stream stream.id) ∉ more ∧
          Honours conduct i none (read.trace (moves ++ more)) ∧
          s₁.feeds[i]? = some t₁ ∧ t₁.phase = phase ∧
          log i (.stream stream.id) (read.trace (moves ++ more)) = (reading n).1) := by
  intro initial read notes reading alone
  have hnodup := Ledger.nodup_keys_feeds (Ledger.enrolled_make global streams)
  have hfollows := (follows_start settings factories conduct global streams hi).run hnodup hi hrun
    hcancel hreset hconduct
  obtain ⟨t, ht, hmatch, hstate, hover⟩ := hfollows.matches hi
  refine ⟨t, ht, hmatch, hstate, hover, ?_, ?_⟩
  · intro moves₀ s₀ effects₀ hrun₀ hcancel₀ hreset₀ hconduct₀
    have hi₀ : (Ledger.make none [(stream, initial)]).feeds[0]? = some (.stream stream) := rfl
    have hfollows₀ := (follows_start settings factories conduct none [(stream, initial)] hi₀).run
      (Ledger.nodup_keys_feeds (Ledger.enrolled_make none [(stream, initial)])) hi₀ hrun₀ hcancel₀
      hreset₀ hconduct₀
    have hinitial : (Ledger.make none [(stream, initial)]).current (.stream stream) = initial := by
      simp [Ledger.make, Ledger.empty, Ledger.enroll, Ledger.current, Ledger.scope?,
        Ledger.streamScope?, Ledger.currentAt, Table.put, Table.find?, Slot.start]
    rw [hinitial] at hfollows₀
    obtain ⟨t₀, ht₀, hmatch₀, -, -⟩ := hfollows₀.matches hi₀
    exact ⟨t₀, ht₀, hmatch.comparable hmatch₀, hmatch.eq_of_finished hmatch₀⟩
  · intro htimed n phase hn
    obtain ⟨-, d, holder, -, -, hmirrors, -, -⟩ :=
      (mirrors_start settings factories (Ledger.make global streams)).run hrun
    have htimed' : conduct.Timed s'.settings := (settings_run hrun).symm ▸ htimed
    obtain ⟨more, s₁, later, hmore, hcancel', hreset', hconduct', t₁, ht₁, hfinished⟩ :=
      (hfollows.canFinish hnodup hi hmirrors htimed' hn).exists_run
    obtain ⟨hrun₁, htrace⟩ := run_append hrun hmore
    have hfollows₁ := hfollows.run hnodup hi hmore hcancel' hreset' hconduct'
    obtain ⟨u, hu, hmatch₁, -, -⟩ := hfollows₁.matches hi
    rw [ht₁] at hu; cases hu
    obtain ⟨hlog, hphase⟩ := hmatch₁.eq_of_stopped hfinished hn
    refine ⟨more, s₁, later, t₁, hrun₁, hcancel', hreset', ?_, ht₁, hphase, ?_⟩
    · rw [htrace]
      exact honours_append.mpr ⟨hconduct, hconduct'⟩
    · rw [htrace, log, List.flatMap_append]
      exact hlog

/-- Two streams without a state. -/
def twoStreams : List (Stream × Option Value) :=
  [({ id := ⟨"users", none⟩ }, none), ({ id := ⟨"orders", none⟩ }, none)]

/-- A connector that has one checkpoint for a feed without a state, and then nothing more. -/
def oneCheckpoint : Conduct
  | _, none => some (.ok (.makes [(false, .answers .completed (.checkpoint ⟨.bool true, 3⟩))]))
  | _, some _ => some (.ok (.makes []))

/-- The second feed hands out while the first one is in the middle of its round. -/
def handOutBetween : List Move :=
  [ .supervise, .feed 0 .go, .feed 0 (.made .creator), .feed 0 .go, .feed 0 (.probe .ready)
  , .feed 0 .go, .feed 0 .go, .feed 0 .go, .feed 0 (.created (.readers [false])), .feed 0 .go
  , .feed 0 .go, .feed 0 .go
  , .partition 0 0 .go, .partition 0 0 (.probe .ready), .partition 0 0 .go, .partition 0 0 .go
  , .partition 0 0 .go, .partition 0 0 (.ran .done), .partition 0 0 .go, .partition 0 0 .go
  , .partition 0 0 (.saved (.checkpoint ⟨.bool true, 3⟩)), .partition 0 0 .go
  , .feed 0 (.join 0), .feed 0 .go
  , .feed 1 .go, .feed 1 (.made .creator), .feed 1 .go, .feed 1 (.probe .ready), .feed 1 .go
  , .feed 1 .go, .feed 1 .go, .feed 1 (.created (.readers [])), .feed 1 .go, .feed 1 .go
  , .feed 1 .go, .feed 1 .go, .feed 1 .go, .feed 1 .go, .feed 0 .go, .feed 1 .go, .feed 1 .go
  , .feed 1 .go, .feed 0 .go, .feed 0 .go, .feed 0 .go, .feed 0 .go, .feed 0 .go ]

/-- The checkpoint is the state of the feed at the beginning of its next round, whoever handed it out, and
from there the feed can come to its end. -/
theorem stream_feed_isolated_hand_out_between :
    ∃ s' effects t,
      (start {} 1 (Ledger.make none twoStreams)).run handOutBetween = some (s', effects) ∧
      s'.feeds[0]? = some t ∧ t.phase = .making 0 ∧ t.round = 2 ∧
      s'.shared.ledger.current t.feed = some (.bool true) ∧
      ∃ more s₁ later t₁,
        (start {} 1 (Ledger.make none twoStreams)).run (handOutBetween ++ more) =
          some (s₁, effects ++ later) ∧
        s₁.feeds[0]? = some t₁ ∧ t₁.phase = .done (.ok ()) ∧
        log 0 (.stream ⟨"users", none⟩)
            ((start {} 1 (Ledger.make none twoStreams)).trace (handOutBetween ++ more)) =
          [ .asked 1 0 none, .opened 1 [false], .applied (.bool true) 3
          , .asked 2 0 (some (.bool true)), .opened 2 [] ] := by
  have hrun : (start {} 1 (Ledger.make none twoStreams)).run handOutBetween = some (_, _) := rfl
  have hconduct : Honours oneCheckpoint 0 none
      ((start {} 1 (Ledger.make none twoStreams)).trace handOutBetween) := by
    -- the first feed comes to its readers
    refine honours_cons_of_ne rfl nofun nofun ?_
    refine honours_cons_feed rfl rfl nofun ?_
    refine honours_cons_feed rfl rfl (fun k hk => by cases hk; rfl) ?_
    refine honours_cons_feed rfl rfl (fun _ _ => trivial) ?_
    refine honours_cons_feed rfl rfl (fun c hc => by cases hc; rfl) ?_
    iterate 3 refine honours_cons_feed rfl rfl (fun _ _ => trivial) ?_
    refine honours_cons_feed rfl rfl (fun c hc => by cases hc; exact ⟨_, rfl, rfl⟩) ?_
    iterate 3 refine honours_cons_feed rfl rfl (fun _ _ => trivial) ?_
    -- its partition is read and applied
    refine honours_cons_partition rfl rfl rfl (fun _ _ _ _ => trivial) ?_
    refine honours_cons_partition rfl rfl rfl (fun c f hc hf => by cases hc; cases hf; rfl) ?_
    iterate 3 refine honours_cons_partition rfl rfl rfl (fun _ _ _ _ => trivial) ?_
    refine honours_cons_partition rfl rfl rfl
      (fun c f hc hf => by cases hc; cases hf; exact ⟨_, rfl⟩) ?_
    iterate 2 refine honours_cons_partition rfl rfl rfl (fun _ _ _ _ => trivial) ?_
    refine honours_cons_partition rfl rfl rfl
      (fun c f hc hf => by cases hc; cases hf; exact ⟨_, rfl⟩) ?_
    refine honours_cons_partition rfl rfl rfl (fun _ _ _ _ => trivial) ?_
    iterate 2 refine honours_cons_feed rfl rfl (fun _ _ => trivial) ?_
    -- the second feed hands out, and the first one after it
    iterate 14 refine honours_cons_of_ne rfl nofun nofun ?_
    refine honours_cons_feed rfl rfl (fun _ _ => trivial) ?_
    iterate 3 refine honours_cons_of_ne rfl nofun nofun ?_
    iterate 5 refine honours_cons_feed rfl rfl (fun _ _ => trivial) ?_
    trivial
  have htimed : oneCheckpoint.Timed {} := by
    intro k state readers hk unlimited a hmem
    cases state <;> cases hk <;> simp at hmem
  obtain ⟨t, ht, -, hstate, -, -, hend⟩ := stream_feed_isolated {} 1 oneCheckpoint none twoStreams rfl
    hrun (by simp [handOutBetween]) (by simp [handOutBetween]) hconduct
  obtain ⟨more, s₁, later, t₁, hmore, -, -, -, ht₁, hphase, hlog⟩ := hend htimed 2 (.done (.ok ())) rfl
  cases ht
  exact ⟨_, _, _, hrun, rfl, rfl, rfl, hstate 0 rfl, more, s₁, later, t₁, hmore, ht₁, hphase, hlog⟩

end Intake.Read.System
