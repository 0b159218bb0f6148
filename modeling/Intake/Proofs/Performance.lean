import Intake.Proofs.Broadcast
import Intake.Script.Session
/-!
# A scripted session is one schedule

A session chooses the moves of its reads by scripts and a clock. Here it is seen to make no other moves than those
of `Broadcast`: `Plays s s'` says that a session has come to be another by such moves, and each thing that a
session does is shown to be so. What holds after every list of moves then holds of every scenario that is played
(`Scenario.exists_run_play`). The main statement is `tracker_empty_when_read_is_over`.
-/

namespace Intake.Script

open Intake.Read

/-- What stays the same in a scenario from read to read. -/
def Scenario.installation (c : Scenario) : Installation where
  settings := c.settings
  factories := c.factories.length
  others := c.listeners.tail.map fun l => (l.persona.name, l.persona.capacity)

namespace Session

/-- The read of a session, the delivery of its events, and the tracker. -/
def broadcast (s : Session) : Broadcast where
  system := s.system
  delivery := s.delivery
  tracker := s.tracker

/-- A session has come to be another by moves of the read and of the delivery of its events. -/
def Plays (s s' : Session) : Prop :=
  s'.script = s.script ∧ ∃ moves, s.broadcast.run s.script.installation moves = some s'.broadcast

section
variable {s t u s' : Session}

/-- A session that does nothing plays no moves. -/
theorem Plays.refl (s : Session) : Plays s s := ⟨rfl, [], rfl⟩

/-- What is played in two parts is played one after the other. -/
theorem Plays.trans (h : Plays s t) (h' : Plays t u) : Plays s u := by
  obtain ⟨hscript, moves, hrun⟩ := h
  obtain ⟨hscript', moves', hrun'⟩ := h'
  rw [hscript] at hrun'
  exact ⟨hscript'.trans hscript, moves ++ moves', Broadcast.run_append hrun hrun'⟩

/-- One move of the broadcast, with the same script before and after, is a play of one move. -/
theorem plays_of_step {m : Broadcast.Move} (hscript : s'.script = s.script)
    (h : s.broadcast.step s.script.installation m = some s'.broadcast) : Plays s s' := by
  refine ⟨hscript, [m], ?_⟩
  rw [Broadcast.run, h]
  rfl

/-! ### Effects and moves of the read -/

/-- Releasing concerns the connectors alone. -/
theorem release_frame (s : Session) (who : Actor) :
    (s.release who).script = s.script ∧ (s.release who).broadcast = s.broadcast := by
  unfold release
  split
  · split <;> exact ⟨rfl, rfl⟩
  · split <;> exact ⟨rfl, rfl⟩

/-- Effects concern the script and the broadcast in no other way than that events are published. -/
theorem foldl_perform (s : Session) (effects : List Effect) :
    (effects.foldl perform s).script = s.script ∧
      (effects.foldl perform s).broadcast =
        { s.broadcast with delivery := s.delivery.publishAll (published effects) } := by
  induction effects generalizing s with
  | nil => exact ⟨rfl, rfl⟩
  | cons e rest ih =>
    obtain ⟨hscript, hbroadcast⟩ := ih (s.perform e)
    cases e with
    | publish e => exact ⟨hscript, hbroadcast⟩
    | write m => exact ⟨hscript, hbroadcast⟩
    | timer who d => exact ⟨hscript, hbroadcast⟩
    | release who =>
      obtain ⟨hsame, hsame'⟩ := s.release_frame who
      refine ⟨hscript.trans hsame, hbroadcast.trans ?_⟩
      have hdelivery : (s.release who).delivery = s.delivery := congrArg Broadcast.delivery hsame'
      show { (s.release who).broadcast with
        delivery := (s.release who).delivery.publishAll (published rest) } = _
      rw [hsame', hdelivery]
      rfl

/-- A move of the read is played as the move of the broadcast that makes it. -/
theorem plays_of_move {m : System.Move} (h : s.move m = some s') : Plays s s' := by
  obtain ⟨⟨system, effects⟩, hstep, heq⟩ := Option.bind_eq_some_iff.mp h
  cases heq
  obtain ⟨hscript, hbroadcast⟩ := foldl_perform { s with system } effects
  refine plays_of_step (m := .read m) hscript ?_
  rw [hbroadcast, Broadcast.step]
  exact Option.bind_eq_some_iff.mpr ⟨_, hstep, rfl⟩

/-- What a session notes for itself is no move of the broadcast. -/
theorem plays_of_eq (hscript : t.script = s.script) (h : t.broadcast = s.broadcast) : Plays s t := by
  refine ⟨hscript, [], ?_⟩
  rw [h]
  rfl

/-- What is noted of the connectors before does not count. -/
theorem Plays.noted (h : Plays t s') (hscript : t.script = s.script) (hsame : t.broadcast = s.broadcast) :
    Plays s s' := (plays_of_eq hscript hsame).trans h

/-- To reset a feed is to reset its slots one after the other. -/
theorem plays_of_resetAll {f : Feed} (h : s.resetAll f = some s') : Plays s s' := by
  unfold resetAll at h
  generalize s.ledger.scopesOf f = keys at h
  induction keys generalizing s with
  | nil =>
    cases h
    exact .refl _
  | cons key rest ih =>
    rw [List.foldlM_cons] at h
    obtain ⟨mid, hmove, hrest⟩ := Option.bind_eq_some_iff.mp h
    exact (plays_of_move hmove).trans (ih hrest)

/-! ### Feeds -/

/-- A factory is asked: it may reset its feed, and then it answers with a move. -/
theorem plays_of_askFactory {i k : Nat} {task : FeedTask} {factory : Factory}
    (h : s.askFactory i task k factory = some s') : Plays s s' := by
  simp only [askFactory] at h
  split at h
  · exact (plays_of_move h).noted rfl rfl
  · split at h
    · exact (plays_of_move h).noted rfl rfl
    · split at h
      · obtain ⟨mid, hreset, hlast⟩ := Option.bind_eq_some_iff.mp h
        have hfirst : Plays s mid := (plays_of_resetAll hreset).noted rfl rfl
        exact hfirst.trans ((plays_of_move hlast).noted rfl rfl)
      · exact (plays_of_move h).noted rfl rfl

/-- The answer of a creator that asks for its resources is a move. -/
theorem plays_of_probeCreator {i : Nat} (h : s.probeCreator i = some s') : Plays s s' := by
  obtain ⟨c, -, hlast⟩ := Option.bind_eq_some_iff.mp h
  exact (plays_of_move hlast).noted rfl rfl

/-- The end of the run of a creator is a move; while it sleeps there is none. -/
theorem plays_of_runCreator {i : Nat} {cancelled : Bool} (h : s.runCreator i cancelled = some s') :
    Plays s s' := by
  obtain ⟨c, -, hlast⟩ := Option.bind_eq_some_iff.mp h
  simp only at hlast
  split at hlast
  · cases hlast
    exact plays_of_eq rfl rfl
  · split at hlast
    · exact (plays_of_move hlast).noted rfl rfl
    · split at hlast
      · exact (plays_of_move hlast).noted rfl rfl
      · cases hlast

/-- Whatever the task of a feed does next is played. -/
theorem plays_of_stepFeed {i : Nat} (h : stepFeed i s = some s') : Plays s s' := by
  obtain ⟨task, -, hlast⟩ := Option.bind_eq_some_iff.mp h
  simp only at hlast
  split at hlast
  · split at hlast
    · exact plays_of_askFactory hlast
    · exact plays_of_move hlast
  · exact plays_of_probeCreator hlast
  · obtain ⟨a, -, hmove⟩ := Option.bind_eq_some_iff.mp hlast
    exact plays_of_move hmove
  · exact plays_of_runCreator hlast
  · split at hlast
    · rename_i hmove
      cases hlast
      exact plays_of_move hmove
    · obtain ⟨j, -, hmove⟩ := List.exists_of_findSome?_eq_some hlast
      exact plays_of_move hmove
  · exact plays_of_move hlast

/-! ### Partitions -/

/-- A record that a reader writes is a move; without a writer there is only a note. -/
theorem plays_of_emitRecord {r : Reader} {id : StreamId} {data : Fields} {changes : List (String × ValueChange)}
    (h : s.emitRecord r id data changes = some s') : Plays s s' := by
  unfold emitRecord at h
  split at h
  · exact plays_of_move h
  · cases h
    exact plays_of_eq rfl rfl

/-- Each step in the script of a reader is played. -/
theorem plays_of_playStep {i j : Nat} {f : Feed} {r : Reader} (h : s.playStep i j f r = some s') :
    Plays s s' := by
  unfold playStep at h
  split at h
  · exact (plays_of_move h).noted rfl rfl
  · simp only at h
    split at h
    · cases h
      exact plays_of_eq rfl rfl
    · cases h
      exact plays_of_eq rfl rfl
    · exact (plays_of_emitRecord h).noted rfl rfl
    · cases h
      exact plays_of_eq rfl rfl
    · exact (plays_of_move h).noted rfl rfl
    · exact (plays_of_move h).noted rfl rfl
    · cases h
      exact plays_of_eq rfl rfl
    · exact (plays_of_resetAll h).noted rfl rfl

/-- A reader between two polls of its run goes into the next one, or leaves because it was cancelled. -/
theorem plays_of_runReader {i j : Nat} {cancelled limited : Bool}
    (h : s.runReader i j cancelled limited = some s') : Plays s s' := by
  obtain ⟨r, -, hlast⟩ := Option.bind_eq_some_iff.mp h
  split at hlast
  · split at hlast
    · exact plays_of_move hlast
    · exact (plays_of_move hlast).noted rfl rfl
  · split at hlast
    · exact (plays_of_move hlast).noted rfl rfl
    · exact plays_of_move hlast
    · split at hlast
      · exact plays_of_move hlast
      · cases hlast
    · split at hlast
      · exact plays_of_move hlast
      · cases hlast

/-- In a poll a reader plays its script, runs out of time, or waits for the next poll. -/
theorem plays_of_pollReader {i j : Nat} {f : Feed} {limited : Bool}
    (h : s.pollReader i j f limited = some s') : Plays s s' := by
  obtain ⟨r, -, hlast⟩ := Option.bind_eq_some_iff.mp h
  -- a run that waits
  have hwaits : (if s.overdue i j limited then s.dropRun i j r .elapse else s.move (.partition i j .go)) =
      some s' → Plays s s' := by
    intro hwait
    split at hwait
    · exact (plays_of_move hwait).noted rfl rfl
    · exact plays_of_move hwait
  simp only at hlast
  split at hlast
  · split at hlast
    · cases hlast
      exact plays_of_eq rfl rfl
    · exact hwaits hlast
  · exact hwaits hlast
  · exact plays_of_playStep hlast

/-- Whatever the task of a partition does next is played. -/
theorem plays_of_stepPartition {i j : Nat} (h : stepPartition i j s = some s') : Plays s s' := by
  obtain ⟨task, -, h⟩ := Option.bind_eq_some_iff.mp h
  obtain ⟨p, -, hlast⟩ := Option.bind_eq_some_iff.mp h
  simp only at hlast
  split at hlast
  · exact plays_of_move hlast
  · obtain ⟨r, -, hprobe⟩ := Option.bind_eq_some_iff.mp hlast
    exact (plays_of_move hprobe).noted rfl rfl
  · obtain ⟨a, -, hmove⟩ := Option.bind_eq_some_iff.mp hlast
    exact plays_of_move hmove
  · exact plays_of_runReader hlast
  · exact plays_of_pollReader hlast
  · obtain ⟨r, -, hsave⟩ := Option.bind_eq_some_iff.mp hlast
    exact (plays_of_move hsave).noted rfl rfl
  · exact plays_of_move hlast

/-! ### Listeners and the clock -/

/-- A move of the delivery that the broadcast admits is a move of the broadcast, with the tracker told of what
it hears. -/
theorem plays_of_deliver {m : Delivery.Move} {d : Delivery} (h : s.delivery.step m = some d)
    (hadmits : s.broadcast.admits m = true) (hscript : s'.script = s.script)
    (hsame : s'.broadcast = { s.broadcast with delivery := d, tracker := s.broadcast.heard m }) :
    Plays s s' := by
  refine plays_of_step (m := .deliver m) hscript ?_
  rw [hsame, Broadcast.step, if_pos hadmits]
  exact Option.bind_eq_some_iff.mpr ⟨d, h, rfl⟩

/-- The tracker is the first of the listeners and none of the others. -/
theorem listener_cases {c : Scenario} {l : Listener} {i : Nat} (h : (l, i) ∈ c.listeners.zipIdx) :
    (i = 0 ∧ l = .tracker) ∨ ∃ k, i = k + 1 ∧ l ≠ .tracker := by
  rw [List.mk_mem_zipIdx_iff_getElem?] at h
  cases i with
  | zero => exact .inl ⟨rfl, (Option.some.inj h).symm⟩
  | succ k =>
    refine .inr ⟨k, rfl, ?_⟩
    rintro rfl
    have hmem : Listener.tracker ∈ [.log, .recorder] ++ c.subscribers.map .scripted :=
      List.mem_of_getElem? h
    simp at hmem

/-- What other listeners do with an event does not concern the tracker. -/
theorem hear_frame (s : Session) (e : Event) {l : Listener} (hl : l ≠ .tracker) :
    (s.hear e l).script = s.script ∧ (s.hear e l).broadcast = s.broadcast := by
  cases l with
  | tracker => exact absurd rfl hl
  | log | recorder | scripted => exact ⟨rfl, rfl⟩

/-- Whatever a subscriber does next is played. -/
theorem plays_of_stepListener {l : Listener} {i : Nat} (hl : (l, i) ∈ s.script.listeners.zipIdx)
    (h : s.stepListener i l = some s') : Plays s s' := by
  obtain ⟨subscriber, hsubscriber, hlast⟩ := Option.bind_eq_some_iff.mp h
  simp only at hlast
  split at hlast
  · rename_i e hhand
    split at hlast
    · obtain ⟨d, hfinish, heq⟩ := Option.bind_eq_some_iff.mp hlast
      cases heq
      rcases listener_cases hl with ⟨rfl, rfl⟩ | ⟨k, rfl, hother⟩
      · refine plays_of_deliver hfinish rfl rfl ?_
        have hheard : s.broadcast.heard (.finish 0 (Listener.tracker.persona.handling e)) =
            (s.tracker.update e).1 := by
          show s.tracker.run ((s.delivery.audience[0]?).bind (·.hand)).toList = _
          rw [hsubscriber, Option.bind_some, hhand]
          rfl
        rw [hheard]
        rfl
      · obtain ⟨hscript, hsame⟩ := ({ s with delivery := d }).hear_frame e hother
        exact plays_of_deliver hfinish rfl hscript hsame
    · cases hlast
  · obtain ⟨d, htake, hlast⟩ := Option.bind_eq_some_iff.mp hlast
    have hfirst : Plays s { s with delivery := d } := plays_of_deliver htake rfl rfl rfl
    split at hlast
    · rename_i d' hdies
      cases hlast
      split at hdies
      · rename_i hkind
        rcases listener_cases hl with ⟨rfl, rfl⟩ | ⟨k, rfl, -⟩
        · -- there is no kind of event over which the tracker dies
          simp [Listener.persona] at hkind
        · refine hfirst.trans ?_
          exact plays_of_deliver (s := { s with delivery := d }) hdies rfl rfl rfl
      · cases hdies
    · cases hlast
      exact hfirst.trans (plays_of_eq rfl rfl)

/-- Whatever the one who listens to the ring does next is played. -/
theorem plays_of_stepDelivery (h : s.stepDelivery = some s') : Plays s s' := by
  unfold stepDelivery at h
  split at h
  · rename_i d hfound
    cases h
    obtain ⟨m, hmem, hstep⟩ := List.exists_of_findSome?_eq_some hfound
    have hm : s.broadcast.admits m = true ∧ s.broadcast.heard m = s.tracker := by
      rcases List.mem_cons.mp hmem with rfl | hmem
      · exact ⟨rfl, rfl⟩
      rcases List.mem_cons.mp hmem with rfl | hmem
      · exact ⟨rfl, rfl⟩
      rcases List.mem_cons.mp hmem with rfl | hmem
      · exact ⟨rfl, rfl⟩
      · rw [List.mem_singleton.mp hmem]
        exact ⟨rfl, rfl⟩
    refine plays_of_deliver hstep hm.1 rfl ?_
    rw [hm.2]
    rfl
  · obtain ⟨⟨l, i⟩, hl, hstep⟩ := List.exists_of_findSome?_eq_some h
    exact plays_of_stepListener hl hstep

/-- Whatever the supervisor does next is played. -/
theorem plays_of_stepSupervisor (h : s.stepSupervisor = some s') : Plays s s' := by
  unfold stepSupervisor at h
  split at h
  · exact plays_of_move h
  · rename_i r hresult
    split at h
    · cases h
    · obtain ⟨d, hstop, heq⟩ := Option.bind_eq_some_iff.mp h
      cases heq
      refine plays_of_deliver hstop ?_ rfl rfl
      show s.system.result?.isSome = true
      rw [hresult]
      rfl

/-- To cancel the read when it is time is a move. -/
theorem plays_of_stepCancel (h : s.stepCancel = some s') : Plays s s' := by
  obtain ⟨time, -, hlast⟩ := Option.bind_eq_some_iff.mp h
  split at hlast
  · exact (plays_of_move hlast).noted rfl rfl
  · cases hlast

/-- A report of progress is only noted. -/
theorem plays_of_stepTick (h : s.stepTick = some s') : Plays s s' := by
  obtain ⟨time, -, h⟩ := Option.bind_eq_some_iff.mp h
  obtain ⟨period, -, hlast⟩ := Option.bind_eq_some_iff.mp h
  split at hlast
  · cases hlast
    exact plays_of_eq rfl rfl
  · cases hlast

/-- Whoever goes on in a session makes such moves. -/
theorem plays_of_worker {step : Session → Option Session} (hmem : step ∈ s.workers)
    (h : step t = some s') : Plays t s' := by
  rcases List.mem_append.mp hmem with hmem | hmem
  · rcases List.mem_append.mp hmem with hmem | hmem
    · rcases List.mem_cons.mp hmem with rfl | hmem
      · exact plays_of_stepCancel h
      rcases List.mem_cons.mp hmem with rfl | hmem
      · exact plays_of_stepSupervisor h
      · rw [List.mem_singleton.mp hmem] at h
        exact plays_of_stepDelivery h
    · obtain ⟨⟨task, i⟩, -, hmem⟩ := List.mem_flatMap.mp hmem
      rcases List.mem_cons.mp hmem with rfl | hmem
      · exact plays_of_stepFeed h
      · obtain ⟨j, -, rfl⟩ := List.mem_map.mp hmem
        exact plays_of_stepPartition h
  · rw [List.mem_singleton.mp hmem] at h
    exact plays_of_stepTick h

/-- If every step of a kind is played, as many of them as there are to make are played. -/
theorem plays_exhaust {step : Session → Option Session}
    (hstep : ∀ t t', step t = some t' → Plays t t') (fuel : Nat) (s : Session) :
    Plays s (exhaust step fuel s) := by
  induction fuel generalizing s with
  | zero => exact .refl s
  | succ fuel ih =>
    rw [exhaust]
    split
    · exact .refl s
    · rename_i next hnext
      exact (hstep s next hnext).trans (ih next)

/-- One turn of all the tasks is played. -/
theorem plays_sweep (fuel : Nat) (s : Session) : Plays s (s.sweep fuel).1 := by
  unfold sweep
  refine List.foldlRecOn (motive := fun p : Session × Bool => Plays s p.1) s.workers _ (.refl s) ?_
  intro p hp step hmem
  split
  · exact hp
  · rename_i next hnext
    have hworker : ∀ t t', step t = some t' → Plays t t' := fun t t' h => plays_of_worker hmem h
    have hon := (plays_exhaust hworker fuel next).trans
      (plays_exhaust (fun t t' => plays_of_stepDelivery) fuel _)
    exact hp.trans ((hworker _ next hnext).trans hon)

/-- A read is played to its end, however far the fuel goes. -/
theorem plays_play (fuel : Nat) (s : Session) : Plays s (play fuel s) := by
  induction fuel generalizing s with
  | zero => exact .refl s
  | succ fuel ih =>
    have hsweep := plays_sweep fuel s
    rw [play]
    split
    · rename_i next heq
      rw [heq] at hsweep
      exact hsweep.trans (ih next)
    · rename_i next heq
      rw [heq] at hsweep
      split
      · exact hsweep
      · simp only
        split
        · exact hsweep.trans ((ih _).noted rfl rfl)
        · exact hsweep.trans (plays_of_eq rfl rfl)

/-! ### Reads -/

/-- A read begins as a broadcast does. -/
theorem broadcast_begin (s : Session) (cancelAfter : Option Nat) :
    (s.begin cancelAfter).broadcast =
      .begin s.script.installation s.ledger s.delivery.nextSeq s.tracker := by
  have haudience : s.script.listeners.map (fun l => l.persona.subscriber) =
      Audience.seated (("ActiveTracker", 2048) :: s.script.installation.others) := by
    simp only [Scenario.installation, Audience.seated, Scenario.listeners, List.map_cons, List.map_map,
      List.cons_append, List.tail_cons]
    rfl
  simp only [broadcast, begin, openDelivery, haudience]
  rfl

/-- A session that can begin a read: none has begun yet, or the one before is over. -/
def Ready (s : Session) : Prop :=
  s.broadcast = .begin s.script.installation s.ledger s.delivery.nextSeq s.tracker ∨
    s.delivery.listening = .done

/-- A read of a session that is ready begins as a broadcast does. -/
theorem plays_begin (h : s.Ready) (cancelAfter : Option Nat) : Plays s (s.begin cancelAfter) := by
  rcases h with hfirst | hover
  · exact plays_of_eq rfl ((broadcast_begin s cancelAfter).trans hfirst.symm)
  · refine plays_of_step (m := .again []) rfl ?_
    rw [broadcast_begin, Broadcast.step]
    exact if_pos hover

/-- All reads of a session are played, each from where the one before has left the ledger. -/
theorem plays_playAll (fuel : Nat) (reads : List (Option Nat)) (h : s.Ready) :
    Plays s (playAll fuel reads s) := by
  induction reads generalizing s with
  | nil => exact .refl s
  | cons cancelAfter rest ih =>
    have hread : Plays s (play fuel (s.begin cancelAfter)).close :=
      ((plays_begin h cancelAfter).trans (plays_play fuel _)).trans (plays_of_eq rfl rfl)
    rw [playAll]
    split
    · rename_i hfinished
      exact hread.trans (ih (.inr (eq_of_beq hfinished)))
    · exact hread

end

end Session

/-- A scenario that is played is one schedule of reads with the delivery of their events. -/
theorem Scenario.exists_run_play (c : Scenario) (fuel : Nat) :
    ∃ moves, (Broadcast.begin c.installation c.ledger 0 {}).run c.installation moves =
      some (c.play fuel).broadcast := by
  have hstart := Session.broadcast_begin (.ofScenario c) none
  have hready : (Session.ofScenario c).Ready := .inl hstart
  obtain ⟨-, moves, hrun⟩ := Session.plays_playAll fuel c.reads hready
  refine ⟨moves, Eq.trans ?_ hrun⟩
  exact congrArg (fun w => w.run c.installation moves) hstart.symm

/-- The tracker is empty when a read is over. The read, the delivery of its events and the subscribers go on in any
order, connectors fail and crash as they like, partitions of a feed that is over may still publish, and reads
follow one another with the same tracker; labels of feeds and numbers of events are free. If no event of a read was
lost to the ring or to the queue of the tracker, then nothing is active when its delivery is over, which is when the
read returns, whatever the reads before it have lost. A scenario that is played is such a run. -/
theorem tracker_empty_when_read_is_over (global : Option (Global × Option Value))
    (streams : List (Stream × Option Value)) (ops : List Ledger.Op) :
    (∀ (o : Installation) (moves : List Broadcast.Move) (w : Broadcast),
      (Broadcast.begin o (.used global streams ops) 0 {}).run o moves = some w →
      (Broadcast.begin o (.used global streams ops) 0 {}).intact o true moves = true →
      w.delivery.listening = .done → w.tracker.snapshot = []) ∧
    ∀ (c : Scenario) (fuel : Nat), c.ledger = .used global streams ops →
      (∃ moves, (Broadcast.begin c.installation c.ledger 0 {}).run c.installation moves =
        some (c.play fuel).broadcast) ∧
      ∀ moves, (Broadcast.begin c.installation c.ledger 0 {}).run c.installation moves =
          some (c.play fuel).broadcast →
        (Broadcast.begin c.installation c.ledger 0 {}).intact c.installation true moves = true →
        (c.play fuel).finished = true → (c.play fuel).tracker.snapshot = [] := by
  have hempty : ∀ (o : Installation) (moves : List Broadcast.Move) (w : Broadcast),
      (Broadcast.begin o (.used global streams ops) 0 {}).run o moves = some w →
      (Broadcast.begin o (.used global streams ops) 0 {}).intact o true moves = true →
      w.delivery.listening = .done → w.tracker.snapshot = [] := by
    intro o moves w hrun hintact hover
    have hclear : ∀ r, ({} : Tracker).Clear r := fun _ _ _ => rfl
    have hbegin : Broadcast.Follows global streams (.begin o (.used global streams ops) 0 {}) true :=
      Broadcast.follows_begin o ops 0 (fun r _ => hclear r) (fun r _ => hclear r)
    rw [Tracker.snapshot, ((hbegin.run hrun).fed hintact).active_eq_nil hover]
    exact List.mergeSort_nil
  refine ⟨hempty, fun c fuel hledger => ⟨c.exists_run_play fuel, ?_⟩⟩
  intro moves hrun hintact hfinished
  rw [hledger] at hrun hintact
  exact hempty c.installation moves _ hrun hintact (eq_of_beq hfinished)

/-- One of two readers fails and the feed with it. The other reader, which had its resources, begins to run only
after that. -/
def startsLate : List System.Move :=
  ([ .supervise, .feed 0 .go, .feed 0 (.made .creator), .feed 0 .go, .feed 0 (.probe .ready), .feed 0 .go
   , .feed 0 .go, .feed 0 .go, .feed 0 (.created (.readers [false, false])), .feed 0 .go, .feed 0 .go, .feed 0 .go
   , .partition 0 0 .go, .partition 0 0 (.probe .ready), .partition 0 0 .go, .partition 0 0 .go
   , .partition 0 1 .go, .partition 0 1 .go, .partition 0 1 (.probe .ready), .partition 0 1 .go
   , .partition 0 0 .go, .partition 0 0 (.ran (.failed (.reported "no"))), .partition 0 0 .go
   , .partition 0 0 .go, .partition 0 0 .go, .feed 0 (.join 0) ] : List System.Move) ++
  List.replicate 8 (.feed 0 .go) ++ .partition 0 1 .go :: List.replicate 5 .supervise

/-- The read and the feed have begun. -/
def startsUp : List System.Move := [.supervise, .feed 0 .go]

/-- The factory crashes, and the supervisor reports the feed. -/
def crashesAtOnce : List System.Move := .feed 0 (.made (.crashed "boom")) :: List.replicate 7 .supervise

/-- Some events come to the tracker. -/
def takesIn (n : Nat) : List Delivery.Move :=
  (List.replicate n [.receive, .offer, .offer, .take 0, .finish 0 .done]).flatten

/-- The listener is stopped, goes on with what is left, and closes. -/
def stopsAfter (rest : List Delivery.Move) : List Delivery.Move := .stop :: rest ++ [.turn, .turn, .close]

/-- A feed whose label has a slash is read twice, over a ring with room for two events. The listener of the first
read comes too late for all but the start of a reader of a feed that is over, and so that stays active. The second
read loses nothing. -/
theorem tracker_empty_when_read_is_over_slash :
    let o : Installation := { settings := { busCapacity := 2 }, factories := 1 }
    let streams : List (Stream × Option Value) := [({ id := ⟨"a/b", none⟩ }, none)]
    let late : List Broadcast.Move := startsLate.map .read ++ (stopsAfter (.receive :: takesIn 2)).map .deliver
    let moves : List Broadcast.Move :=
      late ++ .again [] :: .number 3 :: startsUp.map .read ++ (takesIn 2).map .deliver ++
        crashesAtOnce.map .read ++ (stopsAfter (takesIn 2)).map .deliver
    ((Broadcast.begin o (.used none streams []) 0 {}).run o late).map (·.tracker.snapshot) = some ["a/b/1/2"] ∧
      ∃ w, (Broadcast.begin o (.used none streams []) 0 {}).run o moves = some w ∧
        w.delivery.listening = .done ∧ w.tracker.snapshot = [] := by
  intro o streams late moves
  refine ⟨by decide +kernel, ?_⟩
  have hintact : (Broadcast.begin o (.used none streams []) 0 {}).intact o true moves = true := by
    decide +kernel
  have hover : ((Broadcast.begin o (.used none streams []) 0 {}).run o moves).map (·.delivery.listening) =
      some .done := by decide +kernel
  obtain ⟨w, hrun, hdone⟩ := Option.map_eq_some_iff.mp hover
  exact ⟨w, hrun, hdone,
    (tracker_empty_when_read_is_over none streams []).1 o moves w hrun hintact hdone⟩

end Intake.Script
