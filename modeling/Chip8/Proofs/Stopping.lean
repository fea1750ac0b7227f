import Chip8.Proofs.Hearing
import Chip8.Proofs.Moment

/-!
# Stopping a run

The user of a terminal asks to stop by a key. A run notices this in the wait or in the frame that
takes the request from the keyboard, and does nothing after it. As long as the keyboard is there,
nothing else makes a run end as if it had been asked to.
-/
namespace Chip8.Console

variable {c c' start : Console Terminal} {act : Act Terminal} {ending : Option Ending}

/-! ## Single acts -/

/-- A frame is that of the terminal with its timers moved on. -/
theorem Shows.present {shown : Shown Terminal} (h : c.Shows shown) :
    ∃ timers, ({ c.frontend with timers } : Terminal).present =
      (shown.answer, shown.frontend) := by
  obtain ⟨ticks, timers, -, hpresent⟩ := h
  exact ⟨timers, hpresent⟩

/-- A frame on a terminal fails with an error that was kept, and takes nothing from the keyboard, or
it fails because something could not be sent, or it shows all that was drawn and tells whether the
user has asked to stop. -/
theorem Shows.cases {shown : Shown Terminal} (h : c.Shows shown) :
    (∃ cause, c.frontend.pending = some cause ∧ shown.answer = .error (.io cause) ∧
        shown.frontend.keyboard = c.frontend.keyboard) ∨
      (∃ cause, c.frontend.pending = none ∧ shown.answer = .error (.io cause) ∧
        c.frontend.output.FailedWith shown.frontend.output cause) ∨
      c.frontend.pending = none ∧ shown.answer = .ok !shown.frontend.quit ∧
        shown.frontend.pending = none ∧ shown.frontend.dirty = false ∧
        shown.frontend.output.queued = #[] := by
  obtain ⟨timers, hpresent⟩ := h.present
  let t : Terminal := { c.frontend with timers }
  obtain ⟨cause, hpending, heq⟩ | ⟨cause, output, hpending, heq, hfailed⟩ |
    ⟨output, hpending, heq, hqueued⟩ := t.present_cases
  all_goals
    rw [heq] at hpresent
    obtain ⟨hanswer, hfrontend⟩ := Prod.mk.inj hpresent
    rw [← hanswer, ← hfrontend]
  · exact .inl ⟨cause, hpending, rfl, rfl⟩
  · exact .inr (.inl ⟨cause, hpending, rfl, hfailed⟩)
  · have hpoll : t.poll.pending = t.pending := by rw [Terminal.poll_eq]
    exact .inr (.inr ⟨hpending, rfl, hpoll.trans hpending, rfl, hqueued⟩)

/-- After a frame with which the run goes on, nothing is left to show, no error is kept, and nobody
has asked to stop. -/
theorem Shows.of_goesOn {shown : Shown Terminal} (h : c.Shows shown)
    (hgoesOn : shown.ending = none) :
    shown.frontend.quit = false ∧ shown.frontend.pending = none ∧
      shown.frontend.dirty = false ∧ shown.frontend.output.queued = #[] := by
  have hmore := Shown.ending_eq_none.mp hgoesOn
  obtain ⟨cause, -, hanswer, -⟩ | ⟨cause, -, hanswer, -⟩ | ⟨-, hanswer, hclear⟩ := h.cases
  · cases hanswer.symm.trans hmore
  · cases hanswer.symm.trans hmore
  · have hquit := Except.ok.inj (hanswer.symm.trans hmore)
    rw [Bool.not_eq_true'] at hquit
    exact ⟨hquit, hclear⟩

namespace Act.Occurs

/-- What an act takes note of. -/
theorem hears (h : act.Occurs c) (hm : c.machine.Sound) :
    Terminal.Hears c.frontend (act.result c).frontend := by
  cases act with
  | step turn =>
    have hturn := hm.turn_eq h.2
    exact hturn ▸ Terminal.hears_turn c.machine c.frontend
  | frame shown =>
    obtain ⟨timers, hpresent⟩ := Shows.present h
    have hhears := Terminal.hears_present { c.frontend with timers }
    rw [hpresent] at hhears
    exact ⟨hhears.upcoming, hhears.quit, hhears.asked⟩

/-- A run does not go on after an act that leaves the terminal asked to stop. -/
theorem quit_of_goesOn (h : act.Occurs c) (hgoesOn : act.ending = none) :
    (act.result c).frontend.quit = false := by
  cases act with
  | step turn => exact (Turn.ending_eq_none.mp hgoesOn).2
  | frame shown => exact (h.of_goesOn hgoesOn).1

/-- A run is stopped only by an act that leaves the terminal asked to stop. -/
theorem quit_of_ending (h : act.Occurs c) (hending : act.ending = some .quit) :
    (act.result c).frontend.quit = true := by
  cases act with
  | step turn => exact (Turn.ending_eq_quit.mp hending).2
  | frame shown =>
    have hanswer' := Shown.ending_eq_quit.mp hending
    obtain ⟨cause, -, hanswer, -⟩ | ⟨cause, -, hanswer, -⟩ | ⟨-, hanswer, -⟩ := h.cases
    · cases hanswer.symm.trans hanswer'
    · cases hanswer.symm.trans hanswer'
    · have hquit := Except.ok.inj (hanswer.symm.trans hanswer')
      rwa [Bool.not_eq_false'] at hquit

/-- Less than a tick is left over at all times. -/
theorem settled (hoccurs : act.Occurs c) (hm : c.machine.Sound)
    (h : ¬ c.frontend.timers.elapsed ≥ secondsPerTick) :
    ¬ (act.result c).frontend.timers.elapsed ≥ secondsPerTick := by
  cases act with
  | step turn =>
    have hturn := hm.turn_eq hoccurs.2
    change ¬ turn.host.timers.elapsed ≥ secondsPerTick
    rwa [← hturn, Terminal.elapsed_turn]
  | frame shown =>
    obtain ⟨ticks, timers, hadvance, hpresent⟩ := hoccurs
    have htimers := Terminal.timers_present { c.frontend with timers }
    have hfrontend : shown.frontend.timers = timers :=
      (congrArg (fun p => p.2.timers) hpresent).symm.trans htimers
    change ¬ shown.frontend.timers.elapsed ≥ secondsPerTick
    rw [hfrontend]
    exact Timers.settled_of_advance hadvance

end Act.Occurs

/-! ## Runs -/

def Act.TakesQuit (start : Console Terminal) (act : Act Terminal) : Prop :=
  start.frontend.keyboard.TookQuit (act.result start).frontend.keyboard

/-- What requests to stop do to a run, by its acts and its ending. -/
structure Heeds (c : Console Terminal) (acts : List (Act Terminal)) (c' : Console Terminal)
    (ending : Option Ending) : Prop where
  /-- Every act takes its reports from the front of those that are there or still to come. -/
  inOrder : ∀ start act after, Moment c acts start act after →
    ∃ heard, start.frontend.keyboard.upcoming =
      heard ++ (act.result start).frontend.keyboard.upcoming
  /-- Nothing is done after an act that takes a request. -/
  atOnce : ∀ start act after, Moment c acts start act after → act.TakesQuit start → after = []
  /-- A step takes one in a wait for a key. The machine gets zero for an answer. -/
  waiting : ∀ start turn after, Moment c acts start (.step turn) after →
    Act.TakesQuit start (.step turn) →
    (∃ x, start.machine.Fetches (.waitKey x) ∧ turn.machine = start.machine.pass.set x 0) ∧
      turn.fault = none ∧ ending = some .quit
  /-- The frame that takes one may still fail because of its own output. -/
  framed : ∀ start shown after, Moment c acts start (.frame shown) after →
    Act.TakesQuit start (.frame shown) →
    ending = some .quit ∨
      ∃ cause, start.frontend.output.FailedWith shown.frontend.output cause ∧
        ending = some (.failed (.io cause))
  /-- Unless the keyboard gets lost, a run is stopped by nothing else. -/
  asked : ending = some .quit → c'.frontend.keyboard.starved = false →
    ∃ start act after, Moment c acts start act after ∧ act.TakesQuit start

/-- A terminal that goes on has not been asked to stop. -/
theorem persists_calm : Persists fun c : Console Terminal => c.frontend.quit = false :=
  fun _ _ _ hoccurs hgoesOn _ => hoccurs.quit_of_goesOn hgoesOn

namespace Course

variable {n : Nat} {durations : List Float} {rounds : List (Round Terminal)}
  {after : List (Act Terminal)}

/-- A run ends with the act that takes a request to stop, as that act tells it to. -/
theorem ending_of_takesQuit (h : Course n c durations rounds c' ending) (hm : c.machine.Sound)
    (hcalm : c.frontend.quit = false)
    (hmoment : Moment c (rounds.flatMap Round.acts) start act after)
    (htakes : act.TakesQuit start) :
    start.machine.Sound ∧ act.Occurs start ∧ after = [] ∧ ending = act.ending := by
  obtain ⟨hsound, -⟩ := h.persists persists_calm hm hcalm hmoment
  obtain ⟨hoccurs, -⟩ := hmoment.occurs h.acts
  have hends : act.ending ≠ none := fun hgoesOn =>
    absurd ((hoccurs.quit_of_goesOn hgoesOn).symm.trans ((hoccurs.hears hsound).quit htakes))
      Bool.false_ne_true
  exact ⟨hsound, hoccurs, h.ends_of_ending hmoment hends⟩

/-- On a terminal whose timers have caught up, a run is held up by them only in a round that takes
more than a year. -/
theorem exists_long_of_overslept (h : Course n c durations rounds c' (some .overslept))
    (hm : c.machine.Sound) (hsettled : ¬ c.frontend.timers.elapsed ≥ secondsPerTick) :
    ∃ seconds ∈ durations, seconds ≥ 33554432.0 := by
  obtain ⟨-, hsettled'⟩ := h.acts.keeps
    (p := fun c => ¬ c.frontend.timers.elapsed ≥ secondsPerTick)
    (fun _ _ _ hm hoccurs hc => hoccurs.settled hm hc) hm hsettled
  obtain ⟨seconds, hnext, hadvance⟩ := h.breaksOff.2 rfl
  have hlong := (Timers.overdue_of_advance hadvance).resolve_left hsettled'
  exact ⟨seconds, List.mem_of_getElem? hnext, hlong⟩

/-- A run on a terminal that nobody has asked to stop so far heeds the requests to stop. -/
theorem heeds (h : Course n c durations rounds c' ending) (hm : c.machine.Sound)
    (hcalm : c.frontend.quit = false) : Heeds c (rounds.flatMap Round.acts) c' ending where
  inOrder start act after hmoment :=
    ((hmoment.occurs h.acts).1.hears (h.sound_at hm hmoment)).upcoming
  atOnce start act after hmoment htakes :=
    (h.ending_of_takesQuit hm hcalm hmoment htakes).2.2.1
  waiting start turn after hmoment htakes := by
    obtain ⟨hsound, hoccurs, -, hending⟩ := h.ending_of_takesQuit hm hcalm hmoment htakes
    have hquit := (hoccurs.hears hsound).quit htakes
    have hturn := hsound.turn_eq hoccurs.2
    obtain ⟨x, hfetch, heq⟩ := Terminal.turn_of_tookQuit (hturn.symm ▸ htakes)
    rw [hturn] at heq
    have hfault : turn.fault = none := by rw [heq]
    refine ⟨⟨x, hfetch, by rw [heq]⟩, hfault, ?_⟩
    rw [hending]
    exact Turn.ending_eq_quit.mpr ⟨hfault, hquit⟩
  framed start shown after hmoment htakes := by
    obtain ⟨hsound, hoccurs, -, hending⟩ := h.ending_of_takesQuit hm hcalm hmoment htakes
    have hquit : shown.frontend.quit = true := (hoccurs.hears hsound).quit htakes
    rw [hending]
    obtain ⟨cause, -, -, hkeyboard⟩ | ⟨cause, -, hanswer, hfailed⟩ | ⟨-, hanswer, -⟩ :=
      hoccurs.cases
    · rw [Act.TakesQuit, Act.result, hkeyboard] at htakes
      exact absurd htakes start.frontend.keyboard.not_tookQuit_self
    · exact .inr ⟨cause, hfailed, Shown.ending_eq_failed.mpr hanswer⟩
    · rw [hquit] at hanswer
      exact .inl (Shown.ending_eq_quit.mpr hanswer)
  asked hquit hstarved := by
    -- the request is taken by the last act
    obtain ⟨start, last, hmoment, hoccurs, rfl, hlast | ⟨-, hoverslept⟩⟩ := h.last_moment
    · refine ⟨start, last, [], hmoment, ?_⟩
      obtain ⟨hsound, hstart⟩ := h.persists persists_calm hm hcalm hmoment
      obtain hbefore | htook | hlost :=
        (hoccurs.hears hsound).asked (hoccurs.quit_of_ending (hlast ▸ hquit))
      · exact absurd (hstart.symm.trans hbefore) Bool.false_ne_true
      · exact htook
      · exact absurd (hstarved.symm.trans hlost) Bool.false_ne_true
    · cases hquit.symm.trans hoverslept

end Course

/-- Every run on a terminal that nobody has asked to stop so far, at every frequency and with
every keyboard and every output, does nothing any more once a request to stop has been taken from
the keyboard. -/
theorem run_heeds (hreachable : c.machine.Reachable) (hstatus : c.machine.status = .running)
    (hcalm : c.frontend.quit = false) (frequency : Nat) (durations : List Float) :
    ∃ rounds,
      Account (batchSize frequency) c durations rounds
        (run (batchSize frequency) durations c).1 (run (batchSize frequency) durations c).2 ∧
      Heeds c (rounds.flatMap Round.acts)
        (run (batchSize frequency) durations c).1 (run (batchSize frequency) durations c).2 := by
  obtain ⟨rounds, hcourse⟩ := exists_course_at hreachable.sound hstatus frequency durations
  exact ⟨rounds, hcourse.account, hcourse.heeds hreachable.sound hcalm⟩

/-- If the first step waits for a key and is asked to stop, the run stops with it, whatever the
frequency. -/
theorem run_of_wait_quit {x : Register} (hreachable : c.machine.Reachable)
    (hstatus : c.machine.status = .running) (hfetch : c.machine.Fetches (.waitKey x))
    (hquit : c.frontend.waitKey.2.quit = true) (frequency : Nat) (durations : List Float) :
    run (batchSize frequency) durations c =
      (⟨c.machine.pass.set x c.frontend.waitKey.1, c.frontend.waitKey.2⟩, some .quit) := by
  obtain ⟨n, hn⟩ := exists_batchSize frequency
  let turn : Turn Terminal :=
    ⟨c.machine.pass.set x c.frontend.waitKey.1, c.frontend.waitKey.2, none⟩
  have hturn : c.machine.turn c.frontend = turn := Terminal.turn_of_wait hfetch _
  have hends : turn.endsBatch = true := Turn.endsBatch_eq_true.mpr (.inr (.inl hquit))
  have hbatch : batch (n + 1) c = (turn.console, some .quit) := by
    rw [batch_succ (Machine.step_eq_turn hstatus hreachable.sound.depth_le _), hturn,
      if_pos hends, Turn.ending_eq_quit.mpr ⟨rfl, hquit⟩]
  exact run_of_batch_ends (hn ▸ hbatch)

/-- A program that waits for a key at once, and a user who presses Escape: the wait takes the
request, the register gets zero, and the run ends before any frame. -/
theorem escape_heeded :
    ∃ (c c' : Console Terminal) (rounds : List (Round Terminal)),
      Machine.boot .cosmac (.cycle []) [0xf0, 0x0a] = .ok c.machine ∧
      c.frontend = Terminal.enter .hex { events := [.key .escape] } ∧
      run (batchSize 540) [1.0 / 60.0] c = (c', some .quit) ∧
      c'.machine = c.machine.pass.set (lastDigit 0) 0 ∧ c'.frontend.keyboard.events = [] ∧
      (∃ start act after, Moment c (rounds.flatMap Round.acts) start act after ∧
        act.TakesQuit start) ∧
      Account (batchSize 540) c [1.0 / 60.0] rounds c' (some .quit) ∧
      Heeds c (rounds.flatMap Round.acts) c' (some .quit) := by
  obtain ⟨m, hboot, hreachable, hstatus, -, -, hfetch⟩ :=
    Machine.boot_instruction (i := .waitKey (lastDigit 0)) .cosmac (.cycle []) 0xf0 0x0a (by decide)
  let c : Console Terminal := ⟨m, Terminal.enter .hex { events := [.key .escape] }⟩
  have hrun := run_of_wait_quit (c := c) hreachable hstatus hfetch rfl 540 [1.0 / 60.0]
  obtain ⟨rounds, haccount, hheeds⟩ :=
    run_heeds (c := c) hreachable hstatus rfl 540 [1.0 / 60.0]
  rw [hrun] at haccount hheeds
  exact ⟨c, _, rounds, hboot, rfl, hrun, rfl, rfl, hheeds.asked rfl rfl, haccount, hheeds⟩

end Chip8.Console
