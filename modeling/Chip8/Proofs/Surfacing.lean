import Chip8.Proofs.Presentation
import Chip8.Proofs.Waiting

/-!
# Failures that come to light, and one that does not

An error that a terminal meets during a step cannot be reported at once. It is kept, and the next
frame fails with it. After a step that drew there is a frame, so that every failure to send is
reported, and a wait for a key has nothing to send that could fail. But a wait that cannot read the
keyboard any more keeps its error and asks to stop. The run ends at once, before any frame, as if
the user had stopped it, and nobody learns of the error.
-/
namespace Chip8

namespace Terminal

variable {t t' t'' : Terminal} {cause : OsError}

/-! ## Errors that are kept -/

/-- The terminal `t'` comes from `t` by requests that write something, and it has kept the first of
the errors of these requests, unless `t` had kept one already. -/
structure Remembers (t t' : Terminal) : Prop where
  leads : t.output.Leads t'.output
  kept : ∀ cause, t.pending = some cause → t'.pending = some cause
  origin : ∀ cause, t'.pending = some cause →
    t.pending = some cause ∨ t.output.FailedWith t'.output cause
  failed : ∀ cause, t.output.FailedWith t'.output cause → ∃ first, t'.pending = some first

/-- There is nothing to remember if nothing is written. -/
theorem remembers_of_eq (houtput : t'.output = t.output) (hpending : t'.pending = t.pending) :
    Remembers t t' where
  leads := houtput ▸ .refl _
  kept _ h := hpending.trans h
  origin _ h := .inl (hpending.symm.trans h)
  failed _ h := absurd (houtput ▸ h) (Output.not_failedWith rfl rfl)

theorem Remembers.trans (h : Remembers t t') (h' : Remembers t' t'') : Remembers t t'' where
  leads := h.leads.trans h'.leads
  kept _ hpending := h'.kept _ (h.kept _ hpending)
  origin cause hpending := by
    obtain hbefore | hsecond := h'.origin cause hpending
    · exact (h.origin cause hbefore).imp_right fun hfirst => hfirst.extend_right h'.leads
    · exact .inr (hsecond.extend_left h.leads)
  failed cause hfailed := by
    obtain hfirst | hsecond := hfailed.split h.leads
    · obtain ⟨first, hpending⟩ := h.failed cause hfirst
      exact ⟨first, h'.kept first hpending⟩
    · exact h'.failed cause hsecond

theorem remembers_write (t : Terminal) (pieces : List Piece) : Remembers t (t.write pieces) := by
  have hfailed (cause : OsError) : t.output.FailedWith (t.output.queue pieces).2 cause ↔
      (t.output.queue pieces).1 = some cause := Output.failedWith_queue_iff
  have hwrite : t.write pieces = { t with
      output := (t.output.queue pieces).2
      dirty := true
      pending := t.pending.or (t.output.queue pieces).1 } := rfl
  rw [hwrite]
  refine ⟨t.output.leads_queue pieces, fun cause hcause => ?_, fun cause hcause => ?_,
    fun cause hcause => ?_⟩
  · exact Option.or_eq_some_iff.mpr (.inl hcause)
  · exact (Option.or_eq_some_iff.mp hcause).imp_right fun hown => (hfailed cause).mpr hown.2
  · cases hpending : t.pending with
    | some first => exact ⟨first, rfl⟩
    | none => exact ⟨cause, (hfailed cause).mp hcause⟩

theorem remembers_deliver (notice : Notice) (t : Terminal) : Remembers t (notice.deliver t) := by
  cases notice with
  | clear => exact t.remembers_write [.clear]
  | plot dot => exact t.remembers_write (Piece.dot dot)
  | setDelay value | setSound value => exact remembers_of_eq rfl rfl

theorem remembers_foldl_deliver (notices : List Notice) (t : Terminal) :
    Remembers t (notices.foldl Notice.deliver t) := by
  induction notices generalizing t with
  | nil => exact remembers_of_eq rfl rfl
  | cons notice notices ih => exact (remembers_deliver notice t).trans (ih _)

/-! ## Between drawing and showing -/

/-- Only a terminal with something to show can have something to send, or an error to report. -/
def Settled (t : Terminal) : Prop :=
  t.dirty = false → t.output.queued = #[] ∧ t.pending = none

theorem Settled.deliver (h : Settled t) (notice : Notice) : Settled (notice.deliver t) := by
  cases notice with
  | clear | plot dot =>
    intro hdirty
    cases hdirty
  | setDelay value | setSound value => exact h

theorem Settled.foldl_deliver (h : Settled t) (notices : List Notice) :
    Settled (notices.foldl Notice.deliver t) := by
  induction notices generalizing t with
  | nil => exact h
  | cons notice notices ih => exact ih (h.deliver notice)

theorem dirty_waitKey (t : Terminal) : t.waitKey.2.dirty = t.dirty := by
  rw [waitKey_eq]

/-- A wait leaves nothing to report behind, unless it finds the keyboard gone. -/
theorem Settled.waitKey (h : Settled t) (hcalm : t.waitKey.2.quit = false) :
    Settled t.waitKey.2 := by
  intro hdirty
  rw [dirty_waitKey] at hdirty
  obtain ⟨hqueued, hpending⟩ := h hdirty
  rw [output_waitKey, Output.flush_of_queued hqueued]
  refine ⟨hqueued, ?_⟩
  obtain hkept | ⟨-, hquit⟩ := t.pending_waitKey
  · rw [hkept, hpending, Output.flush_of_queued hqueued]
    rfl
  · cases hcalm.symm.trans hquit

/-- What a turn leaves behind, as long as nobody has asked to stop. -/
theorem Settled.turn (h : Settled t) (m : Machine) (hcalm : (m.turn t).host.quit = false) :
    Settled (m.turn t).host := by
  obtain ⟨x, -, hturn⟩ | ⟨-, notices, hhost, -⟩ := turn_on_terminal m t
  · rw [hturn] at hcalm ⊢
    exact h.waitKey hcalm
  · rw [hhost]
    exact h.foldl_deliver notices

/-- Nothing is drawn that has not been shown, so that there is nothing to send and no error to
report, and nobody has asked to stop. -/
structure Idle (t : Terminal) : Prop where
  quit : t.quit = false
  dirty : t.dirty = false
  queued : t.output.queued = #[]
  pending : t.pending = none

/-- A terminal with its screen prepared, where everything that is sent may fail later on. -/
def enterUnreliable (keymap : Keymap) (keyboard : Keyboard)
    (outcome spillOutcome : Nat → Option OsError) : Terminal :=
  { enter keymap keyboard with
    output := { (enter keymap keyboard).output with outcome, spillOutcome } }

theorem idle_enterUnreliable (keymap : Keymap) (keyboard : Keyboard)
    (outcome spillOutcome : Nat → Option OsError) :
    Idle (enterUnreliable keymap keyboard outcome spillOutcome) :=
  ⟨rfl, rfl, rfl, rfl⟩

theorem Idle.settled (h : Idle t) : Settled t :=
  fun _ => ⟨h.queued, h.pending⟩

variable {m : Machine} {x : Register}

/-- A wait has nothing to send that could fail. -/
theorem Idle.output_turn (h : Idle t) (hfetch : m.Fetches (.waitKey x)) :
    (m.turn t).host.output = t.output := by
  rw [hfetch.turn_host_waitKey]
  exact (output_waitKey t).trans (by rw [Output.flush_of_queued h.queued])

/-- A turn in which something fails goes on, with an error to report and something to show. -/
theorem Idle.turn_of_failedWith (h : Idle t)
    (hfailed : t.output.FailedWith (m.turn t).host.output cause) :
    ∃ first, t.output.FailedWith (m.turn t).host.output first ∧
      (m.turn t).host.pending = some first ∧ (m.turn t).host.dirty = true ∧
      (m.turn t).ending = none := by
  obtain ⟨x, hfetch, -⟩ | ⟨-, notices, hhost, hfault⟩ := turn_on_terminal m t
  · rw [h.output_turn hfetch] at hfailed
    exact absurd hfailed (Output.not_failedWith rfl rfl)
  · have hremembers := remembers_foldl_deliver notices t
    rw [← hhost] at hremembers
    obtain ⟨first, hpending⟩ := hremembers.failed cause hfailed
    obtain hbefore | hfirst := hremembers.origin first hpending
    · cases h.pending.symm.trans hbefore
    · have hquit : (m.turn t).host.quit = false := by
        rw [hhost, (keyboard_foldl_deliver notices t).2, h.quit]
      have hdirty : (m.turn t).host.dirty = true := by
        by_contra hclean
        have hsettled : Settled (m.turn t).host := hhost ▸ h.settled.foldl_deliver notices
        cases (hsettled (Bool.eq_false_of_not_eq_true hclean)).2.symm.trans hpending
      have hfault : (m.turn t).fault = none := by
        obtain hfault | rfl := hfault
        · exact hfault
        · rw [hhost] at hfailed
          exact absurd hfailed (Output.not_failedWith rfl rfl)
      exact ⟨first, hfirst, hpending, hdirty, Turn.ending_eq_none.mpr ⟨hfault, hquit⟩⟩

/-- A wait that is never answered finds the keyboard gone. Its error is kept, if there was none
before, and the terminal is asked to stop. -/
theorem Idle.waitKey_of_not_answered (h : Idle t) (hnot : ¬ t.Answered) :
    t.waitKey.1 = 0 ∧ t.waitKey.2.quit = true ∧ t.waitKey.2.pending = some hangup := by
  obtain ⟨skipped, event, wait, k, -, hsplit, htakes⟩ | ⟨k, hscan, -⟩ :=
    scanLooks_split t.keymap t.quit (k := t.keyboard) rfl
  · have hevent : event ∈ t.keyboard.upcoming :=
      hsplit ▸ List.mem_append_right _ (List.mem_cons_self ..)
    exact absurd ⟨event, hevent, htakes.ends⟩ hnot
  · rw [waitKey_of_starved hscan, Output.flush_of_queued h.queued, h.pending]
    exact ⟨rfl, rfl, rfl⟩

/-- A machine that waits for a key gets zero if it is never answered, and goes on. -/
theorem Idle.turn_of_not_answered (h : Idle t) (hfetch : m.Fetches (.waitKey x))
    (hnot : ¬ t.Answered) : m.turn t = ⟨m.pass.set x 0, t.waitKey.2, none⟩ := by
  rw [turn_of_wait hfetch, (h.waitKey_of_not_answered hnot).1]

/-- A turn in which the user asks to stop leaves no error behind, unless it is a wait that is never
answered. -/
theorem Idle.pending_turn (h : Idle t) (hquit : (m.turn t).host.quit = true)
    (hanswered : ∀ x, m.Fetches (.waitKey x) → t.Answered) : (m.turn t).host.pending = none := by
  obtain ⟨x, hfetch, hturn⟩ | ⟨-, notices, hhost, -⟩ := turn_on_terminal m t
  · obtain ⟨skipped, event, htakes⟩ | ⟨hnot, -⟩ := t.waitKey_cases
    · rw [hturn, htakes.others, h.pending, Output.flush_of_queued h.queued]
      rfl
    · exact absurd (hanswered x hfetch) hnot
  · rw [hhost, (keyboard_foldl_deliver notices t).2, h.quit] at hquit
    cases hquit

end Terminal

namespace Console

variable {c c' start : Console Terminal} {turn : Turn Terminal} {ending : Option Ending}

/-! ## Runs -/

/-- What failures do to a run, by its acts and its ending. -/
structure Surfaces (c : Console Terminal) (acts : List (Act Terminal)) (c' : Console Terminal)
    (ending : Option Ending) : Prop where
  /-- A wait for a key sends nothing that could fail. -/
  waits : ∀ start turn after x cause, Moment c acts start (.step turn) after →
    start.machine.Fetches (.waitKey x) →
    ¬ start.frontend.output.FailedWith turn.host.output cause
  /-- If something cannot be sent in a step, one such error is kept, and the run ends with the frame
  after it and with this error, unless it breaks off before the frame. -/
  failed : ∀ start turn after cause, Moment c acts start (.step turn) after →
    start.frontend.output.FailedWith turn.host.output cause →
    ∃ first, start.frontend.output.FailedWith turn.host.output first ∧
      turn.host.pending = some first ∧
      ((∃ shown, after = [.frame shown]) ∧ ending = some (.failed (.io first)) ∨
        after = [] ∧ (ending = none ∨ ending = some .overslept))
  /-- So nothing failed to be sent in any step of a run that the user stopped. -/
  stopped : ending = some .quit → ∀ start turn after cause,
    Moment c acts start (.step turn) after →
    ¬ start.frontend.output.FailedWith turn.host.output cause
  /-- But a wait that cannot read the keyboard any more keeps its error, and the run ends at once as
  if the user had stopped it. No frame comes after it that could report the error. -/
  lost : ∀ start turn after x, Moment c acts start (.step turn) after →
    start.machine.Fetches (.waitKey x) → ¬ start.frontend.Answered →
    turn.host.pending = some hangup ∧ turn.machine = start.machine.pass.set x 0 ∧ after = [] ∧
      ending = some .quit
  /-- A run that ends like this leaves no error behind exactly if each of its waits was answered. -/
  clean : ending = some .quit →
    (c'.frontend.pending = none ↔ ∀ start turn after x, Moment c acts start (.step turn) after →
      start.machine.Fetches (.waitKey x) → start.frontend.Answered)

theorem persists_settled :
    Persists fun c : Console Terminal => c.frontend.quit = false ∧ c.frontend.Settled := by
  intro c act hm hoccurs hgoesOn h
  have hcalm := hoccurs.quit_of_goesOn hgoesOn
  refine ⟨hcalm, ?_⟩
  cases act with
  | step turn =>
    have hturn := hm.turn_eq hoccurs.2
    exact hturn ▸ h.2.turn c.machine (hturn.symm ▸ hcalm)
  | frame shown =>
    obtain ⟨-, hpending, -, hqueued⟩ := hoccurs.of_goesOn hgoesOn
    exact fun _ => ⟨hqueued, hpending⟩

/-- A frame fails with the error that was kept. -/
theorem Shows.of_pending {shown : Shown Terminal} {cause : OsError} (h : c.Shows shown)
    (hpending : c.frontend.pending = some cause) : shown.answer = .error (.io cause) := by
  obtain ⟨own, hown, hanswer, -⟩ | ⟨own, hnone, -⟩ | ⟨hnone, -⟩ := h.cases
  · cases hown.symm.trans hpending
    exact hanswer
  · cases hnone.symm.trans hpending
  · cases hnone.symm.trans hpending

namespace Course

variable {n : Nat} {durations : List Float} {rounds : List (Round Terminal)}
  {after : List (Act Terminal)}

/-- Every step starts from an idle terminal: if there was something to show after the act before it,
a frame would have come in between. -/
theorem idle_at (h : Course n c durations rounds c' ending) (hm : c.machine.Sound)
    (hidle : c.frontend.Idle)
    (hmoment : Moment c (rounds.flatMap Round.acts) start (.step turn) after) :
    start.machine.Sound ∧ start.frontend.Idle := by
  obtain ⟨hsound, hcalm, hsettled⟩ :=
    h.persists persists_settled hm ⟨hidle.quit, hidle.settled⟩ hmoment
  have hdirty : start.frontend.dirty = false := by
    obtain rfl | ⟨start', previous, hprevious, hoccurs, rfl⟩ := hmoment.eq_or_previous h.acts
    · exact hidle.dirty
    · cases previous with
      | frame shown =>
        have hgoesOn := h.goesOn_after hprevious (List.cons_ne_nil _ _)
        exact (hoccurs.of_goesOn hgoesOn).2.2.1
      | step earlier =>
        by_contra hdrawn
        have hends : earlier.endsBatch = true :=
          Turn.endsBatch_eq_true.mpr (.inr (.inr (Bool.eq_true_of_not_eq_false hdrawn)))
        obtain ⟨shown, later, hlater⟩ | ⟨hnil, -⟩ := h.after_batch hprevious hends
        · cases hlater
        · cases hnil
  obtain ⟨hqueued, hpending⟩ := hsettled hdirty
  exact ⟨hsound, hcalm, hdirty, hqueued, hpending⟩

/-- If something fails in a step, the run ends with the frame after it or breaks off before. -/
theorem ending_of_failedWith (h : Course n c durations rounds c' ending) (hm : c.machine.Sound)
    (hidle : c.frontend.Idle)
    (hmoment : Moment c (rounds.flatMap Round.acts) start (.step turn) after) {cause : OsError}
    (hfailed : start.frontend.output.FailedWith turn.host.output cause) :
    ∃ first, start.frontend.output.FailedWith turn.host.output first ∧
      turn.host.pending = some first ∧
      ((∃ shown, after = [.frame shown]) ∧ ending = some (.failed (.io first)) ∨
        after = [] ∧ (ending = none ∨ ending = some .overslept)) := by
  obtain ⟨hsound, hstart⟩ := h.idle_at hm hidle hmoment
  have hturn := hsound.turn_eq (hmoment.occurs h.acts).1.2
  rw [← hturn] at hfailed
  obtain ⟨first, hfirst, hpending, hdirty, hgoesOn⟩ := hstart.turn_of_failedWith hfailed
  rw [hturn] at hfirst hpending hdirty hgoesOn
  refine ⟨first, hfirst, hpending, ?_⟩
  have hends : turn.endsBatch = true := Turn.endsBatch_eq_true.mpr (.inr (.inr hdirty))
  obtain ⟨shown, later, rfl⟩ | ⟨hnil, hending⟩ := h.after_batch hmoment hends
  · have hnext := hmoment.next h.acts
    have hshown : Act.ending (.frame shown) = some (.failed (.io first)) :=
      Shown.ending_eq_failed.mpr (Shows.of_pending (hnext.occurs h.acts).1 hpending)
    obtain ⟨rfl, hending⟩ := h.ends_of_ending hnext (hshown ▸ Option.some_ne_none _)
    exact .inl ⟨⟨shown, rfl⟩, hending.trans hshown⟩
  · exact .inr ⟨hnil, hending.imp (fun heq => heq.trans hgoesOn) And.right⟩

/-- A wait that is never answered ends the run, with its error kept. -/
theorem ending_of_not_answered (h : Course n c durations rounds c' ending) (hm : c.machine.Sound)
    (hidle : c.frontend.Idle)
    (hmoment : Moment c (rounds.flatMap Round.acts) start (.step turn) after) {x : Register}
    (hfetch : start.machine.Fetches (.waitKey x)) (hnot : ¬ start.frontend.Answered) :
    turn.host.pending = some hangup ∧ turn.machine = start.machine.pass.set x 0 ∧ after = [] ∧
      ending = some .quit := by
  obtain ⟨hsound, hstart⟩ := h.idle_at hm hidle hmoment
  have hturn := hsound.turn_eq (hmoment.occurs h.acts).1.2
  rw [hstart.turn_of_not_answered hfetch hnot] at hturn
  obtain ⟨-, hquit, hpending⟩ := hstart.waitKey_of_not_answered hnot
  have hends : Act.ending (.step turn) = some .quit :=
    Turn.ending_eq_quit.mpr ⟨by rw [← hturn], by rw [← hturn]; exact hquit⟩
  obtain ⟨hafter, hending⟩ := h.ends_of_ending hmoment (hends ▸ Option.some_ne_none _)
  exact ⟨by rw [← hturn]; exact hpending, by rw [← hturn], hafter, hending.trans hends⟩

/-- A run that is stopped leaves no error behind if its waits are answered. -/
theorem pending_of_quit (h : Course n c durations rounds c' (some .quit)) (hm : c.machine.Sound)
    (hidle : c.frontend.Idle)
    (hanswered : ∀ start turn after x,
      Moment c (rounds.flatMap Round.acts) start (.step turn) after →
      start.machine.Fetches (.waitKey x) → start.frontend.Answered) :
    c'.frontend.pending = none := by
  obtain ⟨start, last, hmoment, hoccurs, rfl, hlast | ⟨-, hoverslept⟩⟩ := h.last_moment
  · cases last with
    | frame shown =>
      have hquit := Shown.ending_eq_quit.mp hlast.symm
      obtain ⟨cause, -, hanswer, -⟩ | ⟨cause, -, hanswer, -⟩ | ⟨-, -, hpending, -⟩ :=
        Shows.cases hoccurs
      · cases hanswer.symm.trans hquit
      · cases hanswer.symm.trans hquit
      · exact hpending
    | step turn =>
      obtain ⟨hsound, hstart⟩ := h.idle_at hm hidle hmoment
      have hturn := hsound.turn_eq hoccurs.2
      have hasked : turn.host.quit = true := hoccurs.quit_of_ending hlast.symm
      rw [← hturn] at hasked
      exact hturn ▸ hstart.pending_turn hasked (hanswered start turn [] · hmoment)
  · cases hoverslept

/-- What failures do to a run on an idle terminal. -/
theorem surfaces (h : Course n c durations rounds c' ending) (hm : c.machine.Sound)
    (hidle : c.frontend.Idle) : Surfaces c (rounds.flatMap Round.acts) c' ending where
  waits start turn after x cause hmoment hfetch := by
    obtain ⟨hsound, hstart⟩ := h.idle_at hm hidle hmoment
    have hturn := hsound.turn_eq (hmoment.occurs h.acts).1.2
    rw [← hturn, hstart.output_turn hfetch]
    exact Output.not_failedWith rfl rfl
  failed _ _ _ _ hmoment hfailed := h.ending_of_failedWith hm hidle hmoment hfailed
  stopped hquit start turn after cause hmoment hfailed := by
    subst hquit
    obtain ⟨first, -, -, ⟨-, hfirst⟩ | ⟨-, hnone | hoverslept⟩⟩ :=
      h.ending_of_failedWith hm hidle hmoment hfailed
    · cases hfirst
    · cases hnone
    · cases hoverslept
  lost _ _ _ _ hmoment hfetch hnot := h.ending_of_not_answered hm hidle hmoment hfetch hnot
  clean hquit := by
    subst hquit
    refine ⟨fun hpending start turn after x hmoment hfetch => ?_, h.pending_of_quit hm hidle⟩
    by_contra hnot
    obtain ⟨hlost, -, rfl, -⟩ := h.ending_of_not_answered hm hidle hmoment hfetch hnot
    cases (hmoment.occurs h.acts).2
    cases hlost.symm.trans hpending

end Course

/-- In every run on a terminal with its screen prepared, at every frequency, with every keyboard and
with any pattern of failures to send, the failures to send come to light. The error of a wait that
cannot read the keyboard any more does not. The timers hold up the run only in a round that takes
more than a year. -/
theorem run_surfaces (hreachable : c.machine.Reachable) (hstatus : c.machine.status = .running)
    {keymap : Keymap} {keyboard : Keyboard} {outcome spillOutcome : Nat → Option OsError}
    (hfrontend : c.frontend = .enterUnreliable keymap keyboard outcome spillOutcome)
    (frequency : Nat) (durations : List Float) :
    ∃ rounds,
      Account (batchSize frequency) c durations rounds
        (run (batchSize frequency) durations c).1 (run (batchSize frequency) durations c).2 ∧
      Surfaces c (rounds.flatMap Round.acts)
        (run (batchSize frequency) durations c).1 (run (batchSize frequency) durations c).2 ∧
      ((run (batchSize frequency) durations c).2 = some .overslept →
        ∃ seconds ∈ durations, seconds ≥ 33554432.0) := by
  have hidle : c.frontend.Idle := hfrontend ▸ Terminal.idle_enterUnreliable ..
  have hsettled : ¬ c.frontend.timers.elapsed ≥ secondsPerTick := by
    rw [hfrontend]
    exact show ¬ (0.0 : Float) ≥ secondsPerTick by decide
  obtain ⟨rounds, hcourse⟩ := exists_course_at hreachable.sound hstatus frequency durations
  refine ⟨rounds, hcourse.account, hcourse.surfaces hreachable.sound hidle, fun hoverslept => ?_⟩
  rw [hoverslept] at hcourse
  exact hcourse.exists_long_of_overslept hreachable.sound hsettled

/-- A program that waits at once for a key that never comes stops with the first step, whatever the
frequency, and the error of the wait is still kept. -/
theorem run_of_not_answered {x : Register} (hreachable : c.machine.Reachable)
    (hstatus : c.machine.status = .running) (hidle : c.frontend.Idle)
    (hfetch : c.machine.Fetches (.waitKey x)) (hnot : ¬ c.frontend.Answered) (frequency : Nat)
    (durations : List Float) :
    run (batchSize frequency) durations c =
        (⟨c.machine.pass.set x 0, c.frontend.waitKey.2⟩, some .quit) ∧
      c.frontend.waitKey.2.pending = some hangup := by
  obtain ⟨hanswer, hquit, hpending⟩ := hidle.waitKey_of_not_answered hnot
  refine ⟨?_, hpending⟩
  rw [run_of_wait_quit hreachable hstatus hfetch hquit, hanswer]

/-- A program that waits for a key at once, on a terminal whose keyboard is gone. -/
theorem hangup_surfaces :
    ∃ (c : Console Terminal) (rounds : List (Round Terminal)),
      Machine.boot .cosmac (.cycle []) [0xf0, 0x0a] = .ok c.machine ∧
      c.frontend = .enterUnreliable .hex {} (fun _ => some hangup) (fun _ => some hangup) ∧
      (run (batchSize 540) [1.0 / 60.0] c).2 = some .quit ∧
      (run (batchSize 540) [1.0 / 60.0] c).1.frontend.pending = some hangup ∧
      Account (batchSize 540) c [1.0 / 60.0] rounds
        (run (batchSize 540) [1.0 / 60.0] c).1 (run (batchSize 540) [1.0 / 60.0] c).2 ∧
      Surfaces c (rounds.flatMap Round.acts)
        (run (batchSize 540) [1.0 / 60.0] c).1 (run (batchSize 540) [1.0 / 60.0] c).2 := by
  obtain ⟨m, hboot, hreachable, hstatus, -, -, hfetch⟩ :=
    Machine.boot_instruction (i := .waitKey (lastDigit 0)) .cosmac (.cycle []) 0xf0 0x0a (by decide)
  let c : Console Terminal :=
    ⟨m, .enterUnreliable .hex {} (fun _ => some hangup) (fun _ => some hangup)⟩
  have hnot : ¬ c.frontend.Answered := by
    rintro ⟨event, hevent, -⟩
    cases hevent
  obtain ⟨hrun, hpending⟩ := run_of_not_answered (c := c) hreachable hstatus
    (Terminal.idle_enterUnreliable ..) hfetch hnot 540 [1.0 / 60.0]
  obtain ⟨rounds, haccount, hsurfaces, -⟩ :=
    run_surfaces (c := c) hreachable hstatus rfl 540 [1.0 / 60.0]
  exact ⟨c, rounds, hboot, rfl, by rw [hrun], by rw [hrun]; exact hpending, haccount, hsurfaces⟩

/-- So a run that ends as if the user had stopped it can leave an error behind that was never
reported. -/
theorem hangup_unreported :
    ¬ ∀ (c : Console Terminal) (keymap : Keymap) (keyboard : Keyboard)
      (outcome spillOutcome : Nat → Option OsError) (frequency : Nat) (durations : List Float),
      c.machine.Reachable → c.machine.status = .running →
      c.frontend = .enterUnreliable keymap keyboard outcome spillOutcome →
      (run (batchSize frequency) durations c).2 = some .quit →
      (run (batchSize frequency) durations c).1.frontend.pending = none := by
  intro hclaim
  obtain ⟨m, -, hreachable, hstatus, -, -, hfetch⟩ :=
    Machine.boot_instruction (i := .waitKey (lastDigit 0)) .cosmac (.cycle []) 0xf0 0x0a (by decide)
  let c : Console Terminal := ⟨m, .enterUnreliable .hex {} (fun _ => none) (fun _ => none)⟩
  have hnot : ¬ c.frontend.Answered := by
    rintro ⟨event, hevent, -⟩
    cases hevent
  obtain ⟨hrun, hpending⟩ := run_of_not_answered (c := c) hreachable hstatus
    (Terminal.idle_enterUnreliable ..) hfetch hnot 540 []
  have hnone := hclaim c _ _ _ _ 540 [] hreachable hstatus rfl (by rw [hrun])
  rw [hrun] at hnone
  cases hpending.symm.trans hnone

end Console
end Chip8
