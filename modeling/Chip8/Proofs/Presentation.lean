import Chip8.Proofs.Journal
import Chip8.Proofs.Stopping

/-!
# Presenting what was drawn

A terminal takes note of every call that changes the picture, and a batch ends after a step that
made one. So each picture is shown before the next one is drawn: the step that drew it is the last
of its batch, and the frame after it comes before every other step.
-/
namespace Chip8

def Call.draws : Call → Bool
  | clear | plot _ => true
  | _ => false

namespace Terminal

theorem dirty_deliver (notice : Notice) (t : Terminal) :
    (notice.deliver t).dirty = (t.dirty || notice.call.draws) := by
  cases notice with
  | clear | plot dot => exact (Bool.or_true _).symm
  | setDelay value | setSound value => exact (Bool.or_false _).symm

/-- A terminal takes note of what was drawn until it is shown. -/
theorem dirty_foldl_deliver (notices : List Notice) (t : Terminal) :
    (notices.foldl Notice.deliver t).dirty =
      (t.dirty || notices.any fun notice => notice.call.draws) := by
  induction notices generalizing t with
  | nil => exact (Bool.or_false _).symm
  | cons notice notices ih =>
    rw [List.foldl_cons, ih, dirty_deliver, List.any_cons, Bool.or_assoc]

end Terminal

namespace Console

/-- The next step of a console clears the display or plots a pixel. -/
def Draws {F : Type} [Frontend F] (c : Console F) : Prop :=
  ∃ call ∈ c.machine.calls c.frontend, call.draws = true

variable {c c' start : Console Terminal} {turn : Turn Terminal} {ending : Option Ending}

/-- A step that draws leaves the terminal with something to show. -/
theorem Draws.dirty (h : c.Draws) (hm : c.machine.Sound) (hoccurs : (Act.step turn).Occurs c) :
    turn.host.dirty = true := by
  obtain ⟨call, hcall, hdraws⟩ := h
  rw [Machine.calls_eq hoccurs.1 hm.depth_le] at hcall
  rw [← hm.turn_eq hoccurs.2, Machine.turn]
  cases heffect : c.machine.effect with
  | error cause =>
    rw [heffect] at hcall
    cases hcall
  | ok effect =>
    rw [heffect] at hcall
    cases effect with
    | proceed notices next =>
      obtain ⟨notice, hnotice, rfl⟩ := List.mem_map.mp hcall
      have hany : (notices.any fun notice => notice.call.draws) = true :=
        List.any_eq_true.mpr ⟨notice, hnotice, hdraws⟩
      exact (Terminal.dirty_foldl_deliver ..).trans (by rw [hany, Bool.or_true])
    | readDelay resume | testKey key resume | waitKey resume =>
      rw [List.mem_singleton.mp hcall] at hdraws
      cases hdraws

/-- How drawing goes together with the batches and the frames of a run. -/
structure Presents (c : Console Terminal) (rounds : List (Round Terminal))
    (ending : Option Ending) : Prop where
  /-- A step that draws is the last one of its batch. -/
  last : ∀ start turn rest, InBatch c rounds start turn rest → start.Draws → rest = []
  /-- A frame follows it, unless nothing does, because the run ends with it or breaks off. -/
  followed : ∀ start turn after,
    Moment c (rounds.flatMap Round.acts) start (.step turn) after → start.Draws →
    (∃ shown later, after = .frame shown :: later) ∨
      after = [] ∧ (ending = turn.ending ∨ turn.ending = none ∧ ending = some .overslept)
  /-- Before any other step is taken, whether it draws or not, all that was drawn has been shown. No
  two steps between a frame and the next one can both draw. -/
  shown : ∀ start turn middle turn' after,
    Moment c (rounds.flatMap Round.acts) start (.step turn) (middle ++ .step turn' :: after) →
    start.Draws →
    ∃ shown later, middle = .frame shown :: later ∧ shown.answer = .ok true ∧
      shown.frontend.output.queued = #[]

namespace Course

variable {n : Nat} {durations : List Float} {rounds : List (Round Terminal)}
  {after : List (Act Terminal)}

theorem endsBatch_of_draws (h : Course n c durations rounds c' ending) (hm : c.machine.Sound)
    (hmoment : Moment c (rounds.flatMap Round.acts) start (.step turn) after)
    (hdraws : start.Draws) : turn.endsBatch = true :=
  Turn.endsBatch_eq_true.mpr
    (.inr (.inr (hdraws.dirty (h.sound_at hm hmoment) (hmoment.occurs h.acts).1)))

/-- A frame with acts after it has shown all that was drawn. -/
theorem queued_of_frame (h : Course n c durations rounds c' ending) {shown : Shown Terminal}
    (hmoment : Moment c (rounds.flatMap Round.acts) start (.frame shown) after)
    (hafter : after ≠ []) :
    shown.answer = .ok true ∧ shown.frontend.output.queued = #[] := by
  obtain ⟨hshows, -⟩ := hmoment.occurs h.acts
  have hgoesOn : shown.ending = none := h.goesOn_after hmoment hafter
  exact ⟨Shown.ending_eq_none.mp hgoesOn, (Shows.of_goesOn hshows hgoesOn).2.2.2⟩

theorem presents (h : Course n c durations rounds c' ending) (hm : c.machine.Sound) :
    Presents c rounds ending := by
  have hfollowed (start : Console Terminal) (turn : Turn Terminal) (after : List (Act Terminal))
      (hmoment : Moment c (rounds.flatMap Round.acts) start (.step turn) after)
      (hdraws : start.Draws) :=
    h.after_batch hmoment (h.endsBatch_of_draws hm hmoment hdraws)
  refine ⟨fun start turn rest hbatch hdraws => ?_, hfollowed, ?_⟩
  · obtain ⟨after, hmoment⟩ := hbatch.moment
    have hends := h.endsBatch_of_draws hm hmoment hdraws
    obtain ⟨earlier, round, later, turns, hrounds, hturns, -⟩ := hbatch
    have hround : round ∈ rounds := hrounds ▸ List.mem_append_right _ (List.mem_cons_self ..)
    exact h.rest_eq_nil hround hturns hends
  · intro start turn middle turn' after hmoment hdraws
    obtain ⟨shown, later, hlater⟩ | ⟨hnil, -⟩ := hfollowed _ _ _ hmoment hdraws
    · obtain ⟨-, hsteps⟩ | ⟨rest, rfl, rfl⟩ := List.append_eq_cons_iff.mp hlater
      · cases hsteps
      · have hmore : rest ++ .step turn' :: after ≠ [] :=
          List.append_ne_nil_of_right_ne_nil _ (List.cons_ne_nil _ _)
        exact ⟨shown, rest, rfl, h.queued_of_frame (hmoment.next h.acts) hmore⟩
    · cases List.append_eq_nil_iff.mp hnil |>.2

end Course

/-- In every run on a terminal, at every frequency, each picture is shown before it is drawn
over. -/
theorem run_presents (hreachable : c.machine.Reachable) (hstatus : c.machine.status = .running)
    (frequency : Nat) (durations : List Float) :
    ∃ rounds,
      Account (batchSize frequency) c durations rounds
        (run (batchSize frequency) durations c).1 (run (batchSize frequency) durations c).2 ∧
      Presents c rounds (run (batchSize frequency) durations c).2 := by
  obtain ⟨rounds, hcourse⟩ := exists_course_at hreachable.sound hstatus frequency durations
  exact ⟨rounds, hcourse.account, hcourse.presents hreachable.sound⟩

/-- A program that clears the screen and then halts: nothing is taken after the first step of a
batch of nine until a frame has sent the picture to the terminal. -/
theorem cleared_run_presents :
    ∃ (c c' : Console Terminal) (rounds : List (Round Terminal)),
      Machine.boot .cosmac (.cycle []) [0x00, 0xe0, 0x00, 0x00] = .ok c.machine ∧
      c.frontend = Terminal.enter .hex {} ∧ c.Draws ∧
      run (batchSize 540) [1.0 / 60.0] c = (c', some (.halted .illegalInstruction)) ∧
      c'.frontend.output.shown = Piece.prepare.toArray ++ #[.clear] ∧
      c'.frontend.output.queued = #[] ∧
      Account (batchSize 540) c [1.0 / 60.0] rounds c' (some (.halted .illegalInstruction)) ∧
      Presents c rounds (some (.halted .illegalInstruction)) := by
  obtain ⟨m, hboot, hreachable, hstatus, -, -, -, hpc, hwords⟩ :=
    Machine.exists_boot .cosmac (.cycle []) [0x00, 0xe0, 0x00, 0x00]
      (Nat.le_of_lt (show 4 < Memory.programRoom by decide))
  have hdepth := hreachable.sound.depth_le
  have hfetch : m.Fetches .clearScreen :=
    Machine.fetches_of_pc hpc (by decide) (hwords 0 (by simp))
  let c : Console Terminal := ⟨m, Terminal.enter .hex {}⟩
  let m₁ : Machine := { m.pass with display := .dark }
  have hcalls : c.machine.calls c.frontend = [.clear] := by
    rw [Machine.calls_eq hstatus hdepth, hfetch.effect_eq]
    rfl
  have hbatch : batch (8 + 1) c = (⟨m₁, Host.clear c.frontend⟩, none) :=
    batch_of_clear hfetch hstatus hdepth rfl rfl
  let t : Terminal := ({ Host.clear c.frontend with timers := {} } : Terminal).present.2
  have hadvance : Timers.advance {} (1.0 / 60.0) = some (1, {}) := rfl
  have hshows : Shows ⟨m₁, Host.clear c.frontend⟩ ⟨1.0 / 60.0, .ok true, t⟩ :=
    ⟨1, {}, hadvance, rfl⟩
  have hframe := frame_of_shows hshows
  have hpc₁ : m₁.pc.toNat = 0x202 := hfetch.1.toNat_pc_pass.trans (congrArg (· + 2) hpc)
  have hlast : batch (8 + 1) ⟨m₁, t⟩ =
      (⟨m₁.halt .illegalInstruction, t⟩, some (.halted .illegalInstruction)) := by
    rw [batch_succ (Machine.step_eq_turn (m := m₁) hstatus hdepth t),
      Machine.turn_of_zero hpc₁ (by decide) (hwords 2 (by simp))]
    rfl
  have hsize : batchSize 540 = 8 + 1 := by decide
  have hrun : run (batchSize 540) [1.0 / 60.0] c =
      (⟨m₁.halt .illegalInstruction, t⟩, some (.halted .illegalInstruction)) := by
    rw [hsize, run_cons hbatch hframe, run_of_batch_ends hlast]
  obtain ⟨rounds, haccount, hpresents⟩ :=
    run_presents (c := c) hreachable hstatus 540 [1.0 / 60.0]
  rw [hrun] at haccount hpresents
  exact ⟨c, _, rounds, hboot, rfl, ⟨.clear, hcalls ▸ List.mem_singleton_self _, rfl⟩, hrun, rfl,
    rfl, haccount, hpresents⟩

end Console
end Chip8
