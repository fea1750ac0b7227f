import Chip8.Console
import Chip8.Proofs.Reachable

/-!
# The course of a run

A run takes steps of the machine and shows frames of the front end. `Console.Acts` says that a list
of such acts leads from one console to another. `Console.Course` cuts the acts of a run into rounds,
each of them a batch of steps and then a frame, if there is one.

A run that does not end is seen through its beginnings: it has a course for every list of durations,
and the course breaks off when the durations are used up.
-/
namespace Chip8

variable {F : Type}

def statusAfter : Option Ending → Status
  | some (.halted cause) => .halted cause
  | _ => .running

namespace Turn

def console (turn : Turn F) : Console F :=
  ⟨turn.machine, turn.host⟩

variable [Frontend F]

def ending (turn : Turn F) : Option Ending :=
  match turn.fault with
  | some cause => some (.halted cause)
  | none => if Frontend.wantsQuit turn.host then some .quit else none

/-- Whether a turn is the last one of its batch, however few there have been. -/
def endsBatch (turn : Turn F) : Bool :=
  turn.fault.isSome || Frontend.wantsQuit turn.host || Frontend.wantsFrame turn.host

variable {turn : Turn F}

/-- A turn ends a run with its fault or at the user's wish, or the run goes on. -/
theorem ending_spec (turn : Turn F) :
    (∃ cause, turn.fault = some cause ∧ turn.ending = some (.halted cause)) ∨
      (turn.fault = none ∧ Frontend.wantsQuit turn.host = true ∧ turn.ending = some .quit) ∨
      (turn.fault = none ∧ Frontend.wantsQuit turn.host = false ∧ turn.ending = none) := by
  rcases turn with ⟨machine, host, _ | cause⟩
  · cases hquit : Frontend.wantsQuit host with
    | true => exact .inr (.inl ⟨rfl, rfl, if_pos hquit⟩)
    | false => exact .inr (.inr ⟨rfl, rfl, if_neg (Bool.not_eq_true _ ▸ hquit)⟩)
  · exact .inl ⟨cause, rfl, rfl⟩

theorem ending_eq_none :
    turn.ending = none ↔ turn.fault = none ∧ Frontend.wantsQuit turn.host = false := by
  obtain ⟨own, hfault, hend⟩ | ⟨hfault, hquit, hend⟩ | ⟨hfault, hquit, hend⟩ := turn.ending_spec <;>
    simp [*]

theorem ending_eq_halted {cause : Fault} :
    turn.ending = some (.halted cause) ↔ turn.fault = some cause := by
  obtain ⟨own, hfault, hend⟩ | ⟨hfault, -, hend⟩ | ⟨hfault, -, hend⟩ := turn.ending_spec <;>
    simp [hfault, hend]

theorem ending_eq_quit :
    turn.ending = some .quit ↔ turn.fault = none ∧ Frontend.wantsQuit turn.host = true := by
  obtain ⟨own, hfault, hend⟩ | ⟨hfault, hquit, hend⟩ | ⟨hfault, hquit, hend⟩ := turn.ending_spec <;>
    simp [*]

theorem ending_cases {ending : Ending} (h : turn.ending = some ending) :
    ending = .quit ∨ ∃ cause, ending = .halted cause := by
  obtain ⟨cause, -, hend⟩ | ⟨-, -, hend⟩ | ⟨-, -, hend⟩ := turn.ending_spec
  all_goals rw [hend] at h
  · exact .inr ⟨cause, (Option.some.inj h).symm⟩
  · exact .inl (Option.some.inj h).symm
  · cases h

theorem statusAfter_ending :
    (turn.fault.map Status.halted).getD .running = statusAfter turn.ending := by
  obtain ⟨cause, hfault, hend⟩ | ⟨hfault, -, hend⟩ | ⟨hfault, -, hend⟩ := turn.ending_spec
  all_goals
    rw [hfault, hend]
    rfl

theorem endsBatch_eq_true : turn.endsBatch = true ↔
    turn.fault ≠ none ∨ Frontend.wantsQuit turn.host = true ∨
      Frontend.wantsFrame turn.host = true := by
  rw [endsBatch, Bool.or_eq_true, Bool.or_eq_true, Option.isSome_iff_ne_none, or_assoc]

/-- A run does not end in the middle of a batch that goes on. -/
theorem ending_of_goesOn (h : turn.endsBatch = false) : turn.ending = none := by
  rw [endsBatch, Bool.or_eq_false_iff, Bool.or_eq_false_iff, Option.isSome_eq_false_iff,
    Option.isNone_iff_eq_none] at h
  exact ending_eq_none.mpr h.1

end Turn

namespace Console

structure Shown (F : Type) where
  /-- The seconds that pass before it. -/
  seconds : Float
  answer : Except Failure Bool
  /-- The front end after it. -/
  frontend : F

def Shown.ending (shown : Shown F) : Option Ending :=
  match shown.answer with
  | .ok true => none
  | .ok false => some .quit
  | .error cause => some (.failed cause)

theorem Shown.ending_eq_none {shown : Shown F} :
    shown.ending = none ↔ shown.answer = .ok true := by
  rcases shown with ⟨seconds, cause | _ | _, frontend⟩ <;> simp [ending]

theorem Shown.ending_eq_quit {shown : Shown F} :
    shown.ending = some .quit ↔ shown.answer = .ok false := by
  rcases shown with ⟨seconds, cause | _ | _, frontend⟩ <;> simp [ending]

theorem Shown.ending_eq_failed {shown : Shown F} {cause : Failure} :
    shown.ending = some (.failed cause) ↔ shown.answer = .error cause := by
  rcases shown with ⟨seconds, own | _ | _, frontend⟩ <;> simp [ending]

/-- A frame ends a run at the user's wish or with a failure. -/
theorem Shown.ending_cases {shown : Shown F} {ending : Ending} (h : shown.ending = some ending) :
    ending = .quit ∨ ∃ cause, ending = .failed cause := by
  rcases shown with ⟨seconds, cause | _ | _, frontend⟩ <;> simp_all [Shown.ending, eq_comm]

/-- What a run does, with what comes of it. -/
inductive Act (F : Type) where
  | step (turn : Turn F)
  | frame (shown : Shown F)

/-- A round of a run: a batch, whose last turn stands apart, and the frame after it. -/
structure Round (F : Type) where
  before : List (Turn F)
  last : Turn F
  frame : Option (Shown F)

namespace Round

def turns (round : Round F) : List (Turn F) :=
  round.before ++ [round.last]

def acts (round : Round F) : List (Act F) :=
  round.turns.map .step ++ round.frame.toList.map .frame

theorem length_turns (round : Round F) : round.turns.length = round.before.length + 1 := by
  rw [turns, List.length_append, List.length_singleton]

variable {before : List (Turn F)} {last : Turn F}

theorem acts_unframed :
    (⟨before, last, none⟩ : Round F).acts = before.map .step ++ [.step last] := by
  simp [acts, turns]

theorem acts_framed {shown : Shown F} : (⟨before, last, some shown⟩ : Round F).acts =
    before.map .step ++ [.step last] ++ [.frame shown] := by
  simp [acts, turns]

end Round

variable [Frontend F]

def Act.ending : Act F → Option Ending
  | step turn => turn.ending
  | frame shown => shown.ending

/-- A console shows a frame after some seconds. -/
def Shows (c : Console F) (shown : Shown F) : Prop :=
  ∃ ticks timers, (Frontend.timers c.frontend).advance shown.seconds = some (ticks, timers) ∧
    Frontend.present (Frontend.withTimers timers c.frontend) = (shown.answer, shown.frontend)

/-- Acts lead from one console to another. Only a machine that runs takes a step, and a frame leaves
the machine as it is. -/
inductive Acts : Console F → List (Act F) → Console F → Prop where
  | nil (c : Console F) : Acts c [] c
  | step {c c' : Console F} {turn : Turn F} {acts : List (Act F)} :
      c.machine.status = .running → c.machine.step c.frontend = .ok turn →
      Acts turn.console acts c' → Acts c (.step turn :: acts) c'
  | frame {c c' : Console F} {shown : Shown F} {acts : List (Act F)} :
      c.Shows shown → Acts ⟨c.machine, shown.frontend⟩ acts c' → Acts c (.frame shown :: acts) c'

theorem Acts.append {c c' c'' : Console F} {acts acts' : List (Act F)} (h : Acts c acts c')
    (h' : Acts c' acts' c'') : Acts c (acts ++ acts') c'' := by
  induction h with
  | nil => exact h'
  | step hstatus hstep _ ih => exact .step hstatus hstep (ih h')
  | frame hshows _ ih => exact .frame hshows (ih h')

/-! ## Batches -/

/-- A batch of at most `n` turns, the last of which stands apart. -/
structure Batch (n : Nat) (c : Console F) (before : List (Turn F)) (last : Turn F) : Prop where
  acts : Acts c ((before ++ [last]).map .step) last.console
  size : before.length + 1 ≤ n
  goesOn : ∀ turn ∈ before, turn.endsBatch = false
  early : before.length + 1 < n → last.endsBatch = true
  status : last.machine.status = (last.fault.map Status.halted).getD .running

variable {n : Nat} {c c' : Console F} {turn : Turn F}

/-- The run does not end before the last turn of a batch. -/
theorem Batch.ending_before {before : List (Turn F)} {last : Turn F} (h : Batch n c before last) :
    ∀ act ∈ before.map Act.step, act.ending = none :=
  List.forall_mem_map.mpr fun turn hturn => Turn.ending_of_goesOn (h.goesOn turn hturn)

/-- The run does not end with a batch if it does not end with its last turn. -/
theorem Batch.ending_through {before : List (Turn F)} {last : Turn F} (h : Batch n c before last)
    (hlast : last.ending = none) :
    ∀ act ∈ before.map Act.step ++ [.step last], act.ending = none :=
  List.forall_mem_append.mpr ⟨h.ending_before, List.forall_mem_singleton.mpr hlast⟩

theorem batch_succ (h : c.machine.step c.frontend = .ok turn) :
    batch (n + 1) c =
      if turn.endsBatch then (turn.console, turn.ending) else batch n turn.console := by
  rcases turn with ⟨machine, frontend, _ | cause⟩
  · rw [batch, h]
    cases hquit : Frontend.wantsQuit frontend <;> cases hframe : Frontend.wantsFrame frontend <;>
      simp [Turn.endsBatch, Turn.ending, Turn.console, hquit, hframe]
  · rw [batch, h]
    rfl

/-- A batch ends with a step that clears the screen, on a front end that wants this to be shown. -/
theorem batch_of_clear (hfetch : c.machine.Fetches .clearScreen)
    (hstatus : c.machine.status = .running) (hdepth : c.machine.depth ≤ maxDepth)
    (hquit : Frontend.wantsQuit (Host.clear c.frontend) = false)
    (hframe : Frontend.wantsFrame (Host.clear c.frontend) = true) :
    batch (n + 1) c =
      (⟨{ c.machine.pass with display := .dark }, Host.clear c.frontend⟩, none) := by
  rw [batch_succ (Machine.step_eq_turn hstatus hdepth c.frontend), hfetch.turn_clearScreen,
    if_pos (Turn.endsBatch_eq_true.mpr (.inr (.inr hframe))), Turn.ending_eq_none.mpr ⟨rfl, hquit⟩]
  rfl

/-- A batch is taken whole, and the run ends with it if its last turn says so. -/
theorem exists_batch (n : Nat) (hsound : c.machine.Sound) (hstatus : c.machine.status = .running) :
    ∃ before last, Batch (n + 1) c before last ∧ last.machine.Sound ∧
      batch (n + 1) c = (last.console, last.ending) := by
  induction n generalizing c with
  | zero =>
    obtain ⟨turn, hstep⟩ := hsound.exists_step hstatus c.frontend
    obtain ⟨-, hnext, hend⟩ := hsound.step hstep
    have hbatch : Batch (0 + 1) c [] turn :=
      { acts := .step hstatus hstep (.nil _)
        size := Nat.le_refl 1
        goesOn := List.forall_mem_nil _
        early := fun h => absurd h (Nat.lt_irrefl 1)
        status := hend }
    refine ⟨[], turn, hbatch, hnext, ?_⟩
    rw [batch_succ hstep]
    split
    · rfl
    · next hgoesOn => rw [batch, Turn.ending_of_goesOn (Bool.eq_false_iff.mpr hgoesOn)]
  | succ n ih =>
    obtain ⟨turn, hstep⟩ := hsound.exists_step hstatus c.frontend
    obtain ⟨-, hnext, hend⟩ := hsound.step hstep
    cases hlast : turn.endsBatch with
    | true =>
      have hbatch : Batch (n + 1 + 1) c [] turn :=
        { acts := .step hstatus hstep (.nil _)
          size := Nat.le_add_left 1 (n + 1)
          goesOn := List.forall_mem_nil _
          early := fun _ => hlast
          status := hend }
      refine ⟨[], turn, hbatch, hnext, ?_⟩
      rw [batch_succ hstep, if_pos hlast]
    | false =>
      have hrunning : turn.machine.status = .running := by
        rw [hend, (Turn.ending_eq_none.mp (Turn.ending_of_goesOn hlast)).1]
        rfl
      obtain ⟨before, last, hrest, hlastSound, heq⟩ := ih (c := turn.console) hnext hrunning
      have hbatch : Batch (n + 1 + 1) c (turn :: before) last :=
        { acts := .step hstatus hstep hrest.acts
          size := Nat.succ_le_succ hrest.size
          goesOn := List.forall_mem_cons.mpr ⟨hlast, hrest.goesOn⟩
          early := fun h => hrest.early (Nat.lt_of_succ_lt_succ h)
          status := hrest.status }
      refine ⟨turn :: before, last, hbatch, hlastSound, ?_⟩
      rw [batch_succ hstep, hlast, ← heq]
      rfl

/-! ## Frames -/

theorem frame_of_shows {shown : Shown F} (h : c.Shows shown) :
    frame shown.seconds c = (⟨c.machine, shown.frontend⟩, shown.ending) := by
  obtain ⟨ticks, timers, hadvance, hpresent⟩ := h
  rw [frame, hadvance]
  dsimp only
  rw [hpresent]
  rcases shown with ⟨seconds, cause | _ | _, frontend⟩ <;> rfl

/-- A frame is shown, unless the timers cannot catch up with the time that has passed. -/
theorem frame_cases (seconds : Float) (c : Console F) :
    ((Frontend.timers c.frontend).advance seconds = none ∧
        frame seconds c = (c, some .overslept)) ∨
      ∃ shown, shown.seconds = seconds ∧ c.Shows shown ∧
        frame seconds c = (⟨c.machine, shown.frontend⟩, shown.ending) := by
  cases hadvance : (Frontend.timers c.frontend).advance seconds with
  | none => exact .inl ⟨rfl, by rw [frame, hadvance]⟩
  | some advanced =>
    obtain ⟨ticks, timers⟩ := advanced
    rcases hpresent : Frontend.present (Frontend.withTimers timers c.frontend) with
      ⟨answer, frontend⟩
    have hshows : c.Shows ⟨seconds, answer, frontend⟩ := ⟨ticks, timers, hadvance, hpresent⟩
    have hframe := frame_of_shows hshows
    exact .inr ⟨⟨seconds, answer, frontend⟩, rfl, hshows, hframe⟩

/-! ## Rounds -/

/-- The rounds of a run with batches of at most `n` turns and with given durations, the console that
it leaves behind, and its ending. -/
inductive Course (n : Nat) :
    Console F → List Float → List (Round F) → Console F → Option Ending → Prop where
  /-- The run ends with a batch. -/
  | ends {c : Console F} {durations : List Float} {before : List (Turn F)} {last : Turn F}
      {ending : Ending} :
      Batch n c before last → last.ending = some ending →
      Course n c durations [⟨before, last, none⟩] last.console (some ending)
  /-- The durations are used up. -/
  | outlasts {c : Console F} {before : List (Turn F)} {last : Turn F} :
      Batch n c before last → last.ending = none →
      Course n c [] [⟨before, last, none⟩] last.console none
  /-- The timers cannot catch up. -/
  | oversleeps {c : Console F} {seconds : Float} {durations : List Float} {before : List (Turn F)}
      {last : Turn F} :
      Batch n c before last → last.ending = none →
      (Frontend.timers last.host).advance seconds = none →
      Course n c (seconds :: durations) [⟨before, last, none⟩] last.console (some .overslept)
  /-- The run ends with a frame. -/
  | stops {c : Console F} {durations : List Float} {before : List (Turn F)} {last : Turn F}
      {shown : Shown F} {ending : Ending} :
      Batch n c before last → last.ending = none → last.console.Shows shown →
      shown.ending = some ending →
      Course n c (shown.seconds :: durations) [⟨before, last, some shown⟩]
        ⟨last.machine, shown.frontend⟩ (some ending)
  /-- The run goes on after a round. -/
  | goesOn {c c' : Console F} {durations : List Float} {before : List (Turn F)} {last : Turn F}
      {shown : Shown F} {rounds : List (Round F)} {ending : Option Ending} :
      Batch n c before last → last.ending = none → last.console.Shows shown → shown.ending = none →
      Course n ⟨last.machine, shown.frontend⟩ durations rounds c' ending →
      Course n c (shown.seconds :: durations) (⟨before, last, some shown⟩ :: rounds) c' ending

section Run

variable {c'' : Console F} {seconds : Float} {durations : List Float} {ending : Ending}

theorem run_of_batch_ends (h : batch n c = (c', some ending)) :
    run n durations c = (c', some ending) := by
  rw [run.eq_def]
  simp only [h]

theorem run_nil (h : batch n c = (c', none)) : run n [] c = (c', none) := by
  rw [run.eq_def]
  simp only [h]

theorem run_of_frame_ends (h : batch n c = (c', none))
    (hframe : frame seconds c' = (c'', some ending)) :
    run n (seconds :: durations) c = (c'', some ending) := by
  rw [run.eq_def]
  simp only [h, hframe]

theorem run_cons (h : batch n c = (c', none)) (hframe : frame seconds c' = (c'', none)) :
    run n (seconds :: durations) c = run n durations c'' := by
  rw [run.eq_def]
  simp only [h, hframe]

end Run

/-- Every run has a course. -/
theorem exists_course (hsound : c.machine.Sound) (hstatus : c.machine.status = .running)
    (durations : List Float) :
    ∃ rounds, Course (n + 1) c durations rounds (run (n + 1) durations c).1
      (run (n + 1) durations c).2 := by
  induction durations generalizing c with
  | nil =>
    obtain ⟨before, last, hbatch, -, heq⟩ := exists_batch n hsound hstatus
    cases hlast : last.ending with
    | some ending =>
      rw [run_of_batch_ends (hlast ▸ heq)]
      exact ⟨_, .ends hbatch hlast⟩
    | none =>
      rw [run_nil (hlast ▸ heq)]
      exact ⟨_, .outlasts hbatch hlast⟩
  | cons seconds durations ih =>
    obtain ⟨before, last, hbatch, hnext, heq⟩ := exists_batch n hsound hstatus
    cases hlast : last.ending with
    | some ending =>
      rw [run_of_batch_ends (hlast ▸ heq)]
      exact ⟨_, .ends hbatch hlast⟩
    | none =>
      rw [hlast] at heq
      obtain ⟨hadvance, hframe⟩ | ⟨shown, rfl, hshows, hframe⟩ := frame_cases seconds last.console
      · rw [run_of_frame_ends heq hframe]
        exact ⟨_, .oversleeps hbatch hlast hadvance⟩
      · cases hshown : shown.ending with
        | some ending =>
          rw [run_of_frame_ends heq (hshown ▸ hframe)]
          exact ⟨_, .stops hbatch hlast hshows hshown⟩
        | none =>
          rw [run_cons heq (hshown ▸ hframe)]
          have hrunning : last.machine.status = .running := by
            rw [hbatch.status, (Turn.ending_eq_none.mp hlast).1]
            rfl
          obtain ⟨rounds, hcourse⟩ := ih (c := ⟨last.machine, shown.frontend⟩) hnext hrunning
          exact ⟨_, .goesOn hbatch hlast hshows hshown hcourse⟩

theorem exists_batchSize (frequency : Nat) : ∃ n, batchSize frequency = n + 1 :=
  Nat.exists_eq_succ_of_ne_zero (Nat.pos_iff_ne_zero.mp (Nat.le_max_left ..))

/-- Every run has a course, at every frequency. -/
theorem exists_course_at (hsound : c.machine.Sound) (hstatus : c.machine.status = .running)
    (frequency : Nat) (durations : List Float) :
    ∃ rounds, Course (batchSize frequency) c durations rounds
      (run (batchSize frequency) durations c).1 (run (batchSize frequency) durations c).2 := by
  obtain ⟨n, hn⟩ := exists_batchSize frequency
  rw [hn]
  exact exists_course hsound hstatus durations

end Console
end Chip8
