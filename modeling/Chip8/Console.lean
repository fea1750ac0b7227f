import Chip8.Frontend.Basic
import Chip8.Machine.Step

/-!
# Running a machine in real time

A console is a machine with its front end. It runs in rounds: a batch of instructions, then a frame.
A batch has a fixed number of steps, and ends early after a step that drew something. A frame moves
the timers on by the seconds that the round took, so that their rate does not depend on the number
of steps. The run ends with a fault, at the user's wish, or with a failure of the front end.
-/
namespace Chip8

/-- Instructions per second, unless the user asks for another number. -/
def defaultFrequency : Nat := 540

/-- The steps of a batch at some instructions per second: a sixtieth of them, rounded to the nearest
number with halves upwards, and at least one. -/
def batchSize (frequency : Nat) : Nat :=
  max 1 ((frequency + 30) / 60)

inductive Ending where
  /-- The machine halted. -/
  | halted (cause : Fault)
  /-- The user asked to stop. -/
  | quit
  /-- The front end failed. -/
  | failed (cause : Failure)
  /-- The machine left its domain. -/
  | violated (cause : Violation)
  /-- The timers cannot catch up with the time that has passed, and the run stands still. -/
  | overslept
deriving DecidableEq, Repr

/-- A machine and its front end. -/
structure Console (F : Type) where
  machine : Machine
  frontend : F

namespace Console

variable {F : Type} [Frontend F]

/-- Take up to `n` steps: the console after them, and the ending if the run ends there. -/
def batch : (n : Nat) → Console F → Console F × Option Ending
  | 0, c => (c, none)
  | n + 1, c =>
    match c.machine.step c.frontend with
    | .error cause => (c, some (.violated cause))
    | .ok ⟨machine, frontend, some cause⟩ => (⟨machine, frontend⟩, some (.halted cause))
    | .ok ⟨machine, frontend, none⟩ =>
      if Frontend.wantsQuit frontend then (⟨machine, frontend⟩, some .quit)
      else if Frontend.wantsFrame frontend then (⟨machine, frontend⟩, none)
      else batch n ⟨machine, frontend⟩

/-- Let the seconds of a round pass and show a frame. -/
def frame (seconds : Float) (c : Console F) : Console F × Option Ending :=
  match (Frontend.timers c.frontend).advance seconds with
  | none => (c, some .overslept)
  | some (_, timers) =>
    let (answer, frontend) := Frontend.present (Frontend.withTimers timers c.frontend)
    let c := { c with frontend }
    match answer with
    | .ok true => (c, none)
    | .ok false => (c, some .quit)
    | .error cause => (c, some (.failed cause))

/-- Run in batches of `n` steps, where `durations` are the seconds of one round after the other.
There is no ending if the run outlasts them. -/
def run (n : Nat) : (durations : List Float) → Console F → Console F × Option Ending
  | durations, c =>
    match batch n c, durations with
    | (c, some ending), _ => (c, some ending)
    | (c, none), [] => (c, none)
    | (c, none), seconds :: durations =>
      match frame seconds c with
      | (c, some ending) => (c, some ending)
      | (c, none) => run n durations c

end Console
end Chip8
