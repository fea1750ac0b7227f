import Chip8.Failure
import Chip8.Host
import Chip8.Timers

/-!
# Front ends

A front end is a host that also owns the timers, the input devices and the screen, and that is
driven frame by frame. It may ask for a frame early, when something was drawn, and it may ask to
stop.
-/
namespace Chip8

/-- A host that is driven frame by frame. -/
class Frontend (F : Type) extends Host F where
  timers : F → Timers
  withTimers : Timers → F → F
  /-- Read the input devices and show the display; the answer is whether to go on. -/
  present : F → Except Failure Bool × F
  /-- Something was drawn that the next frame should show before more is drawn. -/
  wantsFrame : F → Bool := fun _ => false
  /-- The user asked to stop while the machine was waiting for the host. -/
  wantsQuit : F → Bool := fun _ => false

end Chip8
