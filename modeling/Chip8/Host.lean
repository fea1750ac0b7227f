import Chip8.Display
import Chip8.Word

/-!
# Hosts

A host is the environment of a machine: it shows the display, owns the two timers and reads the
keypad. `Host` lists what a machine asks of it; a request takes the host to its next state.
-/
namespace Chip8

/-- Everything that a machine asks of its environment. -/
class Host (H : Type) where
  /-- The display went dark. -/
  clear : H → H
  /-- One pixel has a new value. -/
  plot : Dot → H → H
  /-- Read the delay timer. -/
  delay : H → Byte × H
  /-- Start the delay timer. -/
  setDelay : Byte → H → H
  /-- Start the sound timer. -/
  setSound : Byte → H → H
  /-- Whether a key is down. -/
  keyDown : Key → H → Bool × H
  /-- Wait until a key is pressed; meanwhile both timers stop at zero. -/
  waitKey : H → Byte × H

end Chip8
