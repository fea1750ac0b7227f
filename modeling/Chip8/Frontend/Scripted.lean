import Chip8.Frontend.Basic
import Chip8.Recorder

/-!
# Scripted front ends

A front end without devices, for runs that always go the same way. A script says when keys go down
and up, when a frame fails, and when the user stops. Requests and frames are written down by a
recorder, whose timers count down by one at each frame; the timers that the run moves on are kept
apart from them.
-/
namespace Chip8

structure Script where
  /-- The frames that are shown. -/
  frames : Nat
  /-- The frame that fails, counted from one, or zero if none does. -/
  failingFrame : Nat := 0
  /-- The failure of that frame. -/
  failure : Failure
  /-- A frame is wanted as soon as something was drawn. -/
  eager : Bool := false
  /-- The wait for a key at which the user stops, counted from one, or zero if there is none. -/
  lastWait : Nat := 0
  /-- The keys that go down or up, each with the frame at which it does. -/
  presses : List (Nat × Nat × Bool) := []

structure Scripted where
  script : Script
  recorder : Recorder := {}
  /-- The timers that the run moves on. -/
  clock : Timers := {}
  /-- Frames so far. -/
  shown : Nat := 0
  /-- Waits for a key so far. -/
  waits : Nat := 0
  /-- Something was drawn since the last frame. -/
  drawn : Bool := false

namespace Scripted

/-- Press and release the keys of the current frame. -/
def applyPresses (s : Scripted) : Scripted :=
  let now := s.script.presses.filter fun press => press.1 == s.shown
  { s with recorder := now.foldl (fun r (_, key, down) => r.press key down) s.recorder }

def beginFrame (s : Scripted) : Scripted :=
  let recorder := s.recorder.record .frame
  { s with
    shown := s.shown + 1
    recorder := { recorder with timers := recorder.timers.tick }
    drawn := false }

instance : Host Scripted where
  clear s := { s with recorder := Host.clear s.recorder, drawn := true }
  plot dot s := { s with recorder := Host.plot dot s.recorder, drawn := true }
  delay s :=
    let (value, recorder) := Host.delay s.recorder
    (value, { s with recorder })
  setDelay value s := { s with recorder := Host.setDelay value s.recorder }
  setSound value s := { s with recorder := Host.setSound value s.recorder }
  keyDown key s :=
    let (down, recorder) := Host.keyDown key s.recorder
    (down, { s with recorder })
  waitKey s :=
    let (key, recorder) := Host.waitKey s.recorder
    (key, { s with recorder, waits := s.waits + 1 })

instance : Frontend Scripted where
  timers s := s.clock
  withTimers clock s := { s with clock }
  present s :=
    let s := s.beginFrame.applyPresses
    if s.script.failingFrame ≠ 0 ∧ s.shown = s.script.failingFrame then
      (.error s.script.failure, s)
    else
      (.ok (s.shown < s.script.frames), s)
  wantsFrame s := s.script.eager && s.drawn
  wantsQuit s := s.script.lastWait != 0 && s.script.lastWait ≤ s.waits

end Scripted
end Chip8
