import Chip8.Exec
import Chip8.Frontend.Basic
import Chip8.Terminal.Keyboard
import Chip8.Terminal.Output

/-!
# The terminal front end

Pixels are drawn as character cells, and the tone rings the bell. A terminal reports only presses of
keys, never releases, so a press counts as holding the key down for some frames. An error while the
machine makes a request cannot be reported at once; the first one is kept for the next frame.
-/
namespace Chip8

/-- The frames for which a press of a key counts as holding it down. -/
def holdSpan : Nat := 3

/-- The error of a keyboard that is gone. -/
def hangup : OsError := ⟨"Input/output error", 5⟩

structure Terminal where
  keymap : Keymap
  /-- For each key, the frames for which it still counts as held. -/
  held : Vector Nat 16 := Vector.replicate 16 0
  timers : Timers := {}
  /-- Something was drawn since the last frame that was shown. -/
  dirty : Bool := false
  /-- The user asked to stop. -/
  quit : Bool := false
  /-- The first error since the last frame, outside of it. -/
  pending : Option OsError := none
  keyboard : Keyboard := {}
  output : Output := {}

namespace Terminal

/-- A terminal with its screen prepared. -/
def enter (keymap : Keymap) (keyboard : Keyboard) : Terminal :=
  { keymap, keyboard, output := { shown := Piece.prepare.toArray } }

/-- What is still written when the terminal is given up: all that waits for a flush, and then the
pieces that give the screen back. -/
def leave (t : Terminal) : Array Piece :=
  t.output.queued ++ Piece.restore

/-- Keep an error for the next frame, unless there is one already. -/
def keep (t : Terminal) (cause : Option OsError) : Terminal :=
  { t with pending := t.pending.or cause }

/-- Whether the key with a given number counts as held. -/
def keyDown? (t : Terminal) (key : Nat) : Except Violation Bool :=
  match t.held[key]? with
  | some frames => .ok (0 < frames)
  | none => .error (.outOfRange 16 key)

/-- Let a frame pass for the keys that are held. -/
def tire (t : Terminal) : Terminal :=
  { t with held := t.held.map (· - 1) }

/-- Take note of an event between two batches. -/
def hear (t : Terminal) : InputEvent → Terminal
  | .mouse | .cursor => t
  | .key press =>
    match press.key? t.keymap with
    | some key => { t with held := t.held.setIfInBounds key.val holdSpan }
    | none => { t with quit := t.quit || press.asksToQuit }

/-- Take note of every event that has arrived, after a frame has passed for the keys held before. -/
def poll (t : Terminal) : Terminal :=
  let (events, keyboard) := t.keyboard.drain
  events.foldl hear { t.tire with keyboard }

structure Wait where
  /-- The key, or zero if the user asked to stop. -/
  answer : Byte
  /-- Whether the user has asked to stop. -/
  quit : Bool
  /-- The events after the one that ended the wait. -/
  rest : List InputEvent

/-- Go through events until a wait ends: at a press that stands for a key, or at another press once
the user has asked to stop. -/
def scan (keymap : Keymap) (quit : Bool) : List InputEvent → Option Wait
  | [] => none
  | .mouse :: rest | .cursor :: rest => scan keymap quit rest
  | .key press :: rest =>
    match press.key? keymap with
    | some key => some ⟨UInt8.ofNat key.val, quit, rest⟩
    | none =>
      let quit := quit || press.asksToQuit
      if quit then some ⟨0, quit, rest⟩ else scan keymap quit rest

/-- Go through the events that are there and those of further looks until a wait ends. -/
def scanLooks (keymap : Keymap) (quit : Bool) (looks : Nat) (k : Keyboard) :
    Option Wait × Keyboard :=
  match scan keymap quit k.events, looks with
  | some wait, _ => (some wait, { k with events := wait.rest })
  | none, 0 => (none, { k with events := [], starved := true })
  | none, looks + 1 => scanLooks keymap quit looks ({ k with events := [] }).look

/-- Wait for a key. What was drawn is shown first, no key counts as held afterwards, and the timers
stop. If the keyboard is gone, the user cannot be asked, and the wait ends as if they had asked to
stop. -/
def waitKey (t : Terminal) : Byte × Terminal :=
  let (cause, output) := t.output.flush
  let t := { t with held := Vector.replicate 16 0, timers := t.timers.reset, output }.keep cause
  let (wait, keyboard) := scanLooks t.keymap t.quit t.keyboard.arrivals.length t.keyboard
  match wait with
  | some wait => (wait.answer, { t with quit := wait.quit, keyboard })
  | none => (0, { t with quit := true, keyboard }.keep hangup)

/-- Queue what a request of the machine writes. -/
def write (t : Terminal) (pieces : List Piece) : Terminal :=
  let (cause, output) := t.output.queue pieces
  { t with output, dirty := true }.keep cause

def ring (t : Terminal) : Option OsError × Terminal :=
  if t.timers.sounding then
    let (cause, output) := t.output.queue [.bell]
    (cause, { t with output })
  else (none, t)

def refresh (t : Terminal) : Except Failure Bool × Terminal :=
  match t.output.flush with
  | (some cause, output) => (.error (.io cause), { t with output })
  | (none, output) => (.ok !t.quit, { t with output, dirty := false })

/-- Read the keys and show what was drawn. An error that was kept is reported instead. -/
def present (t : Terminal) : Except Failure Bool × Terminal :=
  match t.pending with
  | some cause => (.error (.io cause), { t with pending := none })
  | none =>
    match t.poll.ring with
    | (some cause, t) => (.error (.io cause), t)
    | (none, t) => t.refresh

instance : Host Terminal where
  clear t := t.write [.clear]
  plot dot t := t.write (Piece.dot dot)
  delay t := (t.timers.delay, t)
  setDelay value t := { t with timers.delay := value }
  setSound value t := { t with timers.sound := value }
  keyDown key t := (0 < t.held.get key, t)
  waitKey := waitKey

instance : Frontend Terminal where
  timers t := t.timers
  withTimers timers t := { t with timers }
  present := present
  wantsFrame t := t.dirty
  wantsQuit t := t.quit

end Terminal
end Chip8
