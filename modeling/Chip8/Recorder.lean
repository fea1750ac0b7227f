import Chip8.Exec
import Chip8.Host
import Chip8.Timers

/-!
# The recording host

A host without a screen or a keyboard. It writes down every request that changes something, takes
the keys that a program waits for from a queue, and holds the state of the keypad and the timers.
-/
namespace Chip8

/-- A request as a recorder writes it down, or the mark that a front end leaves at a frame. -/
inductive Event where
  | frame
  | clear
  | plot (dot : Dot)
  | setDelay (value : Byte)
  | setSound (value : Byte)
  | waitKey (answer : Byte)
deriving DecidableEq, Repr

structure Recorder where
  /-- The requests so far, oldest first. -/
  events : Array Event := #[]
  /-- Which keys are down. -/
  keys : Vector Bool 16 := Vector.replicate 16 false
  timers : Timers := {}
  /-- The keys that answer the next waits. -/
  queue : List Byte := []

namespace Recorder

def record (r : Recorder) (event : Event) : Recorder :=
  { r with events := r.events.push event }

/-- Press or release a key; the keypad has no keys from sixteen on. -/
def press (r : Recorder) (key : Nat) (down : Bool) : Recorder :=
  { r with keys := r.keys.setIfInBounds key down }

def enqueue (r : Recorder) (keys : List Byte) : Recorder :=
  { r with queue := r.queue ++ keys }

def keyDown? (r : Recorder) (key : Nat) : Except Violation Bool :=
  match r.keys[key]? with
  | some down => .ok down
  | none => .error (.outOfRange 16 key)

/-- The plotted pixels, oldest first. -/
def dots (r : Recorder) : List Dot :=
  r.events.toList.filterMap fun
    | .plot dot => some dot
    | _ => none

/-- Stop the timers and answer with the next key of the queue, or with key zero. -/
def waitKey (r : Recorder) : Byte × Recorder :=
  let key := r.queue.headD 0
  (key, { r with timers := r.timers.reset, queue := r.queue.tail }.record (.waitKey key))

instance : Host Recorder where
  clear r := r.record .clear
  plot dot r := r.record (.plot dot)
  delay r := (r.timers.delay, r)
  setDelay value r := { r with timers.delay := value }.record (.setDelay value)
  setSound value r := { r with timers.sound := value }.record (.setSound value)
  keyDown key r := (r.keys.get key, r)
  waitKey := waitKey

end Recorder
end Chip8
