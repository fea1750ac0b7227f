import Chip8.Word

/-!
# Timers

The delay timer and the sound timer count down to zero sixty times a second, on a clock of their
own. Time arrives in portions of seconds; what is left of a portion after the last whole tick waits
for the next one. The seconds are binary floating-point numbers, and ticks are subtracted one after
the other.
-/
namespace Chip8

def ticksPerSecond : Float := 60.0

def secondsPerTick : Float := 1.0 / ticksPerSecond

/-- The two timers and the seconds since their last tick. -/
structure Timers where
  delay : Byte := 0
  sound : Byte := 0
  elapsed : Float := 0.0

/-- Timers agree if their fields do, where seconds are compared as numbers. -/
instance : BEq Timers where
  beq a b := a.delay == b.delay && a.sound == b.sound && a.elapsed == b.elapsed

namespace Timers

/-- A byte less one, but not below zero. -/
def countDown (b : Byte) : Byte :=
  if b = 0 then 0 else b - 1

def tick (t : Timers) : Timers :=
  { t with delay := countDown t.delay, sound := countDown t.sound }

def reset (t : Timers) : Timers :=
  { t with delay := 0, sound := 0 }

/-- Whether the sound timer keeps the tone on. -/
def sounding (t : Timers) : Bool :=
  t.sound != 0

/-- One more than the largest number of ticks that are counted. -/
def tickLimit : Nat := 0x100000000

/-- Tick while a whole tick has elapsed; `ticks` of them are already counted, and fewer than `fuel`
may follow. -/
def settle : (fuel ticks : Nat) → Timers → Option (Nat × Timers)
  | 0, _, _ => none
  | fuel + 1, ticks, t =>
    if t.elapsed ≥ secondsPerTick then
      settle fuel (ticks + 1) { t.tick with elapsed := t.elapsed - secondsPerTick }
    else
      some (ticks, t)

/-- Let some seconds pass: the number of ticks and the timers after them. There is no answer if the
ticks do not come to an end. -/
def advance (t : Timers) (seconds : Float) : Option (Nat × Timers) :=
  settle tickLimit 0 { t with elapsed := t.elapsed + seconds }

theorem toNat_countDown (b : Byte) : (countDown b).toNat = b.toNat - 1 := by
  rw [countDown]
  split
  · next h => simp [h]
  · next h =>
    have hb : b.toNat ≠ 0 := fun h0 => h (UInt8.toNat_inj.mp h0)
    rw [UInt8.toNat_sub_of_le _ _ (by rw [UInt8.le_iff_toNat_le, UInt8.toNat_one]; omega)]
    rfl

@[simp] theorem elapsed_tick (t : Timers) : t.tick.elapsed = t.elapsed := rfl

@[simp] theorem elapsed_reset (t : Timers) : t.reset.elapsed = t.elapsed := rfl

end Timers
end Chip8
