import Chip8.Word

/-!
# Instructions

The instruction set of the machine. A register operand is written `x` or `y`, a byte operand `k`, a
place in memory `target` or `place`.
-/
namespace Chip8

/-- The operations that combine two registers; the result goes to the first one. -/
inductive ArithOp where
  /-- The second operand. -/
  | copy
  /-- Bitwise disjunction. -/
  | or
  /-- Bitwise conjunction. -/
  | and
  /-- Bitwise exclusive disjunction. -/
  | xor
  /-- The sum. -/
  | add
  /-- The first operand less the second. -/
  | sub
  /-- Half of the shifted operand. -/
  | shiftRight
  /-- The second operand less the first. -/
  | subFrom
  /-- Twice the shifted operand. -/
  | shiftLeft
deriving DecidableEq, Repr

inductive Instruction where
  /-- Darken the display. -/
  | clearScreen
  /-- Continue at the address that the last call left. -/
  | ret
  /-- Continue at `target`. -/
  | jump (target : Address)
  /-- Remember the next address and continue at `target`. -/
  | call (target : Address)
  /-- Skip the next instruction if the register holds `k`. -/
  | skipIfByte (x : Register) (k : Byte)
  /-- Skip the next instruction unless the register holds `k`. -/
  | skipUnlessByte (x : Register) (k : Byte)
  /-- Skip the next instruction if the registers agree. -/
  | skipIfEqual (x y : Register)
  /-- Put `k` into the register. -/
  | setByte (x : Register) (k : Byte)
  /-- Add `k` to the register; the flag stays as it is. -/
  | addByte (x : Register) (k : Byte)
  /-- Combine two registers. -/
  | arith (op : ArithOp) (x y : Register)
  /-- Skip the next instruction unless the registers agree. -/
  | skipUnlessEqual (x y : Register)
  /-- Point the index register at `place`. -/
  | setIndex (place : Address)
  /-- Continue at `target` plus register zero. -/
  | jumpOffset (target : Address)
  /-- Put a random byte, restricted to the bits of `mask`, into the register. -/
  | random (x : Register) (mask : Byte)
  /-- Draw the sprite of `height` rows at the index register; the registers hold its corner. -/
  | draw (x y : Register) (height : Fin 16)
  /-- Skip the next instruction if the key named by the register is down. -/
  | skipIfKey (x : Register)
  /-- Skip the next instruction unless the key named by the register is down. -/
  | skipUnlessKey (x : Register)
  /-- Read the delay timer. -/
  | readDelay (x : Register)
  /-- Wait for a key and put its number into the register. -/
  | waitKey (x : Register)
  /-- Set the delay timer. -/
  | setDelay (x : Register)
  /-- Set the sound timer. -/
  | setSound (x : Register)
  /-- Add the register to the index register. -/
  | addIndex (x : Register)
  /-- Point the index register at the glyph of the digit in the register. -/
  | glyph (x : Register)
  /-- Store the three decimal digits of the register at the index register. -/
  | decimal (x : Register)
  /-- Store registers zero to `x` at the index register. -/
  | store (x : Register)
  /-- Load registers zero to `x` from the index register. -/
  | load (x : Register)
deriving DecidableEq, Repr

end Chip8
