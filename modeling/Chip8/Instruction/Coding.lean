import Chip8.Instruction.Basic

/-!
# Instruction words

Every instruction is one word, and `encode` is its word. `decode` reads a word back; the words that
name no instruction decode to nothing. The first digit of a word selects a family, and in the
families eight, fourteen and fifteen the last digits select the instruction.
-/
namespace Chip8

namespace ArithOp

/-- The last digit of the instruction words with this operation. -/
def code : ArithOp → Nat
  | copy => 0x0
  | or => 0x1
  | and => 0x2
  | xor => 0x3
  | add => 0x4
  | sub => 0x5
  | shiftRight => 0x6
  | subFrom => 0x7
  | shiftLeft => 0xe

def ofCode? : Nat → Option ArithOp
  | 0x0 => some copy
  | 0x1 => some or
  | 0x2 => some and
  | 0x3 => some xor
  | 0x4 => some add
  | 0x5 => some sub
  | 0x6 => some shiftRight
  | 0x7 => some subFrom
  | 0xe => some shiftLeft
  | _ => none

def digit (op : ArithOp) : Fin 16 :=
  lastDigit op.code

@[simp] theorem ofCode?_digit (op : ArithOp) : ofCode? op.digit.val = some op := by
  cases op <;> rfl

theorem eq_digit_of_ofCode? {n : Fin 16} {op : ArithOp} (h : ofCode? n.val = some op) :
    n = op.digit := by
  revert n
  cases op <;> decide

end ArithOp

namespace Instruction

/-- The word with the digits `family`, `x`, `y` and `n`. -/
def packXYN (family : Nat) (x y : Register) (n : Fin 16) : Word :=
  UInt16.ofNat (4096 * family + 256 * x.val + 16 * y.val + n.val)

/-- The word with the digits `family` and `x` and the low byte `k`. -/
def packXK (family : Nat) (x : Register) (k : Byte) : Word :=
  UInt16.ofNat (4096 * family + 256 * x.val + k.toNat)

def packA (family : Nat) (a : Address) : Word :=
  UInt16.ofNat (4096 * family + a.val)

def encode : Instruction → Word
  | clearScreen => 0x00e0
  | ret => 0x00ee
  | jump target => packA 0x1 target
  | call target => packA 0x2 target
  | skipIfByte x k => packXK 0x3 x k
  | skipUnlessByte x k => packXK 0x4 x k
  | skipIfEqual x y => packXYN 0x5 x y (lastDigit 0)
  | setByte x k => packXK 0x6 x k
  | addByte x k => packXK 0x7 x k
  | arith op x y => packXYN 0x8 x y op.digit
  | skipUnlessEqual x y => packXYN 0x9 x y (lastDigit 0)
  | setIndex place => packA 0xa place
  | jumpOffset target => packA 0xb target
  | random x mask => packXK 0xc x mask
  | draw x y height => packXYN 0xd x y height
  | skipIfKey x => packXK 0xe x 0x9e
  | skipUnlessKey x => packXK 0xe x 0xa1
  | readDelay x => packXK 0xf x 0x07
  | waitKey x => packXK 0xf x 0x0a
  | setDelay x => packXK 0xf x 0x15
  | setSound x => packXK 0xf x 0x18
  | addIndex x => packXK 0xf x 0x1e
  | glyph x => packXK 0xf x 0x29
  | decimal x => packXK 0xf x 0x33
  | store x => packXK 0xf x 0x55
  | load x => packXK 0xf x 0x65

/-- The instruction of the key family with a given low byte. -/
def keyFamily? (x : Register) : Nat → Option Instruction
  | 0x9e => some (skipIfKey x)
  | 0xa1 => some (skipUnlessKey x)
  | _ => none

/-- The instruction of the family of timers, index and transfers with a given low byte. -/
def transferFamily? (x : Register) : Nat → Option Instruction
  | 0x07 => some (readDelay x)
  | 0x0a => some (waitKey x)
  | 0x15 => some (setDelay x)
  | 0x18 => some (setSound x)
  | 0x1e => some (addIndex x)
  | 0x29 => some (glyph x)
  | 0x33 => some (decimal x)
  | 0x55 => some (store x)
  | 0x65 => some (load x)
  | _ => none

/-- The instruction that a word names, if there is one. -/
def decode (w : Word) : Option Instruction :=
  let x : Register := Word.digit w 0x100
  let y : Register := Word.digit w 0x10
  let n := Word.digit w 0x1
  let k := Word.low w
  let a := Word.address w
  match (Word.digit w 0x1000).val with
  | 0x0 =>
    if a.val = 0x0e0 then some clearScreen
    else if a.val = 0x0ee then some ret
    else none
  | 0x1 => some (jump a)
  | 0x2 => some (call a)
  | 0x3 => some (skipIfByte x k)
  | 0x4 => some (skipUnlessByte x k)
  | 0x5 => if n = lastDigit 0 then some (skipIfEqual x y) else none
  | 0x6 => some (setByte x k)
  | 0x7 => some (addByte x k)
  | 0x8 => (ArithOp.ofCode? n.val).map (arith · x y)
  | 0x9 => if n = lastDigit 0 then some (skipUnlessEqual x y) else none
  | 0xa => some (setIndex a)
  | 0xb => some (jumpOffset a)
  | 0xc => some (random x k)
  | 0xd => some (draw x y n)
  | 0xe => keyFamily? x k.toNat
  | 0xf => transferFamily? x k.toNat
  | _ => none

end Instruction
end Chip8
