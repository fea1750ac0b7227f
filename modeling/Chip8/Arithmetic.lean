import Chip8.Instruction.Basic

/-!
# Register arithmetic

`ArithOp.eval` gives the result of combining two registers and, for all but copying, the value of
the flag. Carries and borrows are said on the numbers the bytes stand for: the flag of a sum is one
if it needs a ninth bit, the flag of a difference is one if nothing had to be borrowed, and the flag
of a shift is the bit shifted out.
-/
namespace Chip8

def flagOf (condition : Bool) : Byte :=
  if condition then 1 else 0

theorem flagOf_eq_one_iff (condition : Bool) : flagOf condition = 1 ↔ condition = true := by
  cases condition <;> decide

theorem flagOf_eq_zero_iff (condition : Bool) : flagOf condition = 0 ↔ condition = false := by
  cases condition <;> decide

namespace ArithOp

/-- The result and the flag of an operation on `a` and `b`, where shifts act on `s`. -/
def eval (op : ArithOp) (a b s : Byte) : Byte × Option Byte :=
  match op with
  | copy => (b, none)
  | or => (a ||| b, some 0)
  | and => (a &&& b, some 0)
  | xor => (a ^^^ b, some 0)
  | add => (a + b, some (flagOf (255 < a.toNat + b.toNat)))
  | sub => (a - b, some (flagOf (b.toNat ≤ a.toNat)))
  | shiftRight => (s >>> 1, some (s &&& 1))
  | subFrom => (b - a, some (flagOf (a.toNat ≤ b.toNat)))
  | shiftLeft => (s <<< 1, some (s >>> 7))

end ArithOp
end Chip8
