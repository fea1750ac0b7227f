/-!
# Integers on the command line

An integer is decimal digits, with a sign before them or not, in the range of a signed 64-bit word.
The first character that cannot stand where it does, or the first digit that leaves the range,
decides which error a text has.
-/
namespace Chip8.CommandLine

/-- Why a text is no integer. -/
inductive IntegerError where
  | empty
  | invalidDigit
  | tooLarge
  | tooSmall
deriving DecidableEq, Repr

namespace IntegerError

def message : IntegerError → String
  | empty => "cannot parse integer from empty string"
  | invalidDigit => "invalid digit found in string"
  | tooLarge => "number too large to fit in target type"
  | tooSmall => "number too small to fit in target type"

end IntegerError

namespace Integer

def maxValue : Nat := 0x7fffffffffffffff

/-- Read digits after those of `value`, where no value may exceed `limit`. -/
def digits (limit : Nat) (excess : IntegerError) (value : Nat) : List Char → Except IntegerError Nat
  | [] => .ok value
  | c :: rest =>
    if !c.isDigit then .error .invalidDigit
    else
      let next := 10 * value + (c.toNat - '0'.toNat)
      if limit < next then .error excess else digits limit excess next rest

def parse : List Char → Except IntegerError Int
  | [] => .error .empty
  | ['+'] | ['-'] => .error .invalidDigit
  | '+' :: rest => return (← digits maxValue .tooLarge 0 rest : Nat)
  | '-' :: rest => return -(← digits (maxValue + 1) .tooSmall 0 rest : Nat)
  | text => return (← digits maxValue .tooLarge 0 text : Nat)

end Integer
end Chip8.CommandLine
