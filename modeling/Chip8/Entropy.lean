import Chip8.Word

/-!
# Random bytes

A machine draws its random bytes from a fixed stream, and counts how many it has taken.
-/
namespace Chip8

/-- A stream of random bytes and the number of those already drawn. -/
structure Entropy where
  stream : Nat → Byte
  drawn : Nat := 0

namespace Entropy

/-- The stream that repeats a list; of an empty list, the stream of zeros. -/
def cycle (bytes : List Byte) : Entropy :=
  let table := bytes.toArray
  ⟨fun n => table[n % table.size]?.getD 0, 0⟩

def head (e : Entropy) : Byte :=
  e.stream e.drawn

/-- The stream with its next byte drawn. -/
def tail (e : Entropy) : Entropy :=
  { e with drawn := e.drawn + 1 }

end Entropy
end Chip8
