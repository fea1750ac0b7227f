import Chip8.Arithmetic
import Chip8.Exec
import Chip8.Instruction.Basic
import Chip8.Machine.Basic

/-!
# Operations of a machine

What instructions do to the machine alone: reading and writing memory, moving the program counter,
calling and returning, and the transfers between registers, index and memory. Every place is checked
against the table that it belongs to, and every sum and difference against the words.
-/
namespace Chip8.Machine

/-- The byte at an address, which has to lie in memory. -/
def peek (a : Nat) : Exec Machine Byte := do
  Exec.require (a < Memory.size) (.outOfRange Memory.size a)
  return (← get).memory.get a

/-- Put a byte at an address, which has to lie in memory. -/
def poke (a : Nat) (b : Byte) : Exec Machine Unit := do
  Exec.require (a < Memory.size) (.outOfRange Memory.size a)
  modify fun m => { m with memory := m.memory.put a [b] }

/-- The bytes of a window, which has to lie in memory. -/
def readWindow (a n : Nat) : Exec Machine (List Byte) := do
  Exec.require (Memory.Holds a n) (.outOfRange Memory.size (a + n))
  return (← get).memory.slice a n

/-- Put bytes into a window, which has to lie in memory. -/
def writeWindow (a : Nat) (bytes : List Byte) : Exec Machine Unit := do
  Exec.require (Memory.Holds a bytes.length) (.outOfRange Memory.size (a + bytes.length))
  modify fun m => { m with memory := m.memory.put a bytes }

/-! ## The program counter -/

/-- Move the program counter past an instruction. -/
def advance : Exec Machine Unit := do
  let pc ← Exec.add (← get).pc 2
  modify (·.goto pc)

/-- Move the program counter back to the instruction before it. -/
def rewind : Exec Machine Unit := do
  let pc ← Exec.sub (← get).pc 2
  modify (·.goto pc)

/-- Read the next instruction word and move the program counter past it. -/
def fetch : Exec Machine Word := do
  let pc := (← get).pc.toNat
  if pc < Memory.programBase then Exec.fault .pcUnderflow
  else if Memory.size - 1 ≤ pc then Exec.fault .pcOverflow
  else
    let high ← peek pc
    let low ← peek (pc + 1)
    advance
    return Word.ofBytes high low

/-- Pass over the next instruction if the condition holds. -/
def skipIf (condition : Bool) : Exec Machine Unit :=
  if condition then advance else pure ()

/-- Continue at an address, unless the instruction jumps onto itself. -/
def jump (target : Address) : Exec Machine Unit := do
  let here ← Exec.sub (← get).pc 2
  if target.val = here.toNat then Exec.fault .infiniteLoop
  else modify (·.goto (.ofAddress target))

/-- Continue at an address plus a register. -/
def jumpOffset (target : Address) : Exec Machine Unit := do
  let sum ← Exec.add (.ofAddress target) ((← get).reg offsetRegister).toNat
  modify (·.goto sum)

/-! ## The stack -/

def cell (i : Nat) : Exec Machine Word := do
  Exec.require (i < maxDepth) (.outOfRange maxDepth i)
  return (← get).cells[i]?.getD 0

def setCell (i : Nat) (w : Word) : Exec Machine Unit := do
  Exec.require (i < maxDepth) (.outOfRange maxDepth i)
  modify fun m => { m with cells := m.cells.setIfInBounds i w }

def ret : Exec Machine Unit := do
  if (← get).depth = 0 then Exec.fault .stackUnderflow
  else
    Exec.require (1 ≤ (← get).depth) .underflow
    modify fun m => { m with depth := m.depth - 1 }
    let target ← cell (← get).depth
    modify (·.goto target)

/-- Remember the program counter as a return address and continue at another one. -/
def call (target : Address) : Exec Machine Unit := do
  if (← get).depth = maxDepth then Exec.fault .stackOverflow
  else
    setCell (← get).depth (← get).pc
    Exec.require ((← get).depth + 1 < countLimit) .overflow
    modify fun m => { m with depth := m.depth + 1 }
    modify (·.goto (.ofAddress target))

/-! ## Registers and index -/

def arith (op : ArithOp) (x y : Register) : Exec Machine Unit :=
  modify fun m =>
    let shifted := if m.dialect.shiftsSecond then m.reg y else m.reg x
    m.setResult x (op.eval (m.reg x) (m.reg y) shifted)

/-- Draw a random byte and put the bits of a mask into a register. -/
def random (x : Register) (mask : Byte) : Exec Machine Unit :=
  modify fun m => { m with entropy := m.entropy.tail }.set x (m.entropy.head &&& mask)

/-- Add a register to the index register; the sum wraps around. -/
def addIndex (x : Register) : Exec Machine Unit :=
  modify fun m => { m with index := m.index + (m.reg x).toUInt16 }

/-- Point the index register at the glyph of a digit. -/
def glyph (x : Register) : Exec Machine Unit := do
  let digit := (← get).reg x
  if 16 ≤ digit.toNat then Exec.fault .illegalDigit
  else
    let index ← Exec.mul digit.toUInt16 glyphRows
    modify fun m => { m with index }

def decimal (x : Register) : Exec Machine Unit := do
  let i := (← get).index.toNat
  if Memory.size ≤ i + 2 then Exec.fault .indexOverflow
  else
    poke i ((← get).reg x / 100)
    poke (i + 1) ((← get).reg x / 10 % 10)
    poke (i + 2) ((← get).reg x % 10)

/-- The start of the window of registers zero to `x`, which has to fit whole before a byte moves. -/
def window (x : Register) : Exec Machine Nat := do
  let i := (← get).index.toNat
  if Memory.size ≤ i + x.val then Exec.fault .indexOverflow
  else return i

/-- Leave the index register past a window of registers, in the dialects that do. -/
def moveIndex (x : Register) : Exec Machine Unit := do
  if (← get).dialect.advancesIndex then
    let index ← Exec.add (← get).index (x.val + 1)
    modify fun m => { m with index }

def storeRegisters (x : Register) : Exec Machine Unit := do
  let i ← window x
  writeWindow i ((← get).first x)
  moveIndex x

def loadRegisters (x : Register) : Exec Machine Unit := do
  let i ← window x
  let bytes ← readWindow i (x.val + 1)
  modify (·.setFirst bytes)
  moveIndex x

/-! ## The display -/

/-- The coordinate in a register as a drawing instruction reads it, with the flag already
cleared. -/
def coordinate (m : Machine) (r : Register) : Nat :=
  if r = flagRegister then 0 else (m.reg r).toNat

/-- Invert a pixel, which has to lie on the display, and give its new value. -/
def invertPixel (x y : Nat) : Exec Machine Bool := do
  Exec.require (y < Display.height) (.outOfRange Display.height y)
  Exec.require (x < Display.width) (.outOfRange Display.width x)
  let lit := !(← get).display.lit x y
  modify fun m => { m with display := m.display.put x y lit }
  return lit

end Chip8.Machine
