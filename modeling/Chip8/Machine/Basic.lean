import Chip8.Display
import Chip8.Entropy
import Chip8.Fault
import Chip8.Memory

/-!
# The machine

The state of a machine: memory, sixteen registers, the index register, the program counter, the
stack of return addresses, the display, and whether it still runs. Interpreters of different
lineages disagree on two points, which a `Dialect` settles. A program is loaded whole or not at all.
-/
namespace Chip8

/-- The two points on which interpreters of different lineages disagree. -/
structure Dialect where
  /-- A shift reads its second register rather than its first. -/
  shiftsSecond : Bool := true
  /-- Storing and loading registers leaves the index register past the last byte touched. -/
  advancesIndex : Bool := true
deriving DecidableEq, Repr

namespace Dialect

/-- The interpreter of the first machines. -/
def cosmac : Dialect := {}

/-- The interpreter of the calculators that came later. -/
def superChip : Dialect := ⟨false, false⟩

end Dialect

/-- Whether a machine can take another step. -/
inductive Status where
  | running
  | halted (cause : Fault)
deriving DecidableEq, Repr

namespace Status

def fault? : Status → Option Fault
  | running => none
  | halted cause => some cause

end Status

/-- A program of `size` bytes where there is room for `max`. -/
structure Oversize where
  size : Nat
  max : Nat
deriving DecidableEq, Repr

def Oversize.message (e : Oversize) : String :=
  s!"program is {e.size} bytes, at most {e.max} fit above the interpreter area"

/-- The most return addresses that a machine remembers. -/
def maxDepth : Nat := 16

/-- More than any count of things in memory can be. -/
def countLimit : Nat := 0x10000000000000000

/-- The register that is added to the target of some jumps. -/
def offsetRegister : Register := lastDigit 0

/-- The register that instructions use for their flag. -/
def flagRegister : Register := lastDigit 15

structure Machine where
  /-- The address of the next instruction. -/
  pc : Word := 0x200
  /-- The index register. -/
  index : Word := 0
  /-- The general registers. -/
  v : Vector Byte 16 := Vector.replicate 16 0
  /-- The cells of the stack; those below `depth` hold return addresses, oldest first. -/
  cells : Vector Word 16 := Vector.replicate 16 0
  /-- The number of return addresses. -/
  depth : Nat := 0
  memory : Memory := .initial
  display : Display := .dark
  status : Status := .running
  dialect : Dialect := .cosmac
  /-- The source of random bytes. -/
  entropy : Entropy

namespace Machine

/-- A machine without a program. -/
def new (dialect : Dialect) (entropy : Entropy) : Machine :=
  { dialect, entropy }

def load (m : Machine) (program : List Byte) : Except Oversize Machine :=
  if program.length ≤ Memory.programRoom then
    .ok { m with memory := m.memory.put Memory.programBase program }
  else
    .error ⟨program.length, Memory.programRoom⟩

def boot (dialect : Dialect) (entropy : Entropy) (program : List Byte) :
    Except Oversize Machine :=
  (new dialect entropy).load program

def halt (m : Machine) (cause : Fault) : Machine :=
  { m with status := .halted cause }

/-- The return addresses, oldest first. -/
def stack (m : Machine) : List Word :=
  m.cells.toList.take m.depth

/-- The machine, about to continue at an address. -/
def goto (m : Machine) (target : Word) : Machine :=
  { m with pc := target }

def reg (m : Machine) (x : Register) : Byte :=
  m.v.get x

def set (m : Machine) (x : Register) (b : Byte) : Machine :=
  { m with v := m.v.setIfInBounds x.val b }

/-- The machine with the result of an operation in a register and then its flag, if it has one. -/
def setResult (m : Machine) (x : Register) : Byte × Option Byte → Machine
  | (result, none) => m.set x result
  | (result, some flag) => (m.set x result).set flagRegister flag

/-- The machine with the first registers replaced by a list of bytes. -/
def setFirst (m : Machine) (bytes : List Byte) : Machine :=
  { m with v := Vector.ofFn fun r : Fin 16 => bytes[r.val]?.getD (m.reg r) }

/-- The values of registers zero to `x`. -/
def first (m : Machine) (x : Register) : List Byte :=
  m.v.toList.take (x.val + 1)

@[simp] theorem length_first (m : Machine) (x : Register) : (m.first x).length = x.val + 1 := by
  rw [first, List.length_take, Vector.length_toList]
  omega

@[simp] theorem reg_set (m : Machine) (x : Register) (b : Byte) (r : Register) :
    (m.set x b).reg r = if x = r then b else m.reg r := by
  have h (v : Vector Byte 16) : v.get r = v[r.val] := rfl
  simp only [reg, set, h, Vector.getElem_setIfInBounds, Fin.ext_iff]

/-- The first registers have the values of a list, and the others those that they had. -/
theorem reg_setFirst (m : Machine) (bytes : List Byte) (r : Register) :
    (m.setFirst bytes).reg r = bytes[r.val]?.getD (m.reg r) := by
  have h (v : Vector Byte 16) : v.get r = v[r.val] := rfl
  simp only [reg, setFirst, h, Vector.getElem_ofFn]

/-- A program is refused exactly if it is too large. -/
theorem load_eq_error_iff (m : Machine) (program : List Byte) (e : Oversize) :
    m.load program = .error e ↔
      Memory.programRoom < program.length ∧
        e = ⟨program.length, Memory.programRoom⟩ := by
  rw [load]
  split <;> simp [eq_comm] <;> omega

end Machine
end Chip8
