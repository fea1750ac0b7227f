import Chip8.Hex
import Chip8.Machine.Operation

/-!
# Snapshots

A snapshot is what a person reads about a machine after it has halted: the fault, the program
counter, the index register, the depth of the stack, the instruction at the program counter, and the
return addresses. Addresses and instructions are written in four hexadecimal digits.
-/
namespace Chip8

/-- What a report shows of a machine. -/
structure Snapshot where
  fault : Option Fault
  pc : Word
  index : Word
  /-- The number of return addresses. -/
  depth : Nat
  instruction : Option Word
  /-- The return addresses, oldest first. -/
  stack : List Word
deriving DecidableEq

namespace Snapshot

def faultLine : Option Fault → String
  | none => ""
  | some fault => s!"Runtime error: {fault.tag} ({fault.message})\n"

/-- The line with the registers that address memory and the stack. -/
def registerLine (s : Snapshot) : String :=
  s!"PC = {Hex.fixed 4 s.pc.toNat}, I = {Hex.fixed 4 s.index.toNat}, SP = {Hex.text s.depth}"

def instructionLine : Option Word → String
  | none => ""
  | some word => s!"\nInstruction: {Hex.fixed 4 word.toNat}"

def stackLine (n : Nat) (target : Word) : String :=
  s!"\n\tSTACK[{n}]: {Hex.fixed 4 target.toNat}"

/-- The lines of a snapshot; there is no line break after the last. -/
def text (s : Snapshot) : String :=
  faultLine s.fault ++ s.registerLine ++ instructionLine s.instruction
    ++ String.join (s.stack.mapIdx stackLine)

end Snapshot

namespace Machine

/-- The instruction at the program counter, unless the fault came before it was read or it does not
lie in memory. -/
def shownInstruction (m : Machine) : Option Word :=
  if m.status.fault?.any Fault.precedesFetch then none
  else if m.pc.toNat + 1 < Memory.size then some (m.memory.word m.pc.toNat)
  else none

def snapshot (m : Machine) : Snapshot where
  fault := m.status.fault?
  pc := m.pc
  index := m.index
  depth := m.depth
  instruction := m.shownInstruction
  stack := m.stack

/-! ## Taking a snapshot -/

/-- Read the return addresses, which have to lie in the stack. -/
def readStack : Exec Machine (List Word) := do
  let m ← get
  Exec.require (m.depth ≤ maxDepth) (.outOfRange maxDepth m.depth)
  return m.stack

def readInstruction : Exec Machine (Option Word) := do
  let m ← get
  if m.status.fault?.any Fault.precedesFetch then return none
  else if m.pc.toNat + 1 < Memory.size then
    let high ← peek m.pc.toNat
    let low ← peek (m.pc.toNat + 1)
    return some (Word.ofBytes high low)
  else return none

/-- Take a snapshot of a machine, where every place that is read has to exist. -/
def dump : Exec Machine Snapshot := do
  let m ← get
  let instruction ← readInstruction
  let stack ← readStack
  return { m.snapshot with instruction, stack }

end Machine
end Chip8
