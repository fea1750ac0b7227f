import Chip8.Machine.Execute

/-!
# Steps

A step carries out one instruction on a machine and its host. If the instruction raises a fault, the
program counter is moved back to it and the machine halts. A machine that has halted has no further
step.
-/
namespace Chip8

namespace World

variable {H : Type} [Host H]

/-- Carry out the instruction of a word, and move the program counter back to it if it raises a
fault. -/
def executeWord (word : Word) : Exec (World H) Unit :=
  try
    match Instruction.decode word with
    | none => Exec.fault .illegalInstruction
    | some instruction => execute instruction
  catch stop =>
    if let .fault _ := stop then Machine.rewind
    throw stop

/-- Read the next instruction and carry it out. -/
def cycle : Exec (World H) Unit := do
  let word ← Machine.fetch
  executeWord word

end World

/-- A machine and its host after a step, and the fault if the step raised one. -/
structure Turn (H : Type) where
  machine : Machine
  host : H
  fault : Option Fault

namespace Machine

variable {H : Type} [Host H]

/-- Settle how a cycle ended; a fault halts the machine. -/
def conclude : EStateM.Result Stop (World H) Unit → Except Violation (Turn H)
  | .ok () w => .ok ⟨w.machine, w.host, none⟩
  | .error (.fault cause) w => .ok ⟨w.machine.halt cause, w.host, some cause⟩
  | .error (.violation cause) _ => .error cause

def step (m : Machine) (host : H) : Except Violation (Turn H) :=
  match m.status with
  | .halted _ => .error .halted
  | .running => conclude (World.cycle.run ⟨m, host⟩)

/-- Carry out up to `n` instructions and stop at a fault; the turns in order. -/
def steps (n : Nat) (m : Machine) (host : H) : Except Violation (List (Turn H)) :=
  match n with
  | 0 => .ok []
  | n + 1 => do
    let turn ← m.step host
    if turn.fault.isSome then pure [turn]
    else return turn :: (← steps n turn.machine turn.host)

theorem step_of_halted {m : Machine} {cause : Fault} (h : m.status = .halted cause) (host : H) :
    m.step host = .error .halted := by
  rw [step, h]

end Machine
end Chip8
