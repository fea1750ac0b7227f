import Chip8.Fault
import Chip8.Word

/-!
# Computations that can stop

A computation acts on a state in place. It stops early in one of two ways: with a fault of the
program that runs, or with a violation, when an operation of the machine is applied outside its
domain. What it did before it stopped stays done. The domain of every partial operation is checked
where it is applied, so that the absence of violations is a statement about `Exec`.
-/
namespace Chip8

/-- An operation applied outside its domain. -/
inductive Violation where
  /-- A step of a machine that has halted. -/
  | halted
  /-- A place that a table of `size` entries does not have. -/
  | outOfRange (size index : Nat)
  /-- A sum that is too large for its type. -/
  | overflow
  /-- A difference below zero. -/
  | underflow
  /-- A product that is too large for its type. -/
  | productOverflow
deriving DecidableEq, Repr

namespace Violation

def message : Violation → String
  | halted => "step called on a halted machine"
  | outOfRange size index =>
    s!"index out of bounds: the len is {size} but the index is {index}"
  | overflow => "attempt to add with overflow"
  | underflow => "attempt to subtract with overflow"
  | productOverflow => "attempt to multiply with overflow"

end Violation

/-- Why a computation stopped early. -/
inductive Stop where
  /-- The program has to halt. -/
  | fault (cause : Fault)
  /-- An operation was applied outside its domain. -/
  | violation (cause : Violation)
deriving DecidableEq, Repr

def Stop.message : Stop → String
  | fault cause => cause.message
  | violation cause => cause.message

/-- A computation on a state that can stop early. -/
abbrev Exec (σ α : Type) := EStateM Stop σ α

namespace Exec

variable {σ α : Type}

def fault (cause : Fault) : Exec σ α :=
  throw (.fault cause)

/-- Go on if the condition holds, stop with the violation otherwise. -/
def require (condition : Prop) [Decidable condition] (cause : Violation) : Exec σ Unit :=
  if condition then pure () else throw (.violation cause)

/-- The sum of a word and a number, where it is a word again. -/
def add (w : Word) (n : Nat) : Exec σ Word := do
  require (w.toNat + n < 0x10000) .overflow
  pure (UInt16.ofNat (w.toNat + n))

/-- A word less a number, where it is not below zero. -/
def sub (w : Word) (n : Nat) : Exec σ Word := do
  require (n ≤ w.toNat) .underflow
  pure (UInt16.ofNat (w.toNat - n))

/-- The product of a word and a number, where it is a word again. -/
def mul (w : Word) (n : Nat) : Exec σ Word := do
  require (w.toNat * n < 0x10000) .productOverflow
  pure (UInt16.ofNat (w.toNat * n))

theorem run_require {condition : Prop} [Decidable condition] (h : condition) (cause : Violation)
    (s : σ) : (require condition cause).run s = .ok () s := by
  rw [require, if_pos h]
  rfl

theorem run_require_of_not {condition : Prop} [Decidable condition] (h : ¬ condition)
    (cause : Violation) (s : σ) :
    (require condition cause).run s = .error (.violation cause) s := by
  rw [require, if_neg h]
  rfl

theorem run_add {w : Word} {n : Nat} (h : w.toNat + n < 0x10000) (s : σ) :
    (add w n).run s = .ok (UInt16.ofNat (w.toNat + n)) s := by
  rw [add, EStateM.run_bind, run_require h]
  rfl

theorem run_sub {w : Word} {n : Nat} (h : n ≤ w.toNat) (s : σ) :
    (sub w n).run s = .ok (UInt16.ofNat (w.toNat - n)) s := by
  rw [sub, EStateM.run_bind, run_require h]
  rfl

theorem run_mul {w : Word} {n : Nat} (h : w.toNat * n < 0x10000) (s : σ) :
    (mul w n).run s = .ok (UInt16.ofNat (w.toNat * n)) s := by
  rw [mul, EStateM.run_bind, run_require h]
  rfl

end Exec
end Chip8
