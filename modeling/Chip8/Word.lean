/-!
# Bytes, words and addresses

The machine computes on bytes and on sixteen-bit words. This file names them, says how a word is put
together from two bytes, and reads the parts of an instruction word: its four hexadecimal digits,
its low byte, and the twelve bits that hold an address.
-/
namespace Chip8

/-- Eight bits: a memory cell, a register, a timer. -/
abbrev Byte := UInt8

/-- Sixteen bits: the program counter, the index register, an instruction. -/
abbrev Word := UInt16

/-- The name of one of the sixteen general registers. -/
abbrev Register := Fin 16

/-- The name of one of the sixteen keys of the keypad. -/
abbrev Key := Fin 16

/-- The twelve bits of an instruction word that name a place in memory. -/
abbrev Address := Fin 4096

def lastDigit (n : Nat) : Fin 16 :=
  ⟨n % 16, Nat.mod_lt n (Nat.succ_pos 15)⟩

@[simp] theorem val_lastDigit (n : Nat) : (lastDigit n).val = n % 16 := rfl

namespace Word

/-- The word stored as `high` and then `low`, most significant byte first. -/
def ofBytes (high low : Byte) : Word :=
  UInt16.ofNat (256 * high.toNat + low.toNat)

/-- The hexadecimal digit of `w` in the place of the power `unit` of sixteen. -/
def digit (w : Word) (unit : Nat) : Fin 16 :=
  lastDigit (w.toNat / unit)

def low (w : Word) : Byte :=
  UInt8.ofNat w.toNat

def address (w : Word) : Address :=
  Fin.ofNat 4096 w.toNat

def ofAddress (a : Address) : Word :=
  UInt16.ofNat a.val

theorem val_digit (w : Word) (unit : Nat) : (digit w unit).val = w.toNat / unit % 16 := rfl

theorem toNat_low (w : Word) : (low w).toNat = w.toNat % 256 := by
  simp [low]

theorem val_address (w : Word) : (address w).val = w.toNat % 4096 := rfl

@[simp] theorem toNat_ofAddress (a : Address) : (ofAddress a).toNat = a.val := by
  rw [ofAddress, UInt16.toNat_ofNat']
  omega

end Word
end Chip8
