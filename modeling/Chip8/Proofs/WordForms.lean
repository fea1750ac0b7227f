import Chip8.Instruction.Coding

/-!
# The forms of instruction words

Handbooks list the instructions by the digits of their words. `Instruction.wordForms` is such a
list, and the words that have one of its forms are those that `decode` reads.
-/
namespace Chip8

/-- The four hexadecimal digits of a word, first to last. -/
def Word.digits (w : Word) : List Nat :=
  [0x1000, 0x100, 0x10, 0x1].map fun unit => (Word.digit w unit).val

theorem ArithOp.isSome_ofCode? (n : Fin 16) :
    (ofCode? n.val).isSome = decide (n.val < 8 ∨ n.val = 14) := by
  revert n
  decide

namespace Instruction

/-- The forms of the instruction words. Digits and capital letters stand for themselves, and a small
letter stands for any digit. -/
def wordForms : List (List Char) :=
  [['0', '0', 'E', '0'], ['0', '0', 'E', 'E'], ['1', 'n', 'n', 'n'], ['2', 'n', 'n', 'n'],
    ['3', 'x', 'n', 'n'], ['4', 'x', 'n', 'n'], ['5', 'x', 'y', '0'], ['6', 'x', 'n', 'n'],
    ['7', 'x', 'n', 'n'], ['8', 'x', 'y', '0'], ['8', 'x', 'y', '1'], ['8', 'x', 'y', '2'],
    ['8', 'x', 'y', '3'], ['8', 'x', 'y', '4'], ['8', 'x', 'y', '5'], ['8', 'x', 'y', '6'],
    ['8', 'x', 'y', '7'], ['8', 'x', 'y', 'E'], ['9', 'x', 'y', '0'], ['A', 'n', 'n', 'n'],
    ['B', 'n', 'n', 'n'], ['C', 'x', 'n', 'n'], ['D', 'x', 'y', 'n'], ['E', 'x', '9', 'E'],
    ['E', 'x', 'A', '1'], ['F', 'x', '0', '7'], ['F', 'x', '0', 'A'], ['F', 'x', '1', '5'],
    ['F', 'x', '1', '8'], ['F', 'x', '1', 'E'], ['F', 'x', '2', '9'], ['F', 'x', '3', '3'],
    ['F', 'x', '5', '5'], ['F', 'x', '6', '5']]

/-- The digit that a place of a form stands for, if it stands for one. -/
def formDigit? (c : Char) : Option Nat :=
  if c.isDigit then some (c.toNat - '0'.toNat)
  else if c.isUpper then some (c.toNat - 'A'.toNat + 10)
  else none

def fits (w : Word) (form : List Char) : Bool :=
  (form.zip w.digits).all fun (c, d) => (formDigit? c).all (· == d)

theorem isSome_keyFamily? (x : Register) (k : Nat) :
    (keyFamily? x k).isSome = decide (k ∈ [0x9e, 0xa1]) := by
  unfold keyFamily?
  split <;> simp_all

theorem isSome_transferFamily? (x : Register) (k : Nat) :
    (transferFamily? x k).isSome =
      decide (k ∈ [0x07, 0x0a, 0x15, 0x18, 0x1e, 0x29, 0x33, 0x55, 0x65]) := by
  unfold transferFamily?
  split <;> simp_all

/-- A word reads as an instruction exactly if it has one of the forms. -/
theorem isSome_decode (w : Word) : (decode w).isSome = wordForms.any (fits w) := by
  have hlow : (Word.low w).toNat = 16 * (Word.digit w 0x10).val + (Word.digit w 0x1).val := by
    simp only [Word.toNat_low, Word.val_digit]
    omega
  have haddress : (Word.address w).val =
      256 * (Word.digit w 0x100).val + 16 * (Word.digit w 0x10).val + (Word.digit w 0x1).val := by
    simp only [Word.val_address, Word.val_digit]
    omega
  -- first what the forms say about the digits, once for all families
  rw [Bool.eq_iff_iff]
  simp only [wordForms, fits, Word.digits, formDigit?, ↓Char.isValue, List.any_cons,
    List.any_nil, List.map_cons, List.map_nil, List.zip_cons_cons, List.zip_nil_right,
    List.all_cons, List.all_nil, Char.reduceToNat, Char.reduceIsDigit, Char.reduceIsUpper,
    ↓reduceIte, Nat.sub_self, Nat.reduceSub, Nat.reduceAdd, Nat.zero_add, Option.all_some,
    Option.all_none, Bool.false_eq_true, Bool.and_true, Bool.true_and, Bool.and_self,
    Bool.or_false, Bool.or_eq_true, Bool.and_eq_true, beq_iff_eq]
  unfold decode
  simp only [hlow, haddress]
  clear hlow haddress
  generalize hd : (Word.digit w 0x1000).val = d
  split
  case h_17 =>
    have hlt := (Word.digit w 0x1000).isLt
    exfalso
    simp only [imp_false] at *
    omega
  all_goals simp [isSome_keyFamily?, isSome_transferFamily?, ArithOp.isSome_ofCode?]
  case h_1 =>
    split
    · simp only [Option.isSome_some, true_iff]
      omega
    split
    · simp only [Option.isSome_some, true_iff]
      omega
    · simp only [Option.isSome_none, Bool.false_eq_true, false_iff]
      omega
  case h_6 | h_10 =>
    rw [Fin.ext_iff, eq_comm]
    rfl
  case h_9 =>
    generalize Word.digit w 0x1 = n
    revert n
    decide
  case h_15 | h_16 =>
    generalize Word.digit w 0x10 = y, Word.digit w 0x1 = n
    revert y n
    decide

/-- The words that name no instruction are those that have none of the forms. -/
theorem decode_eq_none_iff (w : Word) :
    decode w = none ↔ ∀ form ∈ wordForms, fits w form = false := by
  rw [← Option.not_isSome_iff_eq_none, isSome_decode, List.any_eq_true, not_exists]
  simp only [not_and, Bool.not_eq_true]

end Instruction
end Chip8
