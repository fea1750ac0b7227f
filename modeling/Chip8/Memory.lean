import Chip8.Word

/-!
# Memory

Memory is 4096 bytes. The first eighty hold the font, one glyph of five bytes for each hexadecimal
digit; programs start at `Memory.programBase`. `Memory.Holds` says that a window of consecutive
bytes ends before the end of memory.
-/
namespace Chip8

/-- The bytes of a glyph in the font. -/
def glyphRows : Nat := 5

/-- The glyphs of the hexadecimal digits, in order. -/
def font : List Byte :=
  [0xf0, 0x90, 0x90, 0x90, 0xf0,
   0x20, 0x60, 0x20, 0x20, 0x70,
   0xf0, 0x10, 0xf0, 0x80, 0xf0,
   0xf0, 0x10, 0xf0, 0x10, 0xf0,
   0x90, 0x90, 0xf0, 0x10, 0x10,
   0xf0, 0x80, 0xf0, 0x10, 0xf0,
   0xf0, 0x80, 0xf0, 0x90, 0xf0,
   0xf0, 0x10, 0x20, 0x40, 0x40,
   0xf0, 0x90, 0xf0, 0x90, 0xf0,
   0xf0, 0x90, 0xf0, 0x10, 0xf0,
   0xf0, 0x90, 0xf0, 0x90, 0x90,
   0xe0, 0x90, 0xe0, 0x90, 0xe0,
   0xf0, 0x80, 0x80, 0x80, 0xf0,
   0xe0, 0x90, 0x90, 0x90, 0xe0,
   0xf0, 0x80, 0xf0, 0x80, 0xf0,
   0xf0, 0x80, 0xf0, 0x80, 0x80]

structure Memory where
  bytes : Vector Byte 4096
deriving DecidableEq

namespace Memory

def size : Nat := 4096

/-- The address of the first byte of a program. -/
def programBase : Nat := 0x200

/-- The longest program that fits. -/
def programRoom : Nat := size - programBase

def zero : Memory := ⟨Vector.replicate 4096 0⟩

/-- The byte at an address; past the end of memory there are zeros. -/
def get (m : Memory) (a : Nat) : Byte :=
  m.bytes[a]?.getD 0

/-- The `n` bytes from address `a` on. -/
def slice (m : Memory) (a n : Nat) : List Byte :=
  (List.range n).map fun i => m.get (a + i)

/-- Put bytes at consecutive addresses from `a` on; those past the end of memory are dropped. -/
def put (m : Memory) (a : Nat) : List Byte → Memory
  | [] => m
  | b :: bs => (Memory.mk (m.bytes.setIfInBounds a b)).put (a + 1) bs

/-- Memory as it is before a program is loaded: the font, and zeros. -/
def initial : Memory := zero.put 0 font

/-- The window of `n` bytes at `a` lies in memory. -/
def Holds (a n : Nat) : Prop :=
  a + n ≤ size

instance (a n : Nat) : Decidable (Holds a n) :=
  inferInstanceAs (Decidable (_ ≤ _))

/-- The word at an address, most significant byte first. -/
def word (m : Memory) (a : Nat) : Word :=
  Word.ofBytes (m.get a) (m.get (a + 1))

@[simp] theorem length_slice (m : Memory) (a n : Nat) : (m.slice a n).length = n := by
  simp [slice]

/-- A byte that was put is read back, and every other byte is as before. -/
theorem get_put (m : Memory) (a : Nat) (bs : List Byte) (i : Nat) (hi : i < size) :
    (m.put a bs).get i = if a ≤ i then bs[i - a]?.getD (m.get i) else m.get i := by
  induction bs generalizing m a with
  | nil => simp [put]
  | cons b bs ih =>
    rw [put, ih]
    have hs : i < 4096 := hi
    rcases Nat.lt_trichotomy i a with h | rfl | h
    · rw [if_neg (by omega), if_neg (by omega)]
      simp [get, show a ≠ i by omega]
    · rw [if_neg (by omega), if_pos (Nat.le_refl _)]
      simp [get, hs]
    · rw [if_pos (by omega), if_pos (by omega), show i - a = i - (a + 1) + 1 by omega]
      simp [get, show a ≠ i by omega]

/-- Past the end of memory there are zeros. -/
theorem get_of_size_le (m : Memory) {i : Nat} (h : size ≤ i) : m.get i = 0 := by
  have hnone : m.bytes[i]? = none := Vector.getElem?_eq_none h
  rw [get, hnone, Option.getD_none]

/-- Bytes outside a window are left alone when bytes are put there. -/
theorem get_put_of_outside {m : Memory} {a i : Nat} {bs : List Byte}
    (h : i < a ∨ a + bs.length ≤ i) : (m.put a bs).get i = m.get i := by
  by_cases hi : i < size
  · rw [get_put _ _ _ _ hi]
    rcases h with hlt | hle
    · rw [if_neg (Nat.not_le.mpr hlt)]
    · have hpast : bs.length ≤ i - a := by omega
      rw [List.getElem?_eq_none hpast, Option.getD_none, ite_self]
  · rw [get_of_size_le _ (Nat.not_lt.mp hi), get_of_size_le _ (Nat.not_lt.mp hi)]

/-- Bytes that are put are the same whatever was there before. -/
theorem get_put_congr {m m' : Memory} {a i : Nat} {bs : List Byte}
    (h : m'.get i = m.get i ∨ a ≤ i ∧ i < a + bs.length) :
    (m'.put a bs).get i = (m.put a bs).get i := by
  by_cases hi : i < size
  · rw [get_put _ _ _ _ hi, get_put _ _ _ _ hi]
    rcases h with hsame | ⟨hle, hlt⟩
    · rw [hsame]
    · have hin : i - a < bs.length := by omega
      rw [if_pos hle, if_pos hle, List.getElem?_eq_getElem hin, Option.getD_some, Option.getD_some]
  · rw [get_of_size_le _ (Nat.not_lt.mp hi), get_of_size_le _ (Nat.not_lt.mp hi)]

theorem slice_congr {m m' : Memory} {a n : Nat}
    (h : ∀ i, a ≤ i → i < a + n → m'.get i = m.get i) : m'.slice a n = m.slice a n := by
  rw [slice, slice]
  apply List.map_congr_left
  intro i hi
  have hlt := List.mem_range.mp hi
  exact h (a + i) (Nat.le_add_right ..) (by omega)

theorem word_congr {m m' : Memory} {a : Nat} (h : m'.get a = m.get a)
    (h' : m'.get (a + 1) = m.get (a + 1)) : m'.word a = m.word a := by
  rw [word, word, h, h']

/-- A word whose bytes were put is read back. -/
theorem word_put (m : Memory) {a i : Nat} {bs : List Byte} (hi : i + 1 < bs.length)
    (ha : a + i + 1 < size) : (m.put a bs).word (a + i) = Word.ofBytes bs[i] bs[i + 1] := by
  have hlast : a + i + 1 - a = i + 1 := by omega
  rw [word, get_put _ _ _ _ (Nat.lt_of_succ_lt ha), get_put _ _ _ _ ha, if_pos (by omega),
    if_pos (by omega), Nat.add_sub_cancel_left, hlast, List.getElem?_eq_getElem hi,
    List.getElem?_eq_getElem (Nat.lt_of_succ_lt hi), Option.getD_some, Option.getD_some]

end Memory
end Chip8
