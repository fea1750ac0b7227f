import Chip8.Instruction.Coding

/-!
# Instructions and their words

Reading the word of an instruction gives the instruction back, and a word that reads as an
instruction is its word. So each instruction has exactly one word, and the words that name no
instruction are those that `encode` does not reach.
-/
namespace Chip8.Instruction

variable {family : Nat}

theorem toNat_packA (h : family < 16) (a : Address) :
    (packA family a).toNat = 4096 * family + a.val := by
  rw [packA, UInt16.toNat_ofNat']
  omega

theorem toNat_packXK (h : family < 16) (x : Register) (k : Byte) :
    (packXK family x k).toNat = 4096 * family + 256 * x.val + k.toNat := by
  have hk := k.toNat_lt
  rw [packXK, UInt16.toNat_ofNat']
  omega

theorem toNat_packXYN (h : family < 16) (x y : Register) (n : Fin 16) :
    (packXYN family x y n).toNat = 4096 * family + 256 * x.val + 16 * y.val + n.val := by
  rw [packXYN, UInt16.toNat_ofNat']
  omega

theorem digits_packA (h : family < 16) (a : Address) :
    (Word.digit (packA family a) 0x1000).val = family ∧ Word.address (packA family a) = a := by
  refine ⟨?_, Fin.ext ?_⟩
  · rw [Word.val_digit, toNat_packA h]
    omega
  · rw [Word.val_address, toNat_packA h]
    omega

theorem digits_packXK (h : family < 16) (x : Register) (k : Byte) :
    (Word.digit (packXK family x k) 0x1000).val = family ∧
      Word.digit (packXK family x k) 0x100 = x ∧ Word.low (packXK family x k) = k := by
  have hk := k.toNat_lt
  refine ⟨?_, Fin.ext ?_, UInt8.toNat_inj.mp ?_⟩
  · rw [Word.val_digit, toNat_packXK h]
    omega
  · rw [Word.val_digit, toNat_packXK h]
    omega
  · rw [Word.toNat_low, toNat_packXK h]
    omega

theorem digits_packXYN (h : family < 16) (x y : Register) (n : Fin 16) :
    (Word.digit (packXYN family x y n) 0x1000).val = family ∧
      Word.digit (packXYN family x y n) 0x100 = x ∧
      Word.digit (packXYN family x y n) 0x10 = y ∧ Word.digit (packXYN family x y n) 0x1 = n := by
  refine ⟨?_, Fin.ext ?_, Fin.ext ?_, Fin.ext ?_⟩ <;>
    rw [Word.val_digit, toNat_packXYN h] <;> omega

/-- Reading the word of an instruction gives the instruction back. -/
theorem decode_encode (i : Instruction) : decode (encode i) = some i := by
  cases i with
  | clearScreen | ret => rfl
  | jump a | call a | setIndex a | jumpOffset a =>
    simp [encode, decode, digits_packA]
  | skipIfByte x k | skipUnlessByte x k | setByte x k | addByte x k | random x k =>
    simp [encode, decode, digits_packXK]
  | arith op x y | skipIfEqual x y | skipUnlessEqual x y | draw x y op =>
    simp [encode, decode, digits_packXYN]
  | skipIfKey x | skipUnlessKey x =>
    simp [encode, decode, digits_packXK, keyFamily?]
  | readDelay x | waitKey x | setDelay x | setSound x | addIndex x | glyph x | decimal x | store x
  | load x =>
    simp [encode, decode, digits_packXK, transferFamily?]

/-- A word is its four digits. -/
theorem packXYN_digits (w : Word) :
    packXYN (Word.digit w 0x1000).val (Word.digit w 0x100) (Word.digit w 0x10) (Word.digit w 0x1) =
      w := by
  have hw := w.toNat_lt
  rw [← UInt16.toNat_inj, toNat_packXYN (Word.digit w 0x1000).isLt]
  simp only [Word.val_digit]
  omega

/-- A word is its first two digits and its low byte. -/
theorem packXK_digits (w : Word) :
    packXK (Word.digit w 0x1000).val (Word.digit w 0x100) (Word.low w) = w := by
  have hw := w.toNat_lt
  rw [← UInt16.toNat_inj, toNat_packXK (Word.digit w 0x1000).isLt]
  simp only [Word.val_digit, Word.toNat_low]
  omega

/-- A word is its first digit and its address. -/
theorem packA_digits (w : Word) : packA (Word.digit w 0x1000).val (Word.address w) = w := by
  have hw := w.toNat_lt
  rw [← UInt16.toNat_inj, toNat_packA (Word.digit w 0x1000).isLt]
  simp only [Word.val_digit, Word.val_address]
  omega

/-- An instruction that `keyFamily?` reads has that word. -/
theorem encode_keyFamily? {x : Register} {k : Byte} {i : Instruction}
    (h : keyFamily? x k.toNat = some i) : encode i = packXK 0xe x k := by
  unfold keyFamily? at h
  split at h
  · next hk =>
    obtain rfl : k = 0x9e := UInt8.toNat_inj.mp hk
    cases h
    rfl
  · next hk =>
    obtain rfl : k = 0xa1 := UInt8.toNat_inj.mp hk
    cases h
    rfl
  · cases h

/-- An instruction that `transferFamily?` reads has that word. -/
theorem encode_transferFamily? {x : Register} {k : Byte} {i : Instruction}
    (h : transferFamily? x k.toNat = some i) : encode i = packXK 0xf x k := by
  unfold transferFamily? at h
  split at h
  case h_10 => cases h
  all_goals
    next hk =>
      obtain rfl := UInt8.toNat_inj.mp (hk.trans (UInt8.toNat_ofNat_of_lt (by decide)).symm)
      cases h
      rfl

/-- A word that reads as an instruction is its word. -/
theorem encode_of_decode {w : Word} {i : Instruction} (h : decode w = some i) :
    encode i = w := by
  have hA := packA_digits w
  have hK := packXK_digits w
  have hN := packXYN_digits w
  unfold decode at h
  simp only at h
  split at h
  case h_1 hf =>
    rw [hf] at hA
    split at h
    · next ha =>
      obtain rfl := Option.some.inj h
      rw [← hA, show Word.address w = 0x0e0 from Fin.ext ha]
      rfl
    · split at h
      · next ha =>
        obtain rfl := Option.some.inj h
        rw [← hA, show Word.address w = 0x0ee from Fin.ext ha]
        rfl
      · cases h
  case h_6 hf | h_10 hf =>
    rw [hf] at hN
    split at h
    · next hn =>
      obtain rfl := Option.some.inj h
      rw [hn] at hN
      exact hN
    · cases h
  case h_9 hf =>
    rw [hf] at hN
    obtain ⟨op, ho, rfl⟩ := Option.map_eq_some_iff.mp h
    rw [ArithOp.eq_digit_of_ofCode? ho] at hN
    exact hN
  case h_15 hf =>
    rw [hf] at hK
    rw [encode_keyFamily? h]
    exact hK
  case h_16 hf =>
    rw [hf] at hK
    rw [encode_transferFamily? h]
    exact hK
  case h_17 => cases h
  all_goals
    next hf =>
      obtain rfl := Option.some.inj h
      rw [hf] at hA hK hN
      assumption

end Chip8.Instruction
