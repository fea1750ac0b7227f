/-!
# Hexadecimal numbers

Numbers are written in base sixteen with lower-case digits, either with as few digits as they need
or with a fixed number of them.
-/
namespace Chip8.Hex

def digitChar (d : Nat) : Char :=
  Nat.digitChar d

/-- The value of a hexadecimal digit in either case. -/
def digitValue? (c : Char) : Option Nat :=
  if '0' ≤ c ∧ c ≤ '9' then some (c.toNat - '0'.toNat)
  else if 'a' ≤ c ∧ c ≤ 'f' then some (c.toNat - 'a'.toNat + 10)
  else if 'A' ≤ c ∧ c ≤ 'F' then some (c.toNat - 'A'.toNat + 10)
  else none

/-- The digits of a number, most significant first, without leading zeros; zero is one digit. -/
def digits (n : Nat) : List Char :=
  if n < 16 then [digitChar n] else digits (n / 16) ++ [digitChar (n % 16)]

/-- The last `width` digits of a number, with leading zeros. -/
def fixedDigits : (width n : Nat) → List Char
  | 0, _ => []
  | width + 1, n => fixedDigits width (n / 16) ++ [digitChar (n % 16)]

/-- A number with as few digits as it needs. -/
def text (n : Nat) : String :=
  String.ofList (digits n)

/-- A number in exactly `width` digits. -/
def fixed (width n : Nat) : String :=
  String.ofList (fixedDigits width n)

@[simp] theorem length_fixedDigits (width n : Nat) : (fixedDigits width n).length = width := by
  induction width generalizing n with
  | zero => rfl
  | succ width ih => simp [fixedDigits, ih]

/-- The number that a list of digits stands for, most significant first. -/
def ofDigits? (cs : List Char) : Option Nat :=
  cs.foldlM (fun n c => (digitValue? c).map (16 * n + ·)) 0

theorem digitValue?_digitChar : ∀ d < 16, digitValue? (digitChar d) = some d := by
  decide

theorem isAlphanum_digitChar : ∀ d < 16, (digitChar d).isAlphanum = true := by
  decide

theorem ofDigits?_nil : ofDigits? [] = some 0 := rfl

/-- A digit behind a number. -/
theorem ofDigits?_append_digitChar {cs : List Char} {n : Nat} (h : ofDigits? cs = some n)
    (d : Nat) : ofDigits? (cs ++ [digitChar (d % 16)]) = some (16 * n + d % 16) := by
  have hdigit := digitValue?_digitChar (d % 16) (Nat.mod_lt d (by decide))
  rw [ofDigits?, List.foldlM_append, ← ofDigits?, h]
  simp only [Option.bind_eq_bind, Option.bind_some, List.foldlM_cons, hdigit, Option.map_some,
    List.foldlM_nil, Option.pure_def]

/-- A number is read back from its digits. -/
theorem ofDigits?_digits (n : Nat) : ofDigits? (digits n) = some n := by
  induction n using digits.induct with
  | case1 n hlt =>
    have hread := ofDigits?_append_digitChar ofDigits?_nil n
    rw [Nat.mod_eq_of_lt hlt, Nat.mul_zero, Nat.zero_add] at hread
    rw [digits, if_pos hlt]
    exact hread
  | case2 n hge ih =>
    rw [digits, if_neg hge, ofDigits?_append_digitChar ih, Nat.div_add_mod]

/-- A number below sixteen to the fourth is read back from its last four digits. -/
theorem ofDigits?_fixedDigits_four {n : Nat} (h : n < 0x10000) :
    ofDigits? (fixedDigits 4 n) = some n := by
  have hread := ofDigits?_append_digitChar (ofDigits?_append_digitChar (ofDigits?_append_digitChar
    (ofDigits?_append_digitChar ofDigits?_nil (n / 16 / 16 / 16)) (n / 16 / 16)) (n / 16)) n
  have hvalue : 16 * (16 * (16 * (16 * 0 + n / 16 / 16 / 16 % 16) + n / 16 / 16 % 16) +
      n / 16 % 16) + n % 16 = n := by omega
  rw [hvalue] at hread
  exact hread

/-! ## Characters of numbers -/

theorem isAlphanum_of_mem_fixedDigits {c : Char} {width n : Nat} (h : c ∈ fixedDigits width n) :
    c.isAlphanum = true := by
  induction width generalizing n with
  | zero => cases h
  | succ width ih =>
    rw [fixedDigits, List.mem_append, List.mem_singleton] at h
    rcases h with hearlier | rfl
    · exact ih hearlier
    · exact isAlphanum_digitChar _ (Nat.mod_lt n (by decide))

theorem isAlphanum_of_mem_digits {c : Char} {n : Nat} (h : c ∈ digits n) : c.isAlphanum = true := by
  induction n using digits.induct with
  | case1 n hlt =>
    rw [digits, if_pos hlt, List.mem_singleton] at h
    rw [h]
    exact isAlphanum_digitChar n hlt
  | case2 n hge ih =>
    rw [digits, if_neg hge, List.mem_append, List.mem_singleton] at h
    rcases h with hearlier | rfl
    · exact ih hearlier
    · exact isAlphanum_digitChar _ (Nat.mod_lt n (by decide))

end Chip8.Hex
