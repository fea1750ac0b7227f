import Chip8.Proofs.Reachable
import Chip8.Recorder

/-!
# Register arithmetic on integers

Bytes wrap around, a shift chooses its operand, and the flag register can be an operand or the
destination. `ArithOp.value` and `ArithOp.carries` say on integers what an operation leaves in its
register and in the flag. The machine agrees with them for all contents of its registers and however
the two registers and the flag coincide, since operands are read before anything is written and the
flag is written last.
-/
namespace Chip8

namespace Byte

theorem toNat_sub (a b : Byte) : ((a - b).toNat : Int) = ((a.toNat : Int) - b.toNat) % 256 := by
  have ha := a.toNat_lt
  have hb := b.toNat_lt
  rw [UInt8.toNat_sub]
  omega

theorem toNat_shiftRight_one (s : Byte) : (s >>> 1).toNat = s.toNat / 2 := by
  rw [UInt8.toNat_shiftRight, Nat.shiftRight_eq_div_pow]
  rfl

theorem toNat_shiftLeft_one (s : Byte) : (s <<< 1).toNat = 2 * s.toNat % 256 := by
  rw [UInt8.toNat_shiftLeft, Nat.shiftLeft_eq, Nat.mul_comm]
  rfl

theorem toNat_flagOf (condition : Bool) : (flagOf condition).toNat = condition.toNat := by
  cases condition <;> rfl

/-- The lowest bit of a byte tells whether it is odd. -/
theorem and_one (s : Byte) : s &&& 1 = flagOf (s.toNat % 2 = 1) := by
  apply UInt8.toNat_inj.mp
  rw [UInt8.toNat_and, toNat_flagOf, UInt8.toNat_one, Nat.and_one_is_mod]
  rcases Nat.mod_two_eq_zero_or_one s.toNat with h | h <;> simp [h]

/-- The highest bit of a byte tells whether it lies in the upper half. -/
theorem shiftRight_seven (s : Byte) : s >>> 7 = flagOf (128 ≤ s.toNat) := by
  have hs := s.toNat_lt
  have hshift : (s >>> 7).toNat = s.toNat / 128 := by
    rw [UInt8.toNat_shiftRight, Nat.shiftRight_eq_div_pow]
    rfl
  apply UInt8.toNat_inj.mp
  rw [hshift, toNat_flagOf]
  by_cases h : 128 ≤ s.toNat
  · simp only [h, decide_true, Bool.toNat_true]
    omega
  · simp only [h, decide_false, Bool.toNat_false]
    omega

end Byte

namespace ArithOp

/-- The number that an operation leaves in its register, when its operands hold `a` and `b` and a
shift acts on `s`. -/
def value (a b s : Nat) : ArithOp → Int
  | copy => b
  | or => (a ||| b : Nat)
  | and => (a &&& b : Nat)
  | xor => (a ^^^ b : Nat)
  | add => ((a : Int) + b) % 256
  | sub => ((a : Int) - b) % 256
  | shiftRight => (s : Int) / 2
  | subFrom => ((b : Int) - a) % 256
  | shiftLeft => 2 * (s : Int) % 256

/-- Whether an operation leaves one in the flag rather than zero; a copy leaves the flag alone. -/
def carries (a b s : Nat) : ArithOp → Bool
  | copy | or | and | xor => false
  | add => 255 < a + b
  | sub => b ≤ a
  | shiftRight => s % 2 = 1
  | subFrom => a ≤ b
  | shiftLeft => 128 ≤ s

/-- The result of an operation stands for the number that it should. -/
theorem toNat_eval (op : ArithOp) (a b s : Byte) :
    ((op.eval a b s).1.toNat : Int) = op.value a.toNat b.toNat s.toNat := by
  cases op with
  | copy => rfl
  | or | and | xor | add => simp [eval, value]
  | sub => exact Byte.toNat_sub a b
  | subFrom => exact Byte.toNat_sub b a
  | shiftRight =>
    rw [eval, value, Byte.toNat_shiftRight_one]
    rfl
  | shiftLeft =>
    rw [eval, value, Byte.toNat_shiftLeft_one]
    rfl

theorem flag_eval {op : ArithOp} (h : op ≠ copy) (a b s : Byte) :
    (op.eval a b s).2 = some (flagOf (op.carries a.toNat b.toNat s.toNat)) := by
  cases op with
  | copy => exact absurd rfl h
  | or | and | xor | add | sub | subFrom => rfl
  | shiftRight => exact congrArg some (Byte.and_one s)
  | shiftLeft => exact congrArg some (Byte.shiftRight_seven s)

end ArithOp

namespace Machine

variable {m : Machine} {op : ArithOp} {x y : Register}

/-- The number that a shift of the registers `x` and `y` acts on. -/
def shifted (m : Machine) (x y : Register) : Nat :=
  if m.dialect.shiftsSecond then (m.reg y).toNat else (m.reg x).toNat

/-- What the registers hold when the machine `m` has combined two of them and goes on as `next`. -/
structure Combined (op : ArithOp) (x y : Register) (m next : Machine) : Prop where
  /-- The flag wins over the result where both go to the same register. -/
  flag : op ≠ .copy → next.reg flagRegister =
    flagOf (op.carries (m.reg x).toNat (m.reg y).toNat (m.shifted x y))
  result : x ≠ flagRegister ∨ op = .copy → ((next.reg x).toNat : Int) =
    op.value (m.reg x).toNat (m.reg y).toNat (m.shifted x y)
  rest : ∀ r, r ≠ x → r ≠ flagRegister ∨ op = .copy → next.reg r = m.reg r

theorem reg_setResult_none (m : Machine) (x : Register) (b : Byte) (r : Register) :
    (m.setResult x (b, none)).reg r = if x = r then b else m.reg r :=
  reg_set m x b r

/-- The flag is written last. -/
theorem reg_setResult_some (m : Machine) (x : Register) (b flag : Byte) (r : Register) :
    (m.setResult x (b, some flag)).reg r =
      if flagRegister = r then flag else if x = r then b else m.reg r := by
  rw [setResult, reg_set, reg_set]

/-- Combining two registers agrees with integer arithmetic, however they coincide. -/
theorem combined_afterArith (m : Machine) (op : ArithOp) (x y : Register) :
    Combined op x y m (m.afterArith op x y) := by
  let s := if m.dialect.shiftsSecond then m.reg y else m.reg x
  have hs : s.toNat = m.shifted x y := by
    simp only [s, shifted]
    split <;> rfl
  have hresult := op.toNat_eval (m.reg x) (m.reg y) s
  have hnext : m.afterArith op x y = m.setResult x (op.eval (m.reg x) (m.reg y) s) := rfl
  rw [hs] at hresult
  rw [hnext]
  by_cases hop : op = .copy
  · subst hop
    have heval : ArithOp.copy.eval (m.reg x) (m.reg y) s = (m.reg y, none) := rfl
    rw [heval] at hresult ⊢
    refine ⟨fun h => absurd rfl h, fun _ => ?_, fun r hr _ => ?_⟩
    · rw [reg_setResult_none, if_pos rfl]
      exact hresult
    · rw [reg_setResult_none, if_neg (Ne.symm hr)]
  · have hflag := ArithOp.flag_eval hop (m.reg x) (m.reg y) s
    rw [hs] at hflag
    rcases heval : op.eval (m.reg x) (m.reg y) s with ⟨b, flag⟩
    rw [heval] at hresult hflag
    obtain rfl : flag = some _ := hflag
    refine ⟨fun _ => ?_, fun hx => ?_, fun r hr hflag => ?_⟩
    · rw [reg_setResult_some, if_pos rfl]
    · have hx' : flagRegister ≠ x := Ne.symm (hx.resolve_right hop)
      rw [reg_setResult_some, if_neg hx', if_pos rfl]
      exact hresult
    · have hr' : flagRegister ≠ r := Ne.symm (hflag.resolve_right hop)
      rw [reg_setResult_some, if_neg hr', if_neg (Ne.symm hr)]

/-! ## The step -/

/-- An instruction that combines two registers, or adds a byte to one, succeeds and agrees with
integer arithmetic. -/
theorem arithmetic_of_step (hstatus : m.status = .running) {H : Type} [Host H] (host : H) :
    (∀ op x y, m.Fetches (.arith op x y) → ∃ turn, m.step host = .ok turn ∧
        turn.fault = none ∧ Combined op x y m turn.machine) ∧
      ∀ x k, m.Fetches (.addByte x k) → ∃ turn, m.step host = .ok turn ∧ turn.fault = none ∧
        (turn.machine.reg x).toNat = ((m.reg x).toNat + k.toNat) % 256 ∧
        ∀ r, r ≠ x → turn.machine.reg r = m.reg r := by
  constructor
  · intro op x y hfetch
    have hcombined := combined_afterArith m.pass op x y
    refine ⟨_, (hfetch.shallow rfl).step_eq_turn hstatus host, ?_⟩
    rw [turn_quiet hfetch.effect_eq]
    exact ⟨rfl, hcombined.flag, hcombined.result, hcombined.rest⟩
  · intro x k hfetch
    refine ⟨_, (hfetch.shallow rfl).step_eq_turn hstatus host, ?_⟩
    rw [turn_quiet hfetch.effect_eq]
    refine ⟨rfl, ?_, fun r hr => ?_⟩
    · rw [reg_set, if_pos rfl]
      exact UInt8.toNat_add (m.reg x) k
    · rw [reg_set, if_neg (Ne.symm hr)]
      rfl

/-- Adding the flag register to itself, when it holds 255: the carry wins over the sum. -/
theorem double_flag :
    ∃ (m : Machine) (turn : Turn Recorder), m.reg flagRegister = 255 ∧
      m.Fetches (.arith .add flagRegister flagRegister) ∧ m.step ({} : Recorder) = .ok turn ∧
      turn.machine.reg flagRegister = 1 := by
  obtain ⟨m, -, -, hstatus, -, -, hfetch⟩ :=
    boot_instruction (i := .arith .add flagRegister flagRegister) .cosmac (.cycle []) 0x8f 0xf4
      (by decide)
  let full := m.set flagRegister 255
  have hfull : full.reg flagRegister = 255 := by rw [reg_set, if_pos rfl]
  have hfetch' : full.Fetches (.arith .add flagRegister flagRegister) := hfetch
  obtain ⟨turn, hstep, -, hcombined⟩ :=
    (arithmetic_of_step (m := full) hstatus ({} : Recorder)).1 _ _ _ hfetch'
  have hflag := hcombined.flag (by decide)
  rw [hfull] at hflag
  exact ⟨full, turn, hfull, hfetch', hstep, hflag⟩

end Machine
end Chip8
