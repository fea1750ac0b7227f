import Chip8.Proofs.Frame
import Chip8.Recorder

/-!
# The footprint of an instruction

Every instruction has a part of the machine that it may change: a window of memory, a register or
some of them, the flag, the index register, the display or the stack. `Machine.Footprint` says of an
instruction that the rest stays as it was, with what becomes of random bytes and program counter. It
holds of every step that raises no fault, also of one that writes over the font, over the program,
or over the instruction that is carried out.
-/
namespace Chip8

namespace Instruction

/-- Whether an instruction can write the byte at an address, when the index register holds
`index`. -/
def Writes (index a : Nat) : Instruction → Prop
  | decimal _ => index ≤ a ∧ a ≤ index + 2
  | store x => index ≤ a ∧ a ≤ index + x.val
  | _ => False

/-- Whether a register is one of those that an instruction puts its result into. -/
def sets (r : Register) : Instruction → Bool
  | setByte x _ | addByte x _ | arith _ x _ | random x _ | readDelay x | waitKey x => x = r
  | load x => r.val ≤ x.val
  | _ => false

/-- Whether an instruction leaves something in the flag, whatever register its result goes to. -/
def flags : Instruction → Bool
  | arith op _ _ => op ≠ .copy
  | draw _ _ _ => true
  | _ => false

def changes (r : Register) (i : Instruction) : Bool :=
  i.sets r || (r = flagRegister && i.flags)

/-- Whether an instruction can change the index register in a dialect. -/
def movesIndex (dialect : Dialect) : Instruction → Bool
  | setIndex _ | addIndex _ | glyph _ => true
  | store _ | load _ => dialect.advancesIndex
  | _ => false

def rolls : Instruction → Bool
  | random _ _ => true
  | _ => false

def skips : Instruction → Bool
  | skipIfByte _ _ | skipUnlessByte _ _ | skipIfEqual _ _ | skipUnlessEqual _ _ | skipIfKey _
  | skipUnlessKey _ => true
  | _ => false

/-- Whether an instruction continues at an address of its own. -/
def jumps : Instruction → Bool
  | ret | jump _ | call _ | jumpOffset _ => true
  | _ => false

end Instruction

namespace Machine

/-- What an instruction can change of registers, memory and program counter when the machine `m`
carries it out and goes on as `next`. -/
structure Footprint (i : Instruction) (m next : Machine) : Prop where
  memory : ∀ a < Memory.size, ¬ i.Writes m.index.toNat a → next.memory.get a = m.memory.get a
  reg : ∀ r, i.changes r = false → next.reg r = m.reg r
  index : i.movesIndex m.dialect = false → next.index = m.index
  dialect : next.dialect = m.dialect
  entropy : next.entropy = if i.rolls then m.entropy.tail else m.entropy
  pc : i.jumps = false →
    next.pc.toNat = m.pc.toNat + 2 ∨ i.skips = true ∧ next.pc.toNat = m.pc.toNat + 4

/-- The machines have the same registers and memory, the same dialect and the same entropy. -/
structure SameData (m next : Machine) : Prop where
  v : next.v = m.v
  index : next.index = m.index
  memory : next.memory = m.memory
  dialect : next.dialect = m.dialect
  entropy : next.entropy = m.entropy

variable {m next : Machine} {i : Instruction}

/-! ## Footprints of the operations -/

/-- An instruction that is about the program counter, the stack, the display or the host leaves no
other trace. -/
theorem SameData.footprint (h : SameData m next) (hrolls : i.rolls = false)
    (hpc : i.jumps = false →
      next.pc.toNat = m.pc.toNat + 2 ∨ i.skips = true ∧ next.pc.toNat = m.pc.toNat + 4) :
    Footprint i m next where
  memory a _ _ := by rw [h.memory]
  reg r _ := by rw [reg, reg, h.v]
  index _ := h.index
  dialect := h.dialect
  entropy := by
    rw [hrolls]
    exact h.entropy
  pc := hpc

theorem footprint_pass (hreads : m.Reads) (hrolls : i.rolls = false) : Footprint i m m.pass :=
  SameData.footprint ⟨rfl, rfl, rfl, rfl, rfl⟩ hrolls fun _ => .inl hreads.toNat_pc_pass

theorem footprint_passIf (hreads : m.Reads) (hskips : i.skips = true) (hrolls : i.rolls = false)
    (condition : Bool) : Footprint i m (m.pass.passIf condition) := by
  cases condition with
  | false => exact footprint_pass hreads hrolls
  | true =>
    have hpass := hreads.toNat_pc_pass
    have hpc := hreads.2
    have hover : m.pass.pass.pc.toNat = m.pass.pc.toNat + 2 := toNat_pc_pass (by omega)
    refine SameData.footprint ⟨rfl, rfl, rfl, rfl, rfl⟩ hrolls fun _ => .inr ⟨hskips, ?_⟩
    exact hover.trans (by omega)

namespace Footprint

/-- The registers that an instruction can change may change. -/
theorem withRegisters (h : Footprint i m next) {v : Vector Byte 16}
    (hv : ∀ r, i.changes r = false → v.get r = next.reg r) : Footprint i m { next with v } where
  memory := h.memory
  reg r hr := (hv r hr).trans (h.reg r hr)
  index := h.index
  dialect := h.dialect
  entropy := h.entropy
  pc := h.pc

theorem set (h : Footprint i m next) {x : Register} (hx : i.changes x = true) (b : Byte) :
    Footprint i m (next.set x b) := by
  apply h.withRegisters
  intro r hr
  have hne : x ≠ r := by
    rintro rfl
    rw [hx] at hr
    cases hr
  exact (reg_set next x b r).trans (if_neg hne)

/-- The result of an operation goes to a register and, if the operation has a flag, to the flag. -/
theorem setResult (h : Footprint i m next) {x : Register} (hx : i.changes x = true)
    {result : Byte × Option Byte} (hflag : result.2.isSome = true → i.changes flagRegister = true) :
    Footprint i m (next.setResult x result) := by
  rcases result with ⟨b, _ | flag⟩
  · exact h.set hx b
  · exact (h.set hx b).set (hflag rfl) flag

theorem setFirst (h : Footprint i m next) {bytes : List Byte}
    (hbytes : ∀ r : Register, r.val < bytes.length → i.changes r = true) :
    Footprint i m (next.setFirst bytes) := by
  apply h.withRegisters
  intro r hr
  have hpast : bytes.length ≤ r.val := by
    by_contra hlt
    rw [hbytes r (Nat.not_le.mp hlt)] at hr
    cases hr
  refine (reg_setFirst next bytes r).trans ?_
  rw [List.getElem?_eq_none hpast, Option.getD_none]

theorem write (h : Footprint i m next) (hindex : next.index = m.index) {bytes : List Byte}
    (hbytes : ∀ a, m.index.toNat ≤ a → a < m.index.toNat + bytes.length →
      i.Writes m.index.toNat a) :
    Footprint i m (next.write bytes) where
  memory a ha hout := by
    have houtside : a < m.index.toNat ∨ m.index.toNat + bytes.length ≤ a := by
      by_contra hinside
      exact hout (hbytes a (by omega) (by omega))
    rw [← hindex] at houtside
    exact (Memory.get_put_of_outside houtside).trans (h.memory a ha hout)
  reg := h.reg
  index := h.index
  dialect := h.dialect
  entropy := h.entropy
  pc := h.pc

theorem indexMoved (h : Footprint i m next) {x : Register}
    (hindex : i.movesIndex m.dialect = m.dialect.advancesIndex) :
    Footprint i m (next.indexMoved x) := by
  rw [Machine.indexMoved]
  split
  · next hmoves =>
    refine ⟨h.memory, h.reg, fun hkeeps => ?_, h.dialect, h.entropy, h.pc⟩
    rw [hindex, ← h.dialect, hmoves] at hkeeps
    cases hkeeps
  · exact h

end Footprint

/-! ## Footprints of the instructions -/

theorem isSome_eval (op : ArithOp) (a b s : Byte) :
    (op.eval a b s).2.isSome = decide (op ≠ .copy) := by
  cases op <;> rfl

/-- Whatever the host answers, an instruction changes nothing outside its footprint. -/
theorem ensures_footprint {effect : Effect} (hreads : m.Reads)
    (h : m.pass.effectOf i = .ok effect) : effect.Ensures (Footprint i m) := by
  have hpass := hreads.toNat_pc_pass
  cases i with
  | ret | jump target | call target =>
    refine Effect.ensures_of_map_quiet (fun next hnext => ?_) h
    obtain ⟨-, rfl⟩ := check_eq_ok.mp hnext
    exact SameData.footprint ⟨rfl, rfl, rfl, rfl, rfl⟩ rfl (by rintro ⟨⟩)
  | jumpOffset target =>
    cases h
    exact SameData.footprint ⟨rfl, rfl, rfl, rfl, rfl⟩ rfl (by rintro ⟨⟩)
  | clearScreen | setDelay x | setSound x =>
    cases h
    exact SameData.footprint ⟨rfl, rfl, rfl, rfl, rfl⟩ rfl fun _ => .inl hpass
  | skipIfByte x k | skipUnlessByte x k | skipIfEqual x y | skipUnlessEqual x y =>
    cases h
    exact footprint_passIf hreads rfl rfl _
  | skipIfKey x | skipUnlessKey x =>
    rw [effectOf, keyEffect] at h
    split at h <;> cases h
    exact fun answer => footprint_passIf hreads rfl rfl _
  | setByte x k | addByte x k =>
    cases h
    exact (footprint_pass hreads rfl).set (by simp [Instruction.changes, Instruction.sets]) _
  | readDelay x =>
    cases h
    exact fun value =>
      (footprint_pass hreads rfl).set (by simp [Instruction.changes, Instruction.sets]) value
  | waitKey x =>
    cases h
    intro key next hnext
    obtain ⟨-, rfl⟩ := check_eq_ok.mp hnext
    exact (footprint_pass hreads rfl).set (by simp [Instruction.changes, Instruction.sets]) key
  | random x mask =>
    cases h
    have hdrawn : Footprint (.random x mask) m { m.pass with entropy := m.entropy.tail } :=
      ⟨fun _ _ _ => rfl, fun _ _ => rfl, fun _ => rfl, rfl, rfl, fun _ => .inl hpass⟩
    exact hdrawn.set (by simp [Instruction.changes, Instruction.sets]) _
  | arith op x y =>
    cases h
    refine (footprint_pass hreads rfl).setResult
      (by simp [Instruction.changes, Instruction.sets]) ?_
    rw [isSome_eval]
    intro hop
    simp [Instruction.changes, Instruction.flags, hop]
  | draw x y height =>
    obtain ⟨-, rfl⟩ := check_eq_ok.mp h
    have hdrawn : Footprint (.draw x y height) m
        { m.pass with display := m.display.invert (m.covered x y height) } :=
      SameData.footprint ⟨rfl, rfl, rfl, rfl, rfl⟩ rfl fun _ => .inl hpass
    exact hdrawn.set rfl _
  | setIndex place | addIndex x =>
    cases h
    exact ⟨fun _ _ _ => rfl, fun _ _ => rfl, (by rintro ⟨⟩), rfl, rfl, fun _ => .inl hpass⟩
  | glyph x =>
    refine Effect.ensures_of_map_quiet (fun next hnext => ?_) h
    obtain ⟨-, rfl⟩ := check_eq_ok.mp hnext
    exact ⟨fun _ _ _ => rfl, fun _ _ => rfl, (by rintro ⟨⟩), rfl, rfl, fun _ => .inl hpass⟩
  | decimal x =>
    refine Effect.ensures_of_map_quiet (fun next hnext => ?_) h
    obtain ⟨-, rfl⟩ := check_eq_ok.mp hnext
    exact (footprint_pass hreads rfl).write rfl fun a hle hlt => ⟨hle, Nat.le_of_lt_succ hlt⟩
  | store x =>
    refine Effect.ensures_of_map_quiet (fun next hnext => ?_) h
    obtain ⟨-, rfl⟩ := check_eq_ok.mp hnext
    refine ((footprint_pass hreads rfl).write rfl fun a hle hlt => ?_).indexMoved rfl
    rw [length_first] at hlt
    exact ⟨hle, Nat.le_of_lt_succ hlt⟩
  | load x =>
    refine Effect.ensures_of_map_quiet (fun next hnext => ?_) h
    obtain ⟨-, rfl⟩ := check_eq_ok.mp hnext
    refine ((footprint_pass hreads rfl).setFirst fun r hlt => ?_).indexMoved rfl
    rw [Memory.length_slice] at hlt
    simp [Instruction.changes, Instruction.sets, Nat.le_of_lt_succ hlt]

/-! ## The step -/

/-- A step that raises no fault carries out an instruction, and changes nothing but what that
instruction may change. -/
theorem footprint_of_step (hm : m.Reachable) (hstatus : m.status = .running) {H : Type} [Host H]
    (host : H) :
    ∃ turn, m.step host = .ok turn ∧ (turn.fault = none →
      ∃ i, m.Fetches i ∧ Frame i m turn.machine ∧ Footprint i m turn.machine) := by
  refine ⟨m.turn host, step_eq_turn hstatus hm.sound.depth_le host, ?_⟩
  intro hnone
  obtain ⟨c, -, hturn⟩ | ⟨_, -, -, hturn⟩ | ⟨effect, next, host', heffect, hperform, hturn⟩ :=
    turn_cases m host
  · rw [hturn] at hnone
    cases hnone
  · rw [hturn] at hnone
    cases hnone
  obtain ⟨i, hfetch, hi⟩ := exists_fetches heffect
  have hframe := (ensures_frame hi).of_perform hperform
  have hfootprint := (ensures_footprint hfetch.1 hi).of_perform hperform
  rw [hturn]
  exact ⟨i, hfetch, ⟨hframe.display, hframe.depth, hframe.cells⟩, hfootprint⟩

/-- A program that stores two registers over the first glyph leaves the rest of memory alone. -/
theorem store_over_glyph :
    ∃ (m : Machine) (turn : Turn Recorder), boot .cosmac (.cycle []) [0xf1, 0x55] = .ok m ∧
      m.step ({} : Recorder) = .ok turn ∧ turn.fault = none ∧
      (∀ a < Memory.size, 2 ≤ a → turn.machine.memory.get a = m.memory.get a) ∧
      turn.machine.pc.toNat = m.pc.toNat + 2 := by
  obtain ⟨m, hboot, hm, hstatus, -, hindex, hfetch⟩ :=
    boot_instruction (i := .store (lastDigit 1)) .cosmac (.cycle []) 0xf1 0x55 (by decide)
  obtain ⟨turn, hstep, hfootprint⟩ := footprint_of_step hm hstatus ({} : Recorder)
  have hnone : turn.fault = none := by
    have hroom : ¬ Memory.size ≤ m.pass.index.toNat + (lastDigit 1).val := by
      change ¬ Memory.size ≤ m.index.toNat + (lastDigit 1).val
      rw [hindex]
      decide
    rw [step_eq_turn hstatus hm.sound.depth_le, Machine.turn, hfetch.effect_eq, effectOf,
      afterStore, if_neg hroom] at hstep
    cases hstep
    rfl
  obtain ⟨i, hi, -, htouched⟩ := hfootprint hnone
  cases hfetch.unique hi
  refine ⟨m, turn, hboot, hstep, hnone, fun a ha hle => htouched.memory a ha ?_, ?_⟩
  · rintro ⟨-, hlt⟩
    rw [hindex] at hlt
    exact absurd (hle.trans hlt) (by decide)
  · exact (htouched.pc rfl).resolve_right (by rintro ⟨⟨⟩, -⟩)

end Machine
end Chip8
