import Chip8.Proofs.Effect

/-!
# Operations inside their domain

Each operation of a machine, run in place, ends as its value says: with the machine that follows, or
with a fault and the machine that it began with. The hypotheses are those of the domain: a program
counter with room to move, and a stack that is not deeper than its cells.
-/
namespace Chip8

/-- How a computation ends that succeeds with a state or leaves the old one behind. -/
def Exec.settle {σ : Type} (s : σ) : Except Fault σ → EStateM.Result Stop σ Unit
  | .ok next => .ok () next
  | .error cause => .error (.fault cause) s

/-- How a computation on a world ends that succeeds with a machine or leaves the old one behind. -/
def World.settle {H : Type} (m : Machine) :
    Except Fault Machine × H → EStateM.Result Stop (World H) Unit
  | (.ok next, host) => .ok () ⟨next, host⟩
  | (.error cause, host) => .error (.fault cause) ⟨m, host⟩

namespace Machine

variable {m : Machine}

theorem run_peek {a : Nat} (h : a < Memory.size) :
    (peek a).run m = .ok (m.memory.get a) m := by
  rw [peek, EStateM.run_bind, Exec.run_require h]
  rfl

theorem run_poke {a : Nat} (h : a < Memory.size) (b : Byte) :
    (poke a b).run m = .ok () { m with memory := m.memory.put a [b] } := by
  rw [poke, EStateM.run_bind, Exec.run_require h]
  rfl

theorem run_readWindow {a n : Nat} (h : Memory.Holds a n) :
    (readWindow a n).run m = .ok (m.memory.slice a n) m := by
  rw [readWindow, EStateM.run_bind, Exec.run_require h]
  rfl

theorem run_writeWindow {a : Nat} {bytes : List Byte} (h : Memory.Holds a bytes.length) :
    (writeWindow a bytes).run m = .ok () { m with memory := m.memory.put a bytes } := by
  rw [writeWindow, EStateM.run_bind, Exec.run_require h]
  rfl

/-! ## The program counter -/

theorem toNat_pc_pass (h : m.pc.toNat + 2 < 0x10000) : m.pass.pc.toNat = m.pc.toNat + 2 := by
  have h2 : (2 : Word).toNat = 2 := rfl
  rw [pass, goto, UInt16.toNat_add, h2, Nat.mod_eq_of_lt h]

theorem run_advance (h : m.pc.toNat + 2 < 0x10000) : advance.run m = .ok () m.pass := by
  have hpc : UInt16.ofNat (m.pc.toNat + 2) = m.pc + 2 := by
    rw [UInt16.ofNat_add, UInt16.ofNat_toNat]
    rfl
  simp only [advance, EStateM.run_bind, EStateM.run_get, Exec.run_add h, EStateM.run_modify, hpc]
  rfl

/-- Moving back undoes moving past an instruction. -/
theorem run_rewind_pass (h : m.pc.toNat + 2 < 0x10000) : rewind.run m.pass = .ok () m := by
  have hpass := toNat_pc_pass h
  have htwo : 2 ≤ m.pass.pc.toNat := by omega
  simp only [rewind, EStateM.run_bind, EStateM.run_get, Exec.run_sub htwo, EStateM.run_modify,
    hpass, Nat.add_sub_cancel, UInt16.ofNat_toNat]
  rfl

theorem run_fetch (h : Memory.programBase ≤ m.pc.toNat) (h' : m.pc.toNat < Memory.size - 1) :
    fetch.run m = .ok m.word m.pass := by
  have hs : Memory.size = 4096 := rfl
  have hhigh : m.pc.toNat < Memory.size := by omega
  have hlow : m.pc.toNat + 1 < Memory.size := by omega
  have hroom : m.pc.toNat + 2 < 0x10000 := by omega
  simp only [fetch, EStateM.run_bind, EStateM.run_get, if_neg (Nat.not_lt.mpr h),
    if_neg (Nat.not_le.mpr h'), run_peek hhigh, run_peek hlow, run_advance hroom]
  rfl

theorem run_skipIf (h : m.pc.toNat + 2 < 0x10000) (condition : Bool) :
    (skipIf condition).run m = .ok () (m.passIf condition) := by
  cases condition
  · rfl
  · exact run_advance h

theorem run_jump (h : 2 ≤ m.pc.toNat) (target : Address) :
    (jump target).run m = Exec.settle m (m.afterJump target) := by
  have hpc := m.pc.toNat_lt
  have hhere : (UInt16.ofNat (m.pc.toNat - 2)).toNat = m.pc.toNat - 2 := by
    rw [UInt16.toNat_ofNat']
    omega
  simp only [jump, EStateM.run_bind, EStateM.run_get, Exec.run_sub h, hhere, afterJump]
  by_cases ht : target.val + 2 = m.pc.toNat
  · rw [if_pos (by omega), if_pos ht]
    rfl
  · rw [if_neg (by omega), if_neg ht]
    rfl

theorem run_jumpOffset (target : Address) :
    (jumpOffset target).run m =
      .ok () (m.goto (.ofNat (target.val + (m.reg offsetRegister).toNat))) := by
  have hv := (m.reg offsetRegister).toNat_lt
  have ht := target.isLt
  have hsum : (Word.ofAddress target).toNat + (m.reg offsetRegister).toNat < 0x10000 := by
    rw [Word.toNat_ofAddress]
    omega
  simp only [jumpOffset, EStateM.run_bind, EStateM.run_get, Exec.run_add hsum, Word.toNat_ofAddress]
  rfl

/-! ## The stack -/

theorem run_ret (h : m.depth ≤ maxDepth) : ret.run m = Exec.settle m m.afterRet := by
  simp only [ret, EStateM.run_bind, EStateM.run_get, afterRet]
  by_cases h0 : m.depth = 0
  · rw [if_pos h0, if_pos h0]
    rfl
  · have hpos : 1 ≤ m.depth := by omega
    have hcell : m.depth - 1 < maxDepth := by omega
    rw [if_neg h0, if_neg h0]
    simp only [EStateM.run_bind, EStateM.run_get, EStateM.run_modify, Exec.run_require hpos, cell,
      Exec.run_require hcell]
    rfl

theorem run_call (h : m.depth ≤ maxDepth) (target : Address) :
    (call target).run m = Exec.settle m (m.afterCall target) := by
  simp only [call, EStateM.run_bind, EStateM.run_get, afterCall]
  by_cases hd : m.depth = maxDepth
  · rw [if_pos hd, if_pos hd]
    rfl
  · have hcell : m.depth < maxDepth := by omega
    have hcount : m.depth + 1 < countLimit := Nat.lt_of_le_of_lt hcell (by decide)
    rw [if_neg hd, if_neg hd]
    simp only [EStateM.run_bind, EStateM.run_get, EStateM.run_modify, setCell,
      Exec.run_require hcell, Exec.run_require hcount]
    rfl

/-- With more return addresses than there are cells, a return reads past the last one. -/
theorem run_ret_of_deep (h : maxDepth < m.depth) :
    ∃ m', ret.run m = .error (.violation (.outOfRange maxDepth (m.depth - 1))) m' := by
  have h0 : m.depth ≠ 0 := Nat.ne_of_gt (Nat.zero_lt_of_lt h)
  have hpos : 1 ≤ m.depth := Nat.zero_lt_of_lt h
  have hcell : ¬ m.depth - 1 < maxDepth := by omega
  refine ⟨{ m with depth := m.depth - 1 }, ?_⟩
  simp only [ret, EStateM.run_bind, EStateM.run_get]
  rw [if_neg h0]
  simp only [EStateM.run_bind, EStateM.run_get, EStateM.run_modify, Exec.run_require hpos, cell,
    Exec.run_require_of_not hcell]

/-- With more return addresses than there are cells, a call writes past the last one. -/
theorem run_call_of_deep (h : maxDepth < m.depth) (target : Address) :
    (call target).run m = .error (.violation (.outOfRange maxDepth m.depth)) m := by
  have hfull : m.depth ≠ maxDepth := Nat.ne_of_gt h
  have hcell : ¬ m.depth < maxDepth := Nat.lt_asymm h
  simp only [call, EStateM.run_bind, EStateM.run_get]
  rw [if_neg hfull]
  simp only [EStateM.run_bind, EStateM.run_get, setCell, Exec.run_require_of_not hcell]

/-! ## Registers and memory -/

theorem run_glyph (x : Register) : (glyph x).run m = Exec.settle m (m.afterGlyph x) := by
  simp only [glyph, EStateM.run_bind, EStateM.run_get, afterGlyph]
  by_cases h : 16 ≤ (m.reg x).toNat
  · rw [if_pos h, if_pos h]
    rfl
  · have hmul : (m.reg x).toUInt16.toNat * glyphRows < 0x10000 := by
      rw [UInt8.toNat_toUInt16, glyphRows]
      omega
    rw [if_neg h, if_neg h]
    simp only [EStateM.run_bind, Exec.run_mul hmul, UInt8.toNat_toUInt16]
    rfl

theorem run_decimal (x : Register) : (decimal x).run m = Exec.settle m (m.afterDecimal x) := by
  simp only [decimal, EStateM.run_bind, EStateM.run_get, afterDecimal]
  by_cases h : Memory.size ≤ m.index.toNat + 2
  · rw [if_pos h, if_pos h]
    rfl
  · have hhundreds : m.index.toNat < Memory.size := by omega
    have htens : m.index.toNat + 1 < Memory.size := by omega
    have hones : m.index.toNat + 2 < Memory.size := by omega
    rw [if_neg h, if_neg h]
    simp only [EStateM.run_bind, EStateM.run_get, run_poke hhundreds, run_poke htens,
      run_poke hones]
    rfl

theorem run_moveIndex (x : Register) (h : m.index.toNat + x.val < Memory.size) :
    (moveIndex x).run m = .ok () (m.indexMoved x) := by
  have hs : Memory.size = 4096 := rfl
  have hsum : m.index.toNat + (x.val + 1) < 0x10000 := by omega
  simp only [moveIndex, EStateM.run_bind, EStateM.run_get, indexMoved]
  by_cases hd : m.dialect.advancesIndex = true
  · rw [if_pos hd, if_pos hd]
    simp only [EStateM.run_bind, EStateM.run_get, EStateM.run_modify, Exec.run_add hsum]
  · rw [if_neg hd, if_neg hd]
    rfl

theorem run_window (x : Register) :
    (window x).run m =
      if Memory.size ≤ m.index.toNat + x.val then .error (.fault .indexOverflow) m
      else .ok m.index.toNat m := by
  simp only [window, EStateM.run_bind, EStateM.run_get]
  split <;> rfl

theorem run_storeRegisters (x : Register) :
    (storeRegisters x).run m = Exec.settle m (m.afterStore x) := by
  simp only [storeRegisters, EStateM.run_bind, run_window, afterStore]
  by_cases h : Memory.size ≤ m.index.toNat + x.val
  · rw [if_pos h, if_pos h]
    rfl
  · have hw : Memory.Holds m.index.toNat (m.first x).length := by
      rw [length_first, Memory.Holds]
      omega
    rw [if_neg h, if_neg h]
    simp only [EStateM.run_get, run_writeWindow hw]
    exact run_moveIndex (m := m.write (m.first x)) x (Nat.lt_of_not_le h)

theorem run_loadRegisters (x : Register) :
    (loadRegisters x).run m = Exec.settle m (m.afterLoad x) := by
  simp only [loadRegisters, EStateM.run_bind, run_window, afterLoad]
  by_cases h : Memory.size ≤ m.index.toNat + x.val
  · rw [if_pos h, if_pos h]
    rfl
  · have hr : Memory.Holds m.index.toNat (x.val + 1) := by
      rw [Memory.Holds]
      omega
    rw [if_neg h, if_neg h]
    simp only [run_readWindow hr, EStateM.run_modify]
    exact run_moveIndex (m := m.setFirst _) x (Nat.lt_of_not_le h)

end Machine
end Chip8
