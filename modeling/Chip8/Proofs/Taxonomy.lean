import Chip8.Proofs.Reachable
import Chip8.Proofs.WordForms
import Chip8.Recorder

/-!
# Which fault, and when

`Machine.Raises` gives for each fault the condition under which the next step raises it. The
conditions are those of a handbook: they speak of the word at the program counter, of registers and
stack, and of the answer of the host, but not of the order in which a machine checks them.
-/
namespace Chip8.Machine

/-- The condition under which the next step raises a fault. -/
def Raises {H : Type} [Host H] (m : Machine) (host : H) : Fault → Prop
  | .pcUnderflow => m.pc.toNat < 0x200
  | .pcOverflow => 0xfff ≤ m.pc.toNat
  | .illegalInstruction =>
    m.Reads ∧ ∀ form ∈ Instruction.wordForms, Instruction.fits m.word form = false
  | .stackUnderflow => m.Fetches .ret ∧ m.depth = 0
  | .stackOverflow => ∃ target, m.Fetches (.call target) ∧ m.depth = 16
  | .infiniteLoop => ∃ target, m.Fetches (.jump target) ∧ target.val = m.pc.toNat
  | .indexOverflow =>
    (∃ x y height, m.Fetches (.draw x y height) ∧ 0 < m.spriteHeight y height ∧
        4096 < m.index.toNat + m.spriteHeight y height) ∨
      (∃ x, m.Fetches (.decimal x) ∧ 4093 < m.index.toNat) ∨
      ∃ x, (m.Fetches (.store x) ∨ m.Fetches (.load x)) ∧ 4095 < m.index.toNat + x.val
  | .illegalDigit => ∃ x, m.Fetches (.glyph x) ∧ 15 < (m.reg x).toNat
  | .badKey =>
    (∃ x, (m.Fetches (.skipIfKey x) ∨ m.Fetches (.skipUnlessKey x)) ∧ 15 < (m.reg x).toNat) ∨
      ∃ x, m.Fetches (.waitKey x) ∧ 15 < (Host.waitKey host).1.toNat

variable {m : Machine} {cause : Fault}

/-! ## When an instruction fails -/

theorem map_quiet_eq_error {outcome : Except Fault Machine} :
    outcome.map Effect.quiet = .error cause ↔ outcome = .error cause := by
  cases outcome <;> simp [Except.map]

theorem afterRet_eq_error : m.afterRet = .error cause ↔ cause = .stackUnderflow ∧ m.depth = 0 :=
  check_eq_error

theorem afterJump_eq_error {target : Address} :
    m.afterJump target = .error cause ↔ cause = .infiniteLoop ∧ target.val + 2 = m.pc.toNat :=
  check_eq_error

theorem afterCall_eq_error {target : Address} :
    m.afterCall target = .error cause ↔ cause = .stackOverflow ∧ m.depth = 16 :=
  check_eq_error

theorem afterGlyph_eq_error {x : Register} :
    m.afterGlyph x = .error cause ↔ cause = .illegalDigit ∧ 15 < (m.reg x).toNat :=
  check_eq_error

theorem afterDecimal_eq_error {x : Register} :
    m.afterDecimal x = .error cause ↔ cause = .indexOverflow ∧ 4093 < m.index.toNat := by
  rw [afterDecimal, check_eq_error, Memory.size]
  apply and_congr_right
  intro _
  omega

theorem afterStore_eq_error {x : Register} :
    m.afterStore x = .error cause ↔ cause = .indexOverflow ∧ 4095 < m.index.toNat + x.val :=
  check_eq_error

theorem afterLoad_eq_error {x : Register} :
    m.afterLoad x = .error cause ↔ cause = .indexOverflow ∧ 4095 < m.index.toNat + x.val :=
  check_eq_error

theorem drawEffect_eq_error {x y : Register} {height : Fin 16} :
    m.drawEffect x y height = .error cause ↔ cause = .indexOverflow ∧ 0 < m.spriteHeight y height ∧
      4096 < m.index.toNat + m.spriteHeight y height :=
  check_eq_error

theorem keyEffect_eq_error {x : Register} {down : Bool} :
    m.keyEffect x down = .error cause ↔ cause = .badKey ∧ 15 < (m.reg x).toNat := by
  rw [keyEffect]
  split
  · next h => simp [Nat.le_of_lt_succ h]
  · next h =>
    have hkey : 15 < (m.reg x).toNat := by omega
    simp [hkey, eq_comm]

/-! ## When a step fails -/

variable {H : Type} [Host H] {host : H}

/-- An instruction that fails does so under the condition for its fault. -/
theorem Fetches.raises {i : Instruction} (h : m.Fetches i)
    (herror : m.pass.effectOf i = .error cause) : m.Raises host cause := by
  cases i with
  | ret =>
    obtain ⟨rfl, hdepth⟩ := afterRet_eq_error.mp (map_quiet_eq_error.mp herror)
    exact ⟨h, hdepth⟩
  | jump target =>
    obtain ⟨rfl, htarget⟩ := afterJump_eq_error.mp (map_quiet_eq_error.mp herror)
    rw [h.1.toNat_pc_pass] at htarget
    exact ⟨target, h, Nat.add_right_cancel htarget⟩
  | call target =>
    obtain ⟨rfl, hdepth⟩ := afterCall_eq_error.mp (map_quiet_eq_error.mp herror)
    exact ⟨target, h, hdepth⟩
  | draw x y height =>
    obtain ⟨rfl, hrows, hsize⟩ := drawEffect_eq_error.mp herror
    exact .inl ⟨x, y, height, h, hrows, hsize⟩
  | decimal x =>
    obtain ⟨rfl, hindex⟩ := afterDecimal_eq_error.mp (map_quiet_eq_error.mp herror)
    exact .inr (.inl ⟨x, h, hindex⟩)
  | store x =>
    obtain ⟨rfl, hindex⟩ := afterStore_eq_error.mp (map_quiet_eq_error.mp herror)
    exact .inr (.inr ⟨x, .inl h, hindex⟩)
  | load x =>
    obtain ⟨rfl, hindex⟩ := afterLoad_eq_error.mp (map_quiet_eq_error.mp herror)
    exact .inr (.inr ⟨x, .inr h, hindex⟩)
  | glyph x =>
    obtain ⟨rfl, hdigit⟩ := afterGlyph_eq_error.mp (map_quiet_eq_error.mp herror)
    exact ⟨x, h, hdigit⟩
  | skipIfKey x =>
    obtain ⟨rfl, hkey⟩ := keyEffect_eq_error.mp herror
    exact .inl ⟨x, .inl h, hkey⟩
  | skipUnlessKey x =>
    obtain ⟨rfl, hkey⟩ := keyEffect_eq_error.mp herror
    exact .inl ⟨x, .inr h, hkey⟩
  | clearScreen | skipIfByte x k | skipUnlessByte x k | skipIfEqual x y | skipUnlessEqual x y
  | setByte x k | addByte x k | arith op x y | setIndex place | jumpOffset target | random x mask
  | readDelay x | waitKey x | setDelay x | setSound x | addIndex x => cases herror

/-- A machine whose next instruction has no effect raises its fault under the condition for it. -/
theorem raises_of_effect (h : m.effect = .error cause) : m.Raises host cause := by
  rw [effect] at h
  split at h
  · next hlow =>
    cases h
    exact hlow
  split at h
  · next hhigh =>
    cases h
    exact hhigh
  · next hlow hhigh =>
    have hreads : m.Reads := ⟨Nat.not_lt.mp hlow, Nat.not_le.mp hhigh⟩
    split at h
    · next hdecode =>
      cases h
      exact ⟨hreads, (Instruction.decode_eq_none_iff m.word).mp hdecode⟩
    · next hdecode =>
      exact Fetches.raises ⟨hreads, (Instruction.encode_of_decode hdecode).symm⟩ h

/-- Under the condition for a fault the next instruction has no effect, or it waits for a key that
the keypad does not have. -/
theorem Raises.effect_eq (h : m.Raises host cause) :
    m.effect = .error cause ∨
      cause = .badKey ∧ ∃ x, m.Fetches (.waitKey x) ∧ 15 < (Host.waitKey host).1.toNat := by
  cases cause with
  | pcUnderflow =>
    exact .inl (if_pos h)
  | pcOverflow =>
    have hhigh : Memory.size - 1 ≤ m.pc.toNat := h
    have hlow : ¬ m.pc.toNat < Memory.programBase := Nat.not_lt.mpr (Nat.le_trans (by decide) hhigh)
    exact .inl (by rw [effect, if_neg hlow, if_pos hhigh])
  | illegalInstruction =>
    obtain ⟨hreads, hforms⟩ := h
    have hdecode := (Instruction.decode_eq_none_iff m.word).mpr hforms
    exact .inl (by rw [effect, if_neg hreads.not_lt, if_neg hreads.not_le, hdecode])
  | stackUnderflow =>
    obtain ⟨hfetch, hdepth⟩ := h
    rw [hfetch.effect_eq]
    exact .inl (map_quiet_eq_error.mpr (afterRet_eq_error.mpr ⟨rfl, hdepth⟩))
  | stackOverflow =>
    obtain ⟨target, hfetch, hdepth⟩ := h
    rw [hfetch.effect_eq]
    exact .inl (map_quiet_eq_error.mpr (afterCall_eq_error.mpr ⟨rfl, hdepth⟩))
  | infiniteLoop =>
    obtain ⟨target, hfetch, htarget⟩ := h
    have hpc : target.val + 2 = m.pass.pc.toNat := by rw [hfetch.1.toNat_pc_pass, htarget]
    rw [hfetch.effect_eq]
    exact .inl (map_quiet_eq_error.mpr (afterJump_eq_error.mpr ⟨rfl, hpc⟩))
  | indexOverflow =>
    obtain ⟨x, y, height, hfetch, hsprite⟩ | ⟨x, hfetch, hindex⟩ | ⟨x, hfetch | hfetch, hindex⟩ := h
    all_goals rw [hfetch.effect_eq]
    · exact .inl (drawEffect_eq_error.mpr ⟨rfl, hsprite⟩)
    · exact .inl (map_quiet_eq_error.mpr (afterDecimal_eq_error.mpr ⟨rfl, hindex⟩))
    · exact .inl (map_quiet_eq_error.mpr (afterStore_eq_error.mpr ⟨rfl, hindex⟩))
    · exact .inl (map_quiet_eq_error.mpr (afterLoad_eq_error.mpr ⟨rfl, hindex⟩))
  | illegalDigit =>
    obtain ⟨x, hfetch, hdigit⟩ := h
    rw [hfetch.effect_eq]
    exact .inl (map_quiet_eq_error.mpr (afterGlyph_eq_error.mpr ⟨rfl, hdigit⟩))
  | badKey =>
    obtain ⟨x, hfetch | hfetch, hkey⟩ | hwait := h
    · rw [hfetch.effect_eq]
      exact .inl (keyEffect_eq_error.mpr ⟨rfl, hkey⟩)
    · rw [hfetch.effect_eq]
      exact .inl (keyEffect_eq_error.mpr ⟨rfl, hkey⟩)
    · exact .inr ⟨rfl, hwait⟩

/-- The fault of a turn is the one whose condition holds. -/
theorem fault_turn_eq_some (m : Machine) (host : H) (cause : Fault) :
    (m.turn host).fault = some cause ↔ m.Raises host cause := by
  constructor
  · intro h
    obtain ⟨c, heffect, hturn⟩ | ⟨x, hfetch, hkey, hturn⟩ | ⟨effect, next, host', -, -, hturn⟩ :=
      turn_cases m host
    · rw [hturn] at h
      cases h
      exact raises_of_effect heffect
    · rw [hturn] at h
      cases h
      exact .inr ⟨x, hfetch, hkey⟩
    · rw [hturn] at h
      cases h
  · intro h
    obtain heffect | ⟨rfl, x, hfetch, hkey⟩ := h.effect_eq
    · rw [turn, heffect]
      rfl
    · have hrefused : m.pass.afterKey x (Host.waitKey host).1 = .error .badKey := if_pos hkey
      rw [turn, hfetch.effect_eq, effectOf, Effect.attempt, Effect.perform, hrefused]
      rfl

/-- A step of a reachable machine that runs raises the fault whose condition holds, and ends without
one if there is none. -/
theorem step_fault_iff (hm : m.Reachable) (hstatus : m.status = .running) (host : H) :
    ∃ turn, m.step host = .ok turn ∧ (∀ cause, turn.fault = some cause ↔ m.Raises host cause) ∧
      (turn.fault = none ↔ ∀ cause, ¬ m.Raises host cause) := by
  refine ⟨m.turn host, step_eq_turn hstatus hm.sound.depth_le host, fault_turn_eq_some m host, ?_⟩
  simp only [← fault_turn_eq_some, Option.eq_none_iff_forall_ne_some, ne_eq]

/-- A return with an empty stack, on a recorder. -/
theorem return_from_nowhere :
    ∃ (m : Machine) (turn : Turn Recorder), boot .cosmac (.cycle []) [0x00, 0xee] = .ok m ∧
      m.step ({} : Recorder) = .ok turn ∧ turn.fault = some .stackUnderflow := by
  obtain ⟨m, hboot, hm, hstatus, hdepth, -, hfetch⟩ :=
    boot_instruction (i := .ret) .cosmac (.cycle []) 0x00 0xee (by decide)
  obtain ⟨turn, hstep, hfault, -⟩ := step_fault_iff hm hstatus ({} : Recorder)
  exact ⟨m, turn, hboot, hstep, (hfault _).mpr ⟨hfetch, hdepth⟩⟩

end Chip8.Machine
