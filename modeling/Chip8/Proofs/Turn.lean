import Chip8.Instruction.RoundTrip
import Chip8.Proofs.Operation

/-!
# How a turn ends

A turn ends in one of three ways: the machine refuses the next instruction before the host is
called, it refuses the key that it waited for, or it goes on.
-/
namespace Chip8

/-- Only an answer to a wait for a key can be refused. -/
theorem Effect.perform_eq_error {H : Type} [Host H] {effect : Effect} {host host' : H}
    {cause : Fault} (h : effect.perform host = (.error cause, host')) :
    ∃ resume, effect = .waitKey resume ∧ resume (Host.waitKey host).1 = .error cause ∧
      host' = (Host.waitKey host).2 := by
  cases effect with
  | proceed notices next | readDelay resume | testKey key resume => cases congrArg Prod.fst h
  | waitKey resume => exact ⟨resume, rfl, congrArg Prod.fst h, (congrArg Prod.snd h).symm⟩

/-! ## Checks

Most operations check one condition and have one result. -/

section Check

variable {α : Type} {condition : Prop} [Decidable condition] {own : Fault} {a : α}

/-- A check fails exactly if its condition holds. -/
theorem check_eq_error {cause : Fault} :
    (if condition then Except.error own else Except.ok a) = .error cause ↔
      cause = own ∧ condition := by
  split <;> simp_all [eq_comm]

/-- A check that does not fail leaves the result behind it. -/
theorem check_eq_ok {b : α} :
    (if condition then Except.error own else Except.ok a) = .ok b ↔ ¬ condition ∧ b = a := by
  split <;> simp_all [eq_comm]

end Check

/-! ## The next instruction -/

namespace Machine

variable {m : Machine}

theorem Reads.not_lt (h : m.Reads) : ¬ m.pc.toNat < Memory.programBase :=
  Nat.not_lt.mpr h.1

theorem Reads.not_le (h : m.Reads) : ¬ Memory.size - 1 ≤ m.pc.toNat :=
  Nat.not_le.mpr h.2

theorem Reads.toNat_pc_pass (h : m.Reads) : m.pass.pc.toNat = m.pc.toNat + 2 := by
  have hpc := h.2
  apply Machine.toNat_pc_pass
  omega

theorem Fetches.decode_word {i : Instruction} (h : m.Fetches i) :
    Instruction.decode m.word = some i := by
  rw [h.2, Instruction.decode_encode]

theorem Fetches.unique {i j : Instruction} (h : m.Fetches i) (h' : m.Fetches j) : i = j :=
  Option.some.inj (h.decode_word.symm.trans h'.decode_word)

/-- The effect of the next instruction is that of the instruction that is fetched. -/
theorem Fetches.effect_eq {i : Instruction} (h : m.Fetches i) : m.effect = m.pass.effectOf i := by
  rw [effect, if_neg h.1.not_lt, if_neg h.1.not_le, h.decode_word]

/-- An effect is that of an instruction that is fetched. -/
theorem exists_fetches {effect : Effect} (h : m.effect = .ok effect) :
    ∃ i, m.Fetches i ∧ m.pass.effectOf i = .ok effect := by
  rw [Machine.effect] at h
  split at h
  · cases h
  split at h
  · cases h
  · next hlow hhigh =>
    split at h
    · cases h
    · next i hdecode =>
      have hreads : m.Reads := ⟨Nat.not_lt.mp hlow, Nat.not_le.mp hhigh⟩
      exact ⟨i, ⟨hreads, (Instruction.encode_of_decode hdecode).symm⟩, h⟩

theorem map_quiet_ne_waitKey {outcome : Except Fault Machine}
    {resume : Byte → Except Fault Machine} : outcome.map Effect.quiet ≠ .ok (.waitKey resume) := by
  cases outcome <;> simp [Except.map, Effect.quiet]

/-- Only one instruction waits for a key. -/
theorem effectOf_eq_waitKey {i : Instruction} {resume : Byte → Except Fault Machine}
    (h : m.effectOf i = .ok (.waitKey resume)) : ∃ x, i = .waitKey x ∧ resume = m.afterKey x := by
  cases i with
  | waitKey x => exact ⟨x, rfl, by simpa [effectOf] using h.symm⟩
  | ret | jump target | call target | glyph x | decimal x | store x | load x =>
    exact absurd h map_quiet_ne_waitKey
  | draw x y height =>
    rw [effectOf, drawEffect] at h
    split at h <;> cases h
  | skipIfKey x | skipUnlessKey x =>
    rw [effectOf, keyEffect] at h
    split at h <;> cases h
  | clearScreen | skipIfByte x k | skipUnlessByte x k | skipIfEqual x y | skipUnlessEqual x y
  | setByte x k | addByte x k | arith op x y | setIndex place | jumpOffset target | random x mask
  | readDelay x | setDelay x | setSound x | addIndex x => cases h

theorem eq_badKey_of_afterKey {x : Register} {key : Byte} {cause : Fault}
    (h : m.afterKey x key = .error cause) : cause = .badKey ∧ 15 < key.toNat :=
  check_eq_error.mp h

variable {H : Type} [Host H]

/-- How a turn ends: with a fault before the host is called, with a key that the keypad does not
have, or with a machine that goes on. -/
theorem turn_cases (m : Machine) (host : H) :
    (∃ cause, m.effect = .error cause ∧ m.turn host = ⟨m.halt cause, host, some cause⟩) ∨
      (∃ x, m.Fetches (.waitKey x) ∧ 15 < (Host.waitKey host).1.toNat ∧
        m.turn host = ⟨m.halt .badKey, (Host.waitKey host).2, some .badKey⟩) ∨
      ∃ effect next host', m.effect = .ok effect ∧ effect.perform host = (.ok next, host') ∧
        m.turn host = ⟨next, host', none⟩ := by
  cases heffect : m.effect with
  | error cause =>
    refine .inl ⟨cause, rfl, ?_⟩
    rw [turn, heffect]
    rfl
  | ok effect =>
    apply Or.inr
    rcases hperform : effect.perform host with ⟨cause | next, host'⟩
    · obtain ⟨resume, rfl, hresume, rfl⟩ := Effect.perform_eq_error hperform
      obtain ⟨i, hfetch, hi⟩ := exists_fetches heffect
      obtain ⟨x, rfl, rfl⟩ := effectOf_eq_waitKey hi
      obtain ⟨rfl, hkey⟩ := eq_badKey_of_afterKey hresume
      refine .inl ⟨x, hfetch, hkey, ?_⟩
      rw [turn, heffect, Effect.attempt, hperform]
      rfl
    · refine .inr ⟨effect, next, host', rfl, hperform, ?_⟩
      rw [turn, heffect, Effect.attempt, hperform]
      rfl

/-- A turn that raises a fault leaves the machine as it was, halted. -/
theorem turn_machine_of_fault {host : H} {cause : Fault}
    (h : (m.turn host).fault = some cause) :
    (m.turn host).machine = m.halt cause := by
  obtain ⟨c, -, hturn⟩ | ⟨x, -, -, hturn⟩ | ⟨effect, next, host', -, -, hturn⟩ := turn_cases m host
  · rw [hturn] at h ⊢
    cases h
    rfl
  · rw [hturn] at h ⊢
    cases h
    rfl
  · rw [hturn] at h
    cases h

/-- An effect on the machine alone leaves the host as it is. -/
theorem turn_quiet {next : Machine} (h : m.effect = .ok (.quiet next)) (host : H) :
    m.turn host = ⟨next, host, none⟩ := by
  rw [turn, h]
  rfl

theorem Fetches.turn_call {target : Address} (h : m.Fetches (.call target))
    (hdepth : m.depth ≠ maxDepth) (host : H) :
    m.turn host = ⟨{ m.pass with
      cells := m.cells.setIfInBounds m.depth m.pass.pc
      depth := m.depth + 1
      pc := .ofAddress target }, host, none⟩ := by
  have hcall : m.pass.effectOf (.call target) = .ok (.quiet { m.pass with
      cells := m.cells.setIfInBounds m.depth m.pass.pc
      depth := m.depth + 1
      pc := .ofAddress target }) := by
    have hroom : ¬ m.pass.depth = maxDepth := hdepth
    rw [effectOf, afterCall, if_neg hroom]
    rfl
  exact turn_quiet (h.effect_eq.trans hcall) host

theorem Fetches.turn_jump {target : Address} (h : m.Fetches (.jump target))
    (haway : target.val ≠ m.pc.toNat) (host : H) :
    m.turn host = ⟨{ m with pc := .ofAddress target }, host, none⟩ := by
  have hjump :
      m.pass.effectOf (.jump target) = .ok (.quiet { m with pc := .ofAddress target }) := by
    have hpass := h.1.toNat_pc_pass
    rw [effectOf, afterJump, if_neg (by omega)]
    rfl
  exact turn_quiet (h.effect_eq.trans hjump) host

theorem Fetches.turn_clearScreen (h : m.Fetches .clearScreen) (host : H) :
    m.turn host = ⟨{ m.pass with display := .dark }, Host.clear host, none⟩ := by
  rw [turn, h.effect_eq]
  rfl

/-- A wait for a key is put to the host, whether the machine takes the key or not. -/
theorem Fetches.turn_host_waitKey {x : Register} (h : m.Fetches (.waitKey x)) (host : H) :
    (m.turn host).host = (Host.waitKey host).2 := by
  have hturn : m.turn host =
      m.turnOf (m.pass.afterKey x (Host.waitKey host).1, (Host.waitKey host).2) := by
    rw [turn, h.effect_eq]
    rfl
  rw [hturn]
  cases m.pass.afterKey x (Host.waitKey host).1 <;> rfl

end Machine
end Chip8
