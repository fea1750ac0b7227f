import Chip8.Proofs.Journal
import Chip8.Recorder

/-!
# Drawing in one picture

What a drawing instruction leaves behind, pixel by pixel: the display, the flag, the reports to the
host in their order, and nothing else.
-/
namespace Chip8.Machine

variable {m : Machine} {x y : Register} {height : Fin 16}

theorem mem_covered {px py : Nat} :
    (px, py) ∈ m.covered x y height ↔ (px < 64 ∧ py < 32) ∧ m.covers x y height px py = true := by
  rw [covered, List.mem_filter, Display.mem_places]

/-- A sprite inverts the pixels that it covers. -/
theorem lit_invertAll_covered {px py : Nat} (hx : px < 64) (hy : py < 32) :
    (m.invertAll (m.covered x y height)).display.lit px py =
      (m.display.lit px py ^^ m.covers x y height px py) := by
  have hdisplay : (m.invertAll (m.covered x y height)).display =
      m.display.invert (m.covered x y height) := rfl
  have hmem : decide ((px, py) ∈ m.covered x y height) = m.covers x y height px py := by
    simp [mem_covered, hx, hy]
  rw [hdisplay, Display.lit_invert _ _ hx hy, hmem]

/-- The flag tells whether a lit pixel was covered. -/
theorem reg_flag_invertAll (m : Machine) (pixels : List (Nat × Nat)) :
    (m.invertAll pixels).reg flagRegister = flagOf (pixels.any fun p => m.display.lit p.1 p.2) := by
  rw [invertAll, reg_set, if_pos rfl]

theorem any_lit_covered :
    ((m.covered x y height).any fun p => m.display.lit p.1 p.2) = true ↔
      ∃ px py, m.display.lit px py = true ∧ m.covers x y height px py = true := by
  rw [List.any_eq_true]
  constructor
  · rintro ⟨⟨px, py⟩, hmem, hlit⟩
    exact ⟨px, py, hlit, (mem_covered.mp hmem).2⟩
  · rintro ⟨px, py, hlit, hcovers⟩
    have hon : px < 64 ∧ py < 32 := by
      by_contra hoff
      rw [Display.lit_eq_false _ (by omega)] at hlit
      cases hlit
    exact ⟨(px, py), mem_covered.mpr ⟨hon, hcovers⟩, hlit⟩

/-- The reports are those of the covered pixels, with the values that they have afterwards. -/
theorem call_reports_covered :
    (m.reports (m.covered x y height)).map Notice.call =
      (m.covered x y height).map fun p =>
        .plot ⟨p.1, p.2, (m.invertAll (m.covered x y height)).display.lit p.1 p.2⟩ := by
  rw [reports, List.map_map]
  apply List.map_congr_left
  intro p hp
  obtain ⟨⟨hx, hy⟩, hcovers⟩ := mem_covered.mp hp
  rw [lit_invertAll_covered hx hy, hcovers, Bool.xor_true]
  rfl

/-! ## The step -/

/-- A drawing instruction that raises no fault inverts and reports the pixels that its sprite
covers. -/
theorem Fetches.effect_draw {effect : Effect} (h : m.Fetches (.draw x y height))
    (heffect : m.effect = .ok effect) :
    effect =
      .proceed (m.reports (m.covered x y height)) (m.pass.invertAll (m.covered x y height)) := by
  rw [h.effect_eq] at heffect
  exact (check_eq_ok.mp heffect).2

/-- Drawing inverts the pixels for which the sprite has a bit, sets the flag exactly if one of them
was lit, and reports each of them once with its new value, row by row and from left to right. The
program counter moves past the instruction, and nothing else changes. -/
theorem draw_spec (hm : m.Reachable) (hstatus : m.status = .running)
    (hword : m.word = Instruction.encode (.draw x y height)) {H : Type} [Host H] (host : H) :
    ∃ turn, m.step host = .ok turn ∧ (turn.fault = none →
      (∀ px < 64, ∀ py < 32,
        turn.machine.display.lit px py = (m.display.lit px py ^^ m.covers x y height px py)) ∧
      (turn.machine.reg flagRegister = 1 ↔
        ∃ px py, m.display.lit px py = true ∧ m.covers x y height px py = true) ∧
      (turn.machine.reg flagRegister = 0 ↔
        ¬ ∃ px py, m.display.lit px py = true ∧ m.covers x y height px py = true) ∧
      m.calls host = (Display.places.filter fun p => m.covers x y height p.1 p.2).map (fun p =>
        .plot ⟨p.1, p.2, turn.machine.display.lit p.1 p.2⟩) ∧
      turn.machine =
        { m with pc := m.pc + 2, display := turn.machine.display }.set flagRegister
          (turn.machine.reg flagRegister)) := by
  have hdepth := hm.sound.depth_le
  refine ⟨m.turn host, step_eq_turn hstatus hdepth host, ?_⟩
  intro hnone
  obtain ⟨c, -, hturn⟩ | ⟨_, -, -, hturn⟩ | ⟨effect, next, host', heffect, hperform, hturn⟩ :=
    turn_cases m host
  · rw [hturn] at hnone
    cases hnone
  · rw [hturn] at hnone
    cases hnone
  obtain ⟨i, ⟨hreads, -⟩, -⟩ := exists_fetches heffect
  obtain rfl := Fetches.effect_draw ⟨hreads, hword⟩ heffect
  obtain rfl : m.pass.invertAll (m.covered x y height) = next :=
    Except.ok.inj (congrArg Prod.fst hperform)
  have hflag := reg_flag_invertAll m.pass (m.covered x y height)
  rw [hturn, calls_eq hstatus hdepth, heffect, hflag, ← any_lit_covered]
  refine ⟨?_, flagOf_eq_one_iff _, ?_, call_reports_covered, ?_⟩
  · intro px hx py hy
    exact lit_invertAll_covered (m := m) hx hy
  · rw [Bool.not_eq_true]
    exact flagOf_eq_zero_iff _
  · rfl

/-- A row of the first glyph, drawn in the upper left corner. -/
theorem draw_glyph_row :
    ∃ (m : Machine) (turn : Turn Recorder), boot .cosmac (.cycle []) [0xd0, 0x11] = .ok m ∧
      m.step ({} : Recorder) = .ok turn ∧ turn.fault = none ∧ turn.machine.pc = m.pc + 2 := by
  obtain ⟨m, hboot, hm, hstatus, -, hindex, hfetch⟩ :=
    boot_instruction (i := .draw (lastDigit 0) (lastDigit 1) (lastDigit 1)) .cosmac (.cycle [])
      0xd0 0x11 (by decide)
  obtain ⟨turn, hstep, hdraw⟩ := draw_spec hm hstatus hfetch.2 ({} : Recorder)
  have hnone : turn.fault = none := by
    have hheight : m.pass.spriteHeight (lastDigit 1) (lastDigit 1) ≤ 1 := Nat.min_le_left _ _
    have hzero : m.pass.index = 0 := hindex
    have hroom : ¬ (0 < m.pass.spriteHeight (lastDigit 1) (lastDigit 1) ∧
        Memory.size < m.pass.index.toNat + m.pass.spriteHeight (lastDigit 1) (lastDigit 1)) := by
      rw [hzero, Memory.size, UInt16.toNat_zero]
      omega
    rw [step_eq_turn hstatus hm.sound.depth_le, Machine.turn, hfetch.effect_eq, effectOf,
      drawEffect, if_neg hroom] at hstep
    cases hstep
    rfl
  obtain ⟨-, -, -, -, hmachine⟩ := hdraw hnone
  exact ⟨m, turn, hboot, hstep, hnone, by rw [hmachine]; rfl⟩

end Chip8.Machine
