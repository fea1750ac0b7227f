import Chip8.Proofs.Drawing

/-!
# Drawing a sprite twice

The pixels that a sprite covers depend on memory, on the index register and on the registers that
name its corner, but not on the flag, nor on the display. Therefore a sprite that is drawn a second
time inverts the same pixels back. Of the two flags the first one tells of lit pixels among them and
the second one of dark ones.
-/
namespace Chip8

namespace Display

theorem invert_invert (d : Display) (pixels : List (Nat × Nat)) :
    (d.invert pixels).invert pixels = d := by
  apply ext_lit
  intro x hx y hy
  rw [lit_invert _ _ hx hy, lit_invert _ _ hx hy, Bool.xor_assoc, Bool.xor_self, Bool.xor_false]

theorem invert_comm (d : Display) (pixels pixels' : List (Nat × Nat)) :
    (d.invert pixels).invert pixels' = (d.invert pixels').invert pixels := by
  apply ext_lit
  intro x hx y hy
  simp only [lit_invert _ _ hx hy]
  exact Bool.xor_right_comm ..

end Display

namespace Machine

/-- A drawing instruction finds the same sprite in both machines, and its corner at the same
place. -/
structure SameSprites (m m' : Machine) : Prop where
  memory : m'.memory = m.memory
  index : m'.index = m.index
  reg : ∀ r, r ≠ flagRegister → m'.reg r = m.reg r

/-- The rows of a sprite that lie on the display all lie in memory. -/
def SpriteFits (m : Machine) (y : Register) (height : Fin 16) : Prop :=
  0 < m.spriteHeight y height → m.index.toNat + m.spriteHeight y height ≤ Memory.size

variable {m m' : Machine} {x y : Register} {height : Fin 16}

/-- Drawing leaves alone what the next drawing looks at, the display apart. -/
theorem sameSprites_invertAll (m : Machine) (pixels : List (Nat × Nat)) :
    SameSprites m (m.invertAll pixels) := by
  refine ⟨rfl, rfl, fun r hr => ?_⟩
  rw [invertAll, reg_set, if_neg (Ne.symm hr), reg, reg]

namespace SameSprites

theorem trans {m'' : Machine} (h : SameSprites m m') (h' : SameSprites m' m'') :
    SameSprites m m'' :=
  ⟨h'.memory.trans h.memory, h'.index.trans h.index, fun r hr => (h'.reg r hr).trans (h.reg r hr)⟩

/-- As a coordinate the flag counts as zero, whatever it holds. -/
theorem coordinate_eq (h : SameSprites m m') (r : Register) : m'.coordinate r = m.coordinate r := by
  rw [coordinate, coordinate]
  split
  · rfl
  · next hr => rw [h.reg r hr]

theorem spriteColumn_eq (h : SameSprites m m') (x : Register) :
    m'.spriteColumn x = m.spriteColumn x := by
  rw [spriteColumn, h.coordinate_eq, spriteColumn]

theorem spriteRow_eq (h : SameSprites m m') (y : Register) : m'.spriteRow y = m.spriteRow y := by
  rw [spriteRow, h.coordinate_eq, spriteRow]

theorem spriteHeight_eq (h : SameSprites m m') (y : Register) (height : Fin 16) :
    m'.spriteHeight y height = m.spriteHeight y height := by
  rw [spriteHeight, h.spriteRow_eq, spriteHeight]

theorem spriteFits_iff (h : SameSprites m m') : m'.SpriteFits y height ↔ m.SpriteFits y height := by
  rw [SpriteFits, h.spriteHeight_eq, h.index, SpriteFits]

theorem covered_eq (h : SameSprites m m') (x y : Register) (height : Fin 16) :
    m'.covered x y height = m.covered x y height := by
  simp only [covered, covers, h.spriteColumn_eq, h.spriteRow_eq, h.index, h.memory]

end SameSprites

theorem SpriteFits.drawEffect_eq (h : m.SpriteFits y height) :
    m.drawEffect x y height =
      .ok (.proceed (m.reports (m.covered x y height)) (m.invertAll (m.covered x y height))) :=
  if_neg fun ⟨hrows, hover⟩ => Nat.not_lt.mpr (h hrows) hover

theorem drawEffect_of_not_fits (h : ¬ m.SpriteFits y height) :
    m.drawEffect x y height = .error .indexOverflow := by
  rw [SpriteFits, Classical.not_imp, Nat.not_le] at h
  exact if_pos h

/-! ## What two drawings leave behind -/

variable {H H' : Type} {again : Machine}

/-- What a sprite leaves behind when the machine `m` has drawn it in one turn, and drawn it again in
another. -/
structure Undone (x y : Register) (height : Fin 16) (m : Machine) (turn : Turn H)
    (turn' : Turn H') : Prop where
  fault : turn'.fault = none
  display : turn'.machine.display = m.display
  first : turn.machine.reg flagRegister = 1 ↔
    ∃ p ∈ m.covered x y height, m.display.lit p.1 p.2 = true
  second : turn'.machine.reg flagRegister = 1 ↔
    ∃ p ∈ m.covered x y height, m.display.lit p.1 p.2 = false
  neither : turn.machine.reg flagRegister = 0 ∧ turn'.machine.reg flagRegister = 0 ↔
    m.covered x y height = []
  dark : m.display = .dark → (turn'.machine.reg flagRegister = 1 ↔ m.covered x y height ≠ [])

/-- The first flag tells whether a covered pixel is lit, and the second one whether one is dark. -/
theorem Undone.of_flags {turn : Turn H} {turn' : Turn H'} (hfault : turn'.fault = none)
    (hdisplay : turn'.machine.display = m.display)
    (hfirst : turn.machine.reg flagRegister =
      flagOf ((m.covered x y height).any fun p => m.display.lit p.1 p.2))
    (hsecond : turn'.machine.reg flagRegister =
      flagOf ((m.covered x y height).any fun p => !m.display.lit p.1 p.2)) :
    Undone x y height m turn turn' where
  fault := hfault
  display := hdisplay
  first := by rw [hfirst, flagOf_eq_one_iff, List.any_eq_true]
  second := by
    rw [hsecond, flagOf_eq_one_iff, List.any_eq_true]
    simp only [Bool.not_eq_true']
  neither := by
    rw [hfirst, hsecond, flagOf_eq_zero_iff, flagOf_eq_zero_iff, List.any_eq_false,
      List.any_eq_false, List.eq_nil_iff_forall_not_mem]
    constructor
    · intro ⟨hdark, hlit⟩ p hp
      have hlit := hlit p hp
      rw [Bool.eq_false_iff.mpr (hdark p hp)] at hlit
      exact hlit rfl
    · intro hnone
      exact ⟨fun p hp => absurd hp (hnone p), fun p hp => absurd hp (hnone p)⟩
  dark := by
    intro hdark
    rw [hsecond, flagOf_eq_one_iff, List.any_eq_true, hdark]
    constructor
    · rintro ⟨p, hp, -⟩
      exact List.ne_nil_of_mem hp
    · intro hne
      obtain ⟨p, hp⟩ := List.exists_mem_of_ne_nil _ hne
      exact ⟨p, hp, by rw [Display.lit_dark, Bool.not_false]⟩

/-- Between two drawings of a sprite its pixels have the other value. -/
theorem lit_of_inverted (hdisplay : again.display = m.display.invert (m.covered x y height)) :
    ∀ p ∈ m.covered x y height, again.display.lit p.1 p.2 = !m.display.lit p.1 p.2 := by
  intro p hp
  obtain ⟨hx, hy⟩ := World.on_of_mem_covered hp
  rw [hdisplay, Display.lit_invert _ _ hx hy, decide_eq_true hp, Bool.xor_true]

/-- The second drawing reports the pixels of the first one with the other values. -/
theorem reports_of_inverted (hdisplay : again.display = m.display.invert (m.covered x y height)) :
    ∃ dots : List Dot,
      (m.reports (m.covered x y height)).map Notice.call = dots.map Call.plot ∧
      (again.reports (m.covered x y height)).map Notice.call =
        dots.map fun dot => .plot { dot with lit := !dot.lit } := by
  refine ⟨(m.covered x y height).map fun p => ⟨p.1, p.2, !m.display.lit p.1 p.2⟩, ?_, ?_⟩
  · rw [reports, List.map_map, List.map_map]
    rfl
  · rw [reports, List.map_map, List.map_map]
    apply List.map_congr_left
    intro p hp
    simp [lit_of_inverted hdisplay p hp, Notice.call]

/-! ## The steps -/

variable [Host H] [Host H']

/-- A drawing instruction whose sprite lies in memory inverts the pixels that the sprite covers. -/
theorem Fetches.turn_draw (h : m.Fetches (.draw x y height)) (hfits : m.SpriteFits y height)
    (host : H) :
    (m.turn host).fault = none ∧
      (m.turn host).machine = m.pass.invertAll (m.covered x y height) := by
  have hfits' : m.pass.SpriteFits y height := hfits
  rw [turn, h.effect_eq, effectOf, hfits'.drawEffect_eq]
  exact ⟨rfl, rfl⟩

theorem Fetches.calls_draw (h : m.Fetches (.draw x y height)) (hstatus : m.status = .running)
    (hfits : m.SpriteFits y height) (host : H) :
    m.calls host = (m.reports (m.covered x y height)).map Notice.call := by
  have hfits' : m.pass.SpriteFits y height := hfits
  rw [(h.shallow rfl).calls_eq hstatus, h.effect_eq, effectOf, hfits'.drawEffect_eq]
  rfl

/-- A drawing instruction succeeds only if its sprite lies in memory. -/
theorem Fetches.spriteFits (h : m.Fetches (.draw x y height)) {host : H}
    (hnone : (m.turn host).fault = none) : m.SpriteFits y height := by
  by_contra hout
  have hout' : ¬ m.pass.SpriteFits y height := hout
  rw [turn, h.effect_eq, effectOf, drawEffect_of_not_fits hout'] at hnone
  cases hnone

/-- A sprite that is drawn a second time, with memory, the index register and the registers other
than the flag as the first drawing left them, is undone: no fault is raised, every pixel is as it
was, and the host is told of the same pixels in the same order with the other values. -/
theorem redrawing_undoes (hstatus : m.status = .running) (hfetch : m.Fetches (.draw x y height))
    {host : H} {turn : Turn H} (hstep : m.step host = .ok turn) (hnone : turn.fault = none)
    (hstatus' : again.status = .running) (hfetch' : again.Fetches (.draw x y height))
    (hsame : turn.machine.SameSprites again) (hdisplay : again.display = turn.machine.display)
    (host' : H') :
    ∃ turn', again.step host' = .ok turn' ∧ Undone x y height m turn turn' ∧
      ∃ dots : List Dot, m.calls host = dots.map Call.plot ∧
        again.calls host' = dots.map fun dot => .plot { dot with lit := !dot.lit } := by
  rw [(hfetch.shallow rfl).step_eq_turn hstatus] at hstep
  obtain rfl := Except.ok.inj hstep
  have hfits := hfetch.spriteFits hnone
  have hmachine := (hfetch.turn_draw hfits host).2
  rw [hmachine] at hsame hdisplay
  have hdisplay' : again.display = m.display.invert (m.covered x y height) := hdisplay
  have hsprites := (sameSprites_invertAll m.pass (m.covered x y height)).trans hsame
  have hcovered : again.covered x y height = m.covered x y height := hsprites.covered_eq x y height
  have hfits' : again.SpriteFits y height := hsprites.spriteFits_iff.mpr hfits
  obtain ⟨hnone', hmachine'⟩ := hfetch'.turn_draw hfits' host'
  rw [hcovered] at hmachine'
  have hany : ((m.covered x y height).any fun p => again.display.lit p.1 p.2) =
      (m.covered x y height).any fun p => !m.display.lit p.1 p.2 := by
    rw [Bool.eq_iff_iff, List.any_eq_true, List.any_eq_true]
    exact exists_congr fun p => and_congr_right fun hp => by rw [lit_of_inverted hdisplay' p hp]
  refine ⟨again.turn host', (hfetch'.shallow rfl).step_eq_turn hstatus' host',
    .of_flags hnone' ?_ ?_ ?_, ?_⟩
  · rw [hmachine']
    change again.display.invert _ = _
    rw [hdisplay', Display.invert_invert]
  · rw [hmachine]
    exact reg_flag_invertAll m.pass _
  · rw [hmachine', ← hany]
    exact reg_flag_invertAll again.pass _
  · rw [hfetch.calls_draw hstatus hfits, hfetch'.calls_draw hstatus' hfits', hcovered]
    exact reports_of_inverted hdisplay'

/-- A row of the first glyph, drawn twice at the corner that the flag names. -/
theorem glyph_row_undone :
    ∃ (m again : Machine) (turn turn' : Turn Recorder),
      boot .cosmac (.cycle []) [0xdf, 0xf1] = .ok m ∧ m.step ({} : Recorder) = .ok turn ∧
      again = turn.machine.goto m.pc ∧ again.step turn.host = .ok turn' ∧
      turn'.machine.display = m.display := by
  obtain ⟨m, hboot, -, hstatus, -, hindex, hfetch⟩ :=
    boot_instruction (i := .draw flagRegister flagRegister (lastDigit 1)) .cosmac (.cycle [])
      0xdf 0xf1 (by decide)
  have hfits : m.SpriteFits flagRegister (lastDigit 1) := by
    have hheight : m.spriteHeight flagRegister (lastDigit 1) ≤ 1 := Nat.min_le_left _ _
    rw [SpriteFits, hindex, Memory.size, UInt16.toNat_zero]
    omega
  have hstep := (hfetch.shallow rfl).step_eq_turn hstatus ({} : Recorder)
  obtain ⟨hnone, hmachine⟩ := hfetch.turn_draw hfits ({} : Recorder)
  let again := (m.turn ({} : Recorder)).machine.goto m.pc
  have hstatus' : again.status = .running := by
    simp only [again, hmachine]
    exact hstatus
  have hfetch' : again.Fetches (.draw flagRegister flagRegister (lastDigit 1)) := by
    simp only [again, hmachine]
    exact hfetch
  obtain ⟨turn', hstep', hundone, -⟩ := redrawing_undoes hstatus hfetch hstep hnone hstatus' hfetch'
    ⟨rfl, rfl, fun _ _ => rfl⟩ rfl (m.turn ({} : Recorder)).host
  exact ⟨m, again, _, turn', hboot, hstep, rfl, hstep', hundone.display⟩

end Machine
end Chip8
