import Chip8.Proofs.Operation
import Chip8.Proofs.Places
import Mathlib.Data.Nat.Bitwise

/-!
# Drawing a sprite, pixel by pixel and at once

The two loops of a drawing instruction visit the pixels of a sprite one after the other and invert,
report and check each where it finds it. `World.run_draw` says that the outcome is the one of
inverting all of them at once: no pixel is visited twice, so that each is found as it was before the
instruction.
-/
namespace Chip8

namespace Machine

/-- The machine with its flag set, if the condition holds. -/
def flagIf (m : Machine) (condition : Bool) : Machine :=
  if condition then m.set flagRegister 1 else m

end Machine

namespace World

variable {H : Type}

/-- A machine acts in a world as it does alone. -/
@[simp] theorem run_onMachine {α : Type} (x : Exec Machine α) (w : World H) :
    (onMachine x : Exec (World H) α).run w =
      match x.run w.machine with
      | .ok a machine => .ok a { w with machine }
      | .error stop machine => .error stop { w with machine } := rfl

@[simp] theorem liftM_eq {α : Type} (x : Exec Machine α) :
    (liftM x : Exec (World H) α) = onMachine x := rfl

variable [Host H]

/-! ## One pixel -/

/-- The world with a pixel inverted and reported. -/
def inverted (w : World H) (p : Nat × Nat) : World H where
  machine :=
    { w.machine with
      display := w.machine.display.put p.1 p.2 (!w.machine.display.lit p.1 p.2) }.flagIf
      (w.machine.display.lit p.1 p.2)
  host := Host.plot ⟨p.1, p.2, !w.machine.display.lit p.1 p.2⟩ w.host

theorem run_invert {x y : Nat} (hx : x < 64) (hy : y < 32) (w : World H) :
    (invert x y).run w = .ok () (w.inverted (x, y)) := by
  have hpixel : (Machine.invertPixel x y).run w.machine =
      .ok (!w.machine.display.lit x y)
        { w.machine with display := w.machine.display.put x y (!w.machine.display.lit x y) } := by
    have hrow : y < Display.height := hy
    have hcolumn : x < Display.width := hx
    simp only [Machine.invertPixel, EStateM.run_bind, EStateM.run_get, EStateM.run_modify,
      Exec.run_require hrow, Exec.run_require hcolumn]
    rfl
  simp only [invert, liftM_eq, EStateM.run_bind, run_onMachine, hpixel, tell, EStateM.run_modify,
    Bool.not_not]
  cases h : w.machine.display.lit x y <;> simp [inverted, Machine.flagIf, h]

/-! ## The loops -/

/-- A mask of one bit selects that bit, counted from the left. -/
theorem and_mask_ne_zero (bits : Byte) {i : Nat} (hi : i < 8) :
    (bits &&& (0x80 >>> UInt8.ofNat i) != 0) = bits.toNat.testBit (7 - i) := by
  have hmask : ∀ j < 8, (0x80 >>> UInt8.ofNat j : Byte).toNat = 2 ^ (7 - j) := by decide
  have hand : (bits &&& (0x80 >>> UInt8.ofNat i)).toNat =
      (bits.toNat.testBit (7 - i)).toNat * 2 ^ (7 - i) := by
    rw [UInt8.toNat_and, hmask i hi, Nat.and_two_pow]
  have hzero : bits &&& (0x80 >>> UInt8.ofNat i) = 0 ↔ bits.toNat.testBit (7 - i) = false := by
    rw [← UInt8.toNat_inj, hand]
    cases bits.toNat.testBit (7 - i) <;> simp
  cases h : bits.toNat.testBit (7 - i)
  · rw [hzero.mpr h]
    rfl
  · exact bne_iff_ne.mpr fun h0 => by simp [hzero.mp h0] at h

/-- The pixels of some bits of a row, as far as they lie left of the right edge. -/
def rowPixels (x y : Nat) (bits : Byte) (is : List Nat) : List (Nat × Nat) :=
  (is.filter fun i => decide (x + i < Display.width) && bits.toNat.testBit (7 - i)).map
    fun i => (x + i, y)

theorem run_drawBits {x y : Nat} (hy : y < 32) (bits : Byte) {is : List Nat}
    (h : is.Pairwise (· < ·)) (h8 : ∀ i ∈ is, i < 8) (w : World H) :
    (drawBits x y bits is).run w = .ok () ((rowPixels x y bits is).foldl inverted w) := by
  induction is generalizing w with
  | nil => rfl
  | cons i is ih =>
    obtain ⟨hi, his⟩ := List.pairwise_cons.mp h
    have hrest := ih his fun j hj => h8 j (List.mem_cons_of_mem i hj)
    by_cases hx : Display.width ≤ x + i
    · -- the edge ends the row: the bits that follow are further to the right
      have hnone : rowPixels x y bits (i :: is) = [] := by
        rw [rowPixels, List.map_eq_nil_iff, List.filter_eq_nil_iff]
        intro j hj
        have hij : i ≤ j := by
          rcases List.mem_cons.mp hj with rfl | hj
          · exact Nat.le_refl _
          · exact Nat.le_of_lt (hi j hj)
        have hout : ¬ x + j < Display.width := by omega
        simp [hout]
      rw [hnone, drawBits, if_pos hx]
      rfl
    · have hbit := and_mask_ne_zero bits (h8 i (List.mem_cons_self ..))
      have hinv := run_invert (H := H) (x := x + i) (Nat.lt_of_not_le hx) hy
      rw [drawBits, if_neg hx, hbit]
      by_cases hb : bits.toNat.testBit (7 - i) = true
      · simp [hb, hinv, hrest, rowPixels, Nat.lt_of_not_le hx]
      · simp [hb, hrest, rowPixels]

def pixels (memory : Memory) (x y start : Nat) (is : List Nat) : List (Nat × Nat) :=
  is.flatMap fun i => rowPixels x (y + i) (memory.get (start + i)) (List.range 8)

theorem memory_foldl_inverted (ps : List (Nat × Nat)) (w : World H) :
    (ps.foldl inverted w).machine.memory = w.machine.memory := by
  induction ps generalizing w with
  | nil => rfl
  | cons p ps ih =>
    rw [List.foldl_cons, ih]
    cases h : w.machine.display.lit p.1 p.2 <;> simp [inverted, Machine.flagIf, h, Machine.set]

theorem run_drawRows {x y start : Nat} {is : List Nat} (hy : ∀ i ∈ is, y + i < 32)
    (hs : ∀ i ∈ is, start + i < Memory.size) (w : World H) :
    (drawRows x y start is).run w =
      .ok () ((pixels w.machine.memory x y start is).foldl inverted w) := by
  induction is generalizing w with
  | nil => rfl
  | cons i is ih =>
    have hpeek := Machine.run_peek (m := w.machine) (hs i (List.mem_cons_self ..))
    have hbits := run_drawBits (H := H) (x := x) (hy i (List.mem_cons_self ..))
      (w.machine.memory.get (start + i)) List.pairwise_lt_range (fun j hj => List.mem_range.mp hj) w
    have hrest := ih (fun j hj => hy j (List.mem_cons_of_mem i hj))
      fun j hj => hs j (List.mem_cons_of_mem i hj)
    simp only [drawRows, liftM_eq, EStateM.run_bind, run_onMachine, hpeek, hbits, hrest,
      memory_foldl_inverted, pixels, List.flatMap_cons, List.foldl_append]

/-! ## All pixels at once -/

/-- Pixels that are inverted one after the other are inverted at once. -/
theorem foldl_inverted {ps : List (Nat × Nat)} (hnodup : ps.Nodup)
    (hon : ∀ p ∈ ps, p.1 < 64 ∧ p.2 < 32) (w : World H) :
    ps.foldl inverted w =
      ⟨{ w.machine with display := w.machine.display.invert ps }.flagIf
          (ps.any fun p => w.machine.display.lit p.1 p.2),
        (w.machine.reports ps).foldl Notice.deliver w.host⟩ := by
  induction ps generalizing w with
  | nil =>
    simp [Machine.flagIf, Machine.reports]
  | cons p ps ih =>
    obtain ⟨hp, hnodup⟩ := List.nodup_cons.mp hnodup
    have honp := hon p (List.mem_cons_self ..)
    have hdisplay : (w.inverted p).machine.display =
        w.machine.display.put p.1 p.2 (!w.machine.display.lit p.1 p.2) := by
      cases h : w.machine.display.lit p.1 p.2 <;> simp [inverted, Machine.flagIf, Machine.set, h]
    -- the pixels still to come are as they were before the first one was inverted
    have hlit : ∀ q ∈ ps, (w.inverted p).machine.display.lit q.1 q.2 =
        w.machine.display.lit q.1 q.2 := by
      rw [hdisplay]
      exact Display.lit_put_of_notMem honp hp _
    have hany : (ps.any fun q => (w.inverted p).machine.display.lit q.1 q.2) =
        ps.any fun q => w.machine.display.lit q.1 q.2 := by
      rw [Bool.eq_iff_iff, List.any_eq_true, List.any_eq_true]
      apply exists_congr
      intro q
      apply and_congr_right
      intro hq
      rw [hlit q hq]
    have hreports : (w.inverted p).machine.reports ps = w.machine.reports ps := by
      apply List.map_congr_left
      intro q hq
      rw [hlit q hq]
    rw [List.foldl_cons, ih hnodup (fun q hq => hon q (List.mem_cons_of_mem p hq)), hany, hreports,
      hdisplay, Display.invert_put honp hp]
    cases h : w.machine.display.lit p.1 p.2 <;>
      cases h' : ps.any fun q => w.machine.display.lit q.1 q.2 <;>
      simp [inverted, Machine.flagIf, Machine.set, Machine.reports, Notice.deliver, h, h']

/-! ## The instruction -/

/-- The pixels that a row of the sprite covers are those that the loop over its bits visits. -/
theorem covers_row (m : Machine) (x y : Register) (height : Fin 16) {i : Nat}
    (hi : i < height.val) :
    ((List.range Display.width).filter (m.covers x y height · (m.spriteRow y + i))).map
        (fun px => (px, m.spriteRow y + i)) =
      rowPixels (m.spriteColumn x) (m.spriteRow y + i) (m.memory.get (m.index.toNat + i))
        (List.range 8) := by
  have hcolumn : m.spriteColumn x < Display.width := Nat.mod_lt _ (by decide)
  rw [filter_range_window (k := 8) (Nat.le_of_lt hcolumn), List.map_map, rowPixels]
  · congr 1
    apply List.filter_congr
    intro c hc
    have hc8 := List.mem_range.mp hc
    simp [Machine.covers, hc8, hi]
  · intro px _ hcov
    simp only [Machine.covers, Bool.and_eq_true, decide_eq_true_eq] at hcov
    omega

/-- The pixels that a sprite covers are those that the loops visit. -/
theorem covered_eq_pixels (m : Machine) (x y : Register) (height : Fin 16) :
    m.covered x y height =
      pixels m.memory (m.spriteColumn x) (m.spriteRow y) m.index.toNat
        (List.range (m.spriteHeight y height)) := by
  have hrow : m.spriteRow y < Display.height := Nat.mod_lt _ (by decide)
  have hfit : m.spriteRow y + m.spriteHeight y height ≤ Display.height := by
    rw [Machine.spriteHeight]
    omega
  rw [Machine.covered, Display.filter_places, flatMap_range_window hfit, pixels, List.flatMap_def,
    List.flatMap_def]
  · congr 1
    apply List.map_congr_left
    intro i hi
    have hrows := List.mem_range.mp hi
    rw [Machine.spriteHeight] at hrows
    exact covers_row m x y height (by omega)
  · intro py hpy hout
    rw [List.map_eq_nil_iff, List.filter_eq_nil_iff]
    intro px _ hcov
    simp only [Machine.covers, Bool.and_eq_true, decide_eq_true_eq, Machine.spriteHeight]
      at hcov hout
    omega

theorem on_of_mem_covered {m : Machine} {x y : Register} {height : Fin 16} {p : Nat × Nat}
    (hp : p ∈ m.covered x y height) : p.1 < 64 ∧ p.2 < 32 :=
  Display.mem_places.mp (List.mem_filter.mp hp).1

theorem nodup_covered (m : Machine) (x y : Register) (height : Fin 16) :
    (m.covered x y height).Nodup :=
  Display.nodup_places.filter _

/-- Clearing the flag first and setting it on a lit pixel leaves the flag that tells of one. -/
theorem flagIf_set (m : Machine) (d : Display) (condition : Bool) :
    ({ m.set flagRegister 0 with display := d } : Machine).flagIf condition =
      ({ m with display := d } : Machine).set flagRegister (flagOf condition) := by
  cases condition <;> simp [Machine.flagIf, Machine.set, flagOf]

/-- Drawing reads the corner, checks the window and then goes through the rows with the flag
cleared. -/
theorem run_draw_eq_rows (m : Machine) (host : H) (x y : Register) (height : Fin 16) :
    (draw x y height).run ⟨m, host⟩ =
      if 0 < m.spriteHeight y height ∧ Memory.size < m.index.toNat + m.spriteHeight y height then
        .error (.fault .indexOverflow) ⟨m, host⟩
      else
        (drawRows (m.spriteColumn x) (m.spriteRow y) m.index.toNat
          (List.range (m.spriteHeight y height))).run ⟨m.set flagRegister 0, host⟩ := by
  have hrow : m.coordinate y % Display.height ≤ Display.height :=
    Nat.le_of_lt (Nat.mod_lt _ (by decide))
  simp only [draw, EStateM.run_bind, EStateM.run_get, Exec.run_require hrow]
  split
  · next h => exact Eq.symm (if_pos h)
  · next h => exact Eq.symm (if_neg h)

/-- A sprite is drawn at once. -/
theorem run_draw (m : Machine) (host : H) (x y : Register) (height : Fin 16) :
    (draw x y height).run ⟨m, host⟩ = settle m (Effect.attempt host (m.drawEffect x y height)) := by
  rw [run_draw_eq_rows, Machine.drawEffect]
  by_cases h : 0 < m.spriteHeight y height ∧ Memory.size < m.index.toNat + m.spriteHeight y height
  · rw [if_pos h, if_pos h]
    rfl
  · have hrow : ∀ i ∈ List.range (m.spriteHeight y height), m.spriteRow y + i < 32 := by
      intro i hi
      have hlt := List.mem_range.mp hi
      rw [Machine.spriteHeight, Display.height] at hlt
      omega
    have hmemory : ∀ i ∈ List.range (m.spriteHeight y height), m.index.toNat + i < Memory.size := by
      intro i hi
      have hlt := List.mem_range.mp hi
      omega
    have hfold := foldl_inverted (nodup_covered m x y height) (fun _ hp => on_of_mem_covered hp)
      (⟨m.set flagRegister 0, host⟩ : World H)
    rw [if_neg h, if_neg h, run_drawRows hrow hmemory]
    change EStateM.Result.ok () ((pixels m.memory _ _ _ _).foldl inverted _) = _
    rw [← covered_eq_pixels, hfold, flagIf_set]
    rfl

end World
end Chip8
