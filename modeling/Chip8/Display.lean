/-!
# The display

The display is 64 by 32 pixels. Coordinates count from the upper left corner; `Display.lit` is the
view of a display as a set of pixels, and `Display.put` changes a single one.
-/
namespace Chip8

/-- The rows of the display from top to bottom, each from left to right. -/
structure Display where
  rows : Vector (Vector Bool 64) 32
deriving DecidableEq

/-- The new value of one pixel. -/
structure Dot where
  x : Nat
  y : Nat
  lit : Bool
deriving DecidableEq, Repr

namespace Display

def width : Nat := 64

def height : Nat := 32

/-- The display with the pixels of a set. -/
def ofFn (lit : Nat → Nat → Bool) : Display :=
  ⟨Vector.ofFn fun y : Fin 32 => Vector.ofFn fun x : Fin 64 => lit x.val y.val⟩

def dark : Display := ⟨Vector.replicate 32 (Vector.replicate 64 false)⟩

/-- Whether a pixel is lit; off the display none is. -/
def lit (d : Display) (x y : Nat) : Bool :=
  (d.rows[y]?.bind fun row => row[x]?).getD false

/-- Give a pixel a value; off the display nothing changes. -/
def put (d : Display) (x y : Nat) (value : Bool) : Display :=
  match d.rows[y]? with
  | some row => ⟨d.rows.setIfInBounds y (row.setIfInBounds x value)⟩
  | none => d

/-- The row `y` as a number whose most significant bit is the leftmost pixel. -/
def row (d : Display) (y : Nat) : BitVec 64 :=
  .ofNat 64 ((List.range width).foldl (fun n x => 2 * n + (d.lit x y).toNat) 0)

/-- The places of the display, row by row and from left to right. -/
def places : List (Nat × Nat) :=
  (List.range height).flatMap fun y => (List.range width).map fun x => (x, y)

@[simp] theorem lit_dark (x y : Nat) : dark.lit x y = false := by
  by_cases hy : y < 32 <;> by_cases hx : x < 64 <;> simp [dark, lit, hx, hy]

@[simp] theorem lit_ofFn (f : Nat → Nat → Bool) {x y : Nat} (hx : x < 64) (hy : y < 32) :
    (ofFn f).lit x y = f x y := by
  simp [ofFn, lit, hx, hy]

/-- Off the display nothing is lit. -/
theorem lit_eq_false (d : Display) {x y : Nat} (h : 64 ≤ x ∨ 32 ≤ y) : d.lit x y = false := by
  by_cases hy : y < 32
  · rw [lit, Vector.getElem?_eq_getElem hy, Option.bind_some,
      Vector.getElem?_eq_none (by omega), Option.getD_none]
  · rw [lit, Vector.getElem?_eq_none (by omega), Option.bind_none, Option.getD_none]

/-- The pixel that was put has its value, and every other pixel is as before. -/
theorem lit_put (d : Display) {x y : Nat} (hx : x < 64) (hy : y < 32) (value : Bool)
    (px py : Nat) :
    (d.put x y value).lit px py = if px = x ∧ py = y then value else d.lit px py := by
  simp only [put, lit, Vector.getElem?_eq_getElem hy]
  by_cases hpy : y = py
  · subst hpy
    by_cases hpx : x = px
    · subst hpx
      simp [hx, hy]
    · simp [hy, hpx, Ne.symm hpx]
  · simp [hpy, Ne.symm hpy]

/-- Displays with the same lit pixels are equal. -/
theorem ext_lit {d e : Display} (h : ∀ x < 64, ∀ y < 32, d.lit x y = e.lit x y) : d = e := by
  obtain ⟨rows⟩ := d
  obtain ⟨rows'⟩ := e
  congr 1
  ext y hy x hx
  have hxy := h x hx y hy
  simpa [lit, hx, hy] using hxy

theorem mem_places {x y : Nat} : (x, y) ∈ places ↔ x < 64 ∧ y < 32 := by
  simp only [places, width, height, List.mem_flatMap, List.mem_map, List.mem_range, Prod.mk.injEq]
  constructor
  · rintro ⟨_, hy, _, hx, rfl, rfl⟩
    exact ⟨hx, hy⟩
  · rintro ⟨hx, hy⟩
    exact ⟨y, hy, x, hx, rfl, rfl⟩

end Display
end Chip8
