import Chip8.Proofs.Effect

/-!
# The places of a window

A sprite is a window of the display. Going through all places of the display and keeping those of a
window gives the same list as going through the window alone, as far as it lies on the display.
-/
namespace Chip8

/-- What a window of a range contributes, when nothing outside of it contributes. -/
theorem flatMap_range_window {α : Type} {n a k : Nat} (hk : a + k ≤ n) (f : Nat → List α)
    (hf : ∀ i < n, ¬ (a ≤ i ∧ i < a + k) → f i = []) :
    (List.range n).flatMap f = (List.range k).flatMap fun i => f (a + i) := by
  obtain ⟨r, rfl⟩ : ∃ r, n = a + k + r := ⟨n - (a + k), by omega⟩
  have hbefore : (List.range a).flatMap f = [] := by
    rw [List.flatMap_eq_nil_iff]
    intro i hi
    have := List.mem_range.mp hi
    exact hf i (by omega) (by omega)
  have hafter : ((List.range r).map (a + k + ·)).flatMap f = [] := by
    rw [List.flatMap_map, List.flatMap_eq_nil_iff]
    intro i hi
    have := List.mem_range.mp hi
    exact hf (a + k + i) (by omega) (by omega)
  rw [List.range_add, List.range_add, List.flatMap_append, List.flatMap_append, hbefore, hafter,
    List.flatMap_map, List.nil_append, List.append_nil]

/-- The members of a range that pass a test are those of another range, when that one holds them
all. -/
theorem filter_range_eq {n k : Nat} (p : Nat → Bool) (hp : ∀ i < n, p i = true → i < k) :
    (List.range n).filter p = (List.range k).filter fun i => decide (i < n) && p i := by
  rcases Nat.le_total n k with h | h
  · obtain ⟨s, rfl⟩ : ∃ s, k = n + s := ⟨k - n, by omega⟩
    have hnone : ((List.range s).map (n + ·)).filter (fun i => decide (i < n) && p i) = [] := by
      rw [List.filter_eq_nil_iff]
      intro i hi
      obtain ⟨j, -, rfl⟩ := List.mem_map.mp hi
      have hout : ¬ n + j < n := by omega
      simp [hout]
    rw [List.range_add, List.filter_append, hnone, List.append_nil]
    apply List.filter_congr
    intro i hi
    simp [List.mem_range.mp hi]
  · obtain ⟨s, rfl⟩ : ∃ s, n = k + s := ⟨n - k, by omega⟩
    have hnone : ((List.range s).map (k + ·)).filter p = [] := by
      rw [List.filter_eq_nil_iff]
      intro i hi hpi
      obtain ⟨j, hj, rfl⟩ := List.mem_map.mp hi
      have hjs := List.mem_range.mp hj
      have hlt := hp (k + j) (by omega) hpi
      omega
    rw [List.range_add, List.filter_append, hnone, List.append_nil]
    apply List.filter_congr
    intro i hi
    have hik := List.mem_range.mp hi
    have hin : i < k + s := by omega
    simp [hin]

/-- The members of a window of a range that pass a test, when nothing outside of it does. -/
theorem filter_range_window {n a k : Nat} (ha : a ≤ n) (p : Nat → Bool)
    (hp : ∀ i < n, p i = true → a ≤ i ∧ i < a + k) :
    (List.range n).filter p =
      ((List.range k).filter fun i => decide (a + i < n) && p (a + i)).map (a + ·) := by
  obtain ⟨r, rfl⟩ : ∃ r, n = a + r := ⟨n - a, by omega⟩
  have hbefore : (List.range a).filter p = [] := by
    rw [List.filter_eq_nil_iff]
    intro i hi hpi
    have hia := List.mem_range.mp hi
    have hwindow := hp i (by omega) hpi
    omega
  have hshift : (List.range r).filter (p ∘ (a + ·)) =
      (List.range k).filter fun i => decide (i < r) && p (a + i) := by
    apply filter_range_eq
    intro i hi hpi
    have hwindow := hp (a + i) (by omega) hpi
    omega
  rw [List.range_add, List.filter_append, hbefore, List.nil_append, List.filter_map, hshift]
  simp only [Nat.add_lt_add_iff_left]

namespace Display

/-- No place of the display occurs twice. -/
theorem nodup_places : places.Nodup := by
  rw [places, List.Nodup, List.pairwise_flatMap]
  constructor
  · intro y _
    rw [List.pairwise_map]
    exact List.nodup_range.imp fun h heq => h (congrArg Prod.fst heq)
  · refine List.nodup_range.imp ?_
    intro y y' h p hp q hq heq
    obtain ⟨x, -, rfl⟩ := List.mem_map.mp hp
    obtain ⟨x', -, rfl⟩ := List.mem_map.mp hq
    exact h (congrArg Prod.snd heq)

/-- The places that pass a test, row by row. -/
theorem filter_places (p : Nat → Nat → Bool) :
    places.filter (fun q => p q.1 q.2) =
      (List.range height).flatMap fun y =>
        ((List.range width).filter (p · y)).map fun x => (x, y) := by
  rw [places, List.filter_flatMap]
  congr 1
  funext y
  rw [List.filter_map]
  rfl

@[simp] theorem lit_invert (d : Display) (pixels : List (Nat × Nat)) {x y : Nat} (hx : x < 64)
    (hy : y < 32) : (d.invert pixels).lit x y = (d.lit x y ^^ decide ((x, y) ∈ pixels)) := by
  rw [invert, lit_ofFn _ hx hy]

@[simp] theorem invert_nil (d : Display) : d.invert [] = d :=
  ext_lit fun x hx y hy => by simp [lit_invert _ _ hx hy]

/-- A pixel that is put leaves the other ones as they were. -/
theorem lit_put_of_notMem {d : Display} {p : Nat × Nat} {ps : List (Nat × Nat)}
    (hon : p.1 < 64 ∧ p.2 < 32) (hp : p ∉ ps) (value : Bool) :
    ∀ q ∈ ps, (d.put p.1 p.2 value).lit q.1 q.2 = d.lit q.1 q.2 := by
  intro q hq
  have hne : ¬ (q.1 = p.1 ∧ q.2 = p.2) := by
    intro h
    exact hp (Prod.ext h.1 h.2 ▸ hq)
  rw [lit_put _ hon.1 hon.2, if_neg hne]

/-- Inverting a pixel and then others, none of which is the first, is inverting them all. -/
theorem invert_put {d : Display} {p : Nat × Nat} {ps : List (Nat × Nat)} (hp : p.1 < 64 ∧ p.2 < 32)
    (hps : p ∉ ps) : (d.put p.1 p.2 (!d.lit p.1 p.2)).invert ps = d.invert (p :: ps) := by
  apply ext_lit
  intro x hx y hy
  rw [lit_invert _ _ hx hy, lit_invert _ _ hx hy, lit_put _ hp.1 hp.2]
  by_cases h : x = p.1 ∧ y = p.2
  · obtain ⟨rfl, rfl⟩ := h
    simp [hps]
  · have hne : (x, y) ≠ p := by
      intro heq
      exact h ⟨congrArg Prod.fst heq, congrArg Prod.snd heq⟩
    simp [h, hne]

end Display
end Chip8
