import Chip8.Proofs.Redrawing
import Mathlib.Algebra.Group.Nat.Even

/-!
# Paintings

A painting is what a list of sprites leaves on the display, each drawn with an index register of its
own. The flag that one drawing leaves behind, or anything else that happens between two of them, is
of no account to the next one, as long as memory, display and the other registers stay. Sprites only
invert pixels. Hence their order does not matter, and what is drawn twice is not drawn at all.
-/
namespace Chip8

/-- A sprite to draw: the index register that leads to it, the registers that name its corner and
its height. -/
structure Stroke where
  index : Word
  x : Register
  y : Register
  height : Fin 16
deriving DecidableEq

def Stroke.instruction (s : Stroke) : Instruction :=
  .draw s.x s.y s.height

namespace Machine

/-- The machines agree on memory and on all registers but the flag. -/
structure SameShapes (m m' : Machine) : Prop where
  memory : m'.memory = m.memory
  reg : ∀ r, r ≠ flagRegister → m'.reg r = m.reg r

/-- The machines agree on the display too. -/
structure SameScene (m m' : Machine) : Prop extends SameShapes m m' where
  display : m'.display = m.display

/-- Drawing sprites one after the other leads from one machine to another. Before each drawing the
index register is set to that of the sprite; whatever else happens leaves memory, display and the
registers other than the flag alone. -/
inductive Painting : Machine → List Stroke → Machine → Prop where
  | done {m m' : Machine} : SameScene m m' → Painting m [] m'
  | draw {m m₁ m₂ m' : Machine} {s : Stroke} {strokes : List Stroke} {H : Type} [Host H]
      {host host' : H} :
      SameScene m m₁ → m₁.index = s.index →
      (World.execute s.instruction).run ⟨m₁, host⟩ = .ok () ⟨m₂, host'⟩ →
      Painting m₂ strokes m' → Painting m (s :: strokes) m'

/-- A sprite cannot be drawn: its instruction raises a fault. -/
def Refuses {H : Type} [Host H] (m : Machine) (host : H) (s : Stroke) : Prop :=
  ∃ cause w, (World.execute s.instruction).run ⟨m, host⟩ = .error (.fault cause) w

def sprite (m : Machine) (s : Stroke) : List (Nat × Nat) :=
  { m with index := s.index }.covered s.x s.y s.height

/-- The rows of a sprite that lie on the display all lie in memory. -/
def Offers (m : Machine) (s : Stroke) : Prop :=
  { m with index := s.index }.SpriteFits s.y s.height

variable {m m₁ m₂ m' : Machine} {s : Stroke} {strokes strokes' : List Stroke}

namespace SameShapes

theorem refl (m : Machine) : SameShapes m m :=
  ⟨rfl, fun _ _ => rfl⟩

theorem trans (h : SameShapes m m₁) (h' : SameShapes m₁ m₂) : SameShapes m m₂ :=
  ⟨h'.memory.trans h.memory, fun r hr => (h'.reg r hr).trans (h.reg r hr)⟩

theorem sameSprites (h : SameShapes m m₁) (hindex : m₁.index = s.index) :
    SameSprites { m with index := s.index } m₁ :=
  ⟨h.memory, hindex, h.reg⟩

/-- The sprite at hand lies in memory if it does so for the machine at the start. -/
theorem spriteFits_iff (h : SameShapes m m₁) (hindex : m₁.index = s.index) :
    m₁.SpriteFits s.y s.height ↔ m.Offers s :=
  (h.sameSprites hindex).spriteFits_iff

/-- The sprite at hand covers what it covers for the machine at the start. -/
theorem covered_eq (h : SameShapes m m₁) (hindex : m₁.index = s.index) :
    m₁.covered s.x s.y s.height = m.sprite s :=
  (h.sameSprites hindex).covered_eq s.x s.y s.height

theorem withIndex (h : SameShapes m m₁) (index : Word) : SameShapes m { m₁ with index } :=
  ⟨h.memory, h.reg⟩

theorem offers_iff (h : SameShapes m m₁) (s : Stroke) : m₁.Offers s ↔ m.Offers s :=
  (h.withIndex s.index).spriteFits_iff rfl

theorem sprite_eq (h : SameShapes m m₁) (s : Stroke) : m₁.sprite s = m.sprite s :=
  (h.withIndex s.index).covered_eq rfl

/-- A drawing leaves memory and the registers other than the flag alone. -/
theorem invertAll (h : SameShapes m m₁) (pixels : List (Nat × Nat)) :
    SameShapes m (m₁.invertAll pixels) :=
  have hsame := sameSprites_invertAll m₁ pixels
  h.trans ⟨hsame.memory, hsame.reg⟩

end SameShapes

theorem SameScene.refl (m : Machine) : SameScene m m :=
  ⟨.refl m, rfl⟩

theorem SameScene.withIndex (m : Machine) (index : Word) : SameScene m { m with index } :=
  ⟨(SameShapes.refl m).withIndex index, rfl⟩

/-! ## One drawing -/

section

variable {H : Type} [Host H]

/-- A sprite that lies in memory is drawn. -/
theorem run_stroke_of_fits (hfits : m.SpriteFits s.y s.height) (host : H) :
    ∃ host', (World.execute s.instruction).run ⟨m, host⟩ =
      .ok () ⟨m.invertAll (m.covered s.x s.y s.height), host'⟩ := by
  have hrun := World.run_draw m host s.x s.y s.height
  rw [hfits.drawEffect_eq] at hrun
  exact ⟨_, hrun⟩

/-- A sprite that does not lie in memory is refused. -/
theorem run_stroke_of_not_fits (hout : ¬ m.SpriteFits s.y s.height) (host : H) :
    (World.execute s.instruction).run ⟨m, host⟩ = .error (.fault .indexOverflow) ⟨m, host⟩ := by
  have hrun := World.run_draw m host s.x s.y s.height
  rw [drawEffect_of_not_fits hout] at hrun
  exact hrun

/-- What has been drawn lies in memory. -/
theorem fits_of_run_stroke {host host' : H}
    (h : (World.execute s.instruction).run ⟨m, host⟩ = .ok () ⟨m', host'⟩) :
    m.SpriteFits s.y s.height ∧ m' = m.invertAll (m.covered s.x s.y s.height) := by
  by_cases hfits : m.SpriteFits s.y s.height
  · obtain ⟨host', hrun⟩ := run_stroke_of_fits hfits host
    rw [hrun] at h
    cases h
    exact ⟨hfits, rfl⟩
  · rw [run_stroke_of_not_fits hfits] at h
    cases h

/-- A sprite is refused if and only if it does not lie in memory. -/
theorem refuses_iff (host : H) : m.Refuses host s ↔ ¬ m.SpriteFits s.y s.height := by
  constructor
  · rintro ⟨cause, w, hrun⟩ hfits
    obtain ⟨host', hrun'⟩ := run_stroke_of_fits hfits host
    rw [hrun'] at hrun
    cases hrun
  · intro hout
    exact ⟨_, _, run_stroke_of_not_fits hout host⟩

end

/-! ## One drawing after the other -/

/-- The display with some sprites drawn, each as it is for the machine `m`. -/
def overlay (m : Machine) (d : Display) (strokes : List Stroke) : Display :=
  strokes.foldl (fun d s => d.invert (m.sprite s)) d

theorem overlay_cons (d : Display) (s : Stroke) (strokes : List Stroke) :
    m.overlay d (s :: strokes) = m.overlay (d.invert (m.sprite s)) strokes :=
  List.foldl_cons ..

theorem overlay_append (d : Display) (strokes strokes' : List Stroke) :
    m.overlay d (strokes ++ strokes') = m.overlay (m.overlay d strokes) strokes' :=
  List.foldl_append ..

theorem SameShapes.overlay_eq (h : SameShapes m m₁) (d : Display) (strokes : List Stroke) :
    m₁.overlay d strokes = m.overlay d strokes := by
  simp only [overlay, h.sprite_eq]

theorem display_invertAll (m : Machine) (pixels : List (Nat × Nat)) :
    (m.invertAll pixels).display = m.display.invert pixels :=
  rfl

structure Painted (m : Machine) (strokes : List Stroke) (m' : Machine) : Prop
    extends SameShapes m m' where
  offers : ∀ s ∈ strokes, m.Offers s
  display : m'.display = m.overlay m.display strokes

theorem Painting.painted (h : Painting m strokes m') : Painted m strokes m' := by
  induction h with
  | done hscene =>
    exact { hscene with
      offers := fun s hs => absurd hs (List.not_mem_nil)
      display := hscene.display }
  | @draw m m₁ m₂ m' s strokes H _ host host' hscene hindex hrun _ ih =>
    obtain ⟨hfits, rfl⟩ := fits_of_run_stroke hrun
    rw [hscene.covered_eq hindex] at ih
    have hshapes := hscene.invertAll (m.sprite s)
    refine { hshapes.trans ih.toSameShapes with offers := ?_, display := ?_ }
    · intro t ht
      rcases List.mem_cons.mp ht with rfl | ht
      · exact (hscene.spriteFits_iff hindex).mp hfits
      · exact (hshapes.offers_iff t).mp (ih.offers t ht)
    · rw [ih.display, hshapes.overlay_eq, display_invertAll, hscene.display, overlay_cons]

/-- Sprites that lie in memory can be drawn in any order. -/
theorem exists_painting (strokes : List Stroke) (h : ∀ s ∈ strokes, m.Offers s) :
    ∃ m', Painting m strokes m' := by
  induction strokes generalizing m with
  | nil => exact ⟨m, .done (.refl m)⟩
  | cons s strokes ih =>
    have hs : m.Offers s := h s (List.mem_cons_self ..)
    obtain ⟨host, hrun⟩ := run_stroke_of_fits hs ({} : Recorder)
    have hscene := SameScene.withIndex m s.index
    obtain ⟨m', hrest⟩ := ih fun t ht =>
      ((hscene.invertAll (m.sprite s)).offers_iff t).mpr (h t (List.mem_cons_of_mem _ ht))
    exact ⟨m', .draw hscene rfl hrun hrest⟩

/-- A sprite that lies in memory in full can be drawn. -/
theorem offers_of_le (h : s.index.toNat + s.height.val ≤ Memory.size) : m.Offers s := by
  intro _
  have hheight : { m with index := s.index }.spriteHeight s.y s.height ≤ s.height.val :=
    Nat.min_le_left ..
  change s.index.toNat + _ ≤ Memory.size
  omega

/-! ## Order and repetition -/

theorem overlay_perm (hperm : strokes.Perm strokes') (d : Display) :
    m.overlay d strokes' = m.overlay d strokes :=
  (hperm.foldl_eq' (fun _ _ _ _ _ => Display.invert_comm ..) d).symm

/-- Drawing a sprite an even number of times changes nothing. -/
theorem overlay_replicate (d : Display) (s : Stroke) {n : Nat} (hn : Even n) :
    m.overlay d (List.replicate n s) = d := by
  obtain ⟨k, rfl⟩ := hn
  induction k with
  | zero => rfl
  | succ k ih =>
    have hsum : k + 1 + (k + 1) = (k + k) + 1 + 1 := by omega
    rw [hsum, List.replicate_succ, List.replicate_succ, overlay_cons, overlay_cons,
      Display.invert_invert, ih]

theorem overlay_filter (d : Display) (hs : Even (strokes.count s)) :
    m.overlay d (strokes.filter (· ≠ s)) = m.overlay d strokes := by
  have hperm : (List.replicate (strokes.count s) s ++ strokes.filter (· ≠ s)).Perm strokes := by
    rw [← List.filter_eq]
    simpa only [decide_not] using List.filter_append_perm (· = s) strokes
  rw [overlay_perm hperm, overlay_append, overlay_replicate d s hs]

/-- Any other way to draw sprites that a painting has drawn leads to the same display if it inverts
the same pixels. -/
theorem Painting.redo (h : Painting m strokes m') (hsub : strokes' ⊆ strokes)
    (hoverlay : m.overlay m.display strokes' = m.overlay m.display strokes) :
    (∃ m'', Painting m strokes' m'') ∧
      ∀ m'', Painting m strokes' m'' → m''.display = m'.display := by
  have hpainted := h.painted
  constructor
  · exact exists_painting _ fun s hs => hpainted.offers s (hsub hs)
  · intro m'' h'
    rw [h'.painted.display, hoverlay, hpainted.display]

/-- Sprites that can be drawn one after the other can be drawn in any order, and a sprite that is
drawn an even number of times can be left out: the display is the same in the end. Whether a sprite
is refused does not depend on what has been drawn before. -/
theorem strokes_commute (h : Painting m strokes m') :
    (∀ strokes', strokes.Perm strokes' →
      (∃ m'', Painting m strokes' m'') ∧
        ∀ m'', Painting m strokes' m'' → m''.display = m'.display) ∧
    (∀ s, Even (strokes.count s) →
      (∃ m'', Painting m (strokes.filter (· ≠ s)) m'') ∧
        ∀ m'', Painting m (strokes.filter (· ≠ s)) m'' → m''.display = m'.display) ∧
    ∀ (s : Stroke) (m₁ : Machine), SameScene m' m₁ → m₁.index = s.index →
      ∀ {H H' : Type} [Host H] [Host H'] (host : H) (host' : H'),
        m₁.Refuses host s ↔ { m with index := s.index }.Refuses host' s := by
  refine ⟨?_, ?_, ?_⟩
  · intro strokes' hperm
    exact h.redo hperm.symm.subset (overlay_perm hperm _)
  · intro s hs
    exact h.redo (List.filter_sublist.subset) (overlay_filter _ hs)
  · intro s m₁ hscene hindex H H' _ _ host host'
    have hshapes := h.painted.toSameShapes.trans hscene.toSameShapes
    rw [refuses_iff, refuses_iff, hshapes.spriteFits_iff hindex]
    rfl

/-- Of the glyphs of zero, one and zero again, all at the corner that the flag names, the zeros can
be left out. -/
theorem zero_left_out :
    ∃ zero one : Stroke, zero = ⟨0, flagRegister, flagRegister, lastDigit 5⟩ ∧
      one = ⟨5, flagRegister, flagRegister, lastDigit 5⟩ ∧
      ∃ m' m'', Painting (new .cosmac (.cycle [])) [zero, one, zero] m' ∧
        Painting (new .cosmac (.cycle [])) [one] m'' ∧ m''.display = m'.display := by
  refine ⟨_, _, rfl, rfl, ?_⟩
  obtain ⟨m', hpainting⟩ := exists_painting (m := new .cosmac (.cycle []))
    [⟨0, flagRegister, flagRegister, lastDigit 5⟩, ⟨5, flagRegister, flagRegister, lastDigit 5⟩,
      ⟨0, flagRegister, flagRegister, lastDigit 5⟩] (by
    intro s hs
    apply offers_of_le
    revert s
    decide)
  obtain ⟨-, hrepeated, -⟩ := strokes_commute hpainting
  obtain ⟨⟨m'', hrest⟩, hdisplay⟩ :=
    hrepeated ⟨0, flagRegister, flagRegister, lastDigit 5⟩ (by decide)
  exact ⟨m', m'', hpainting, hrest, hdisplay m'' hrest⟩

end Machine
end Chip8
