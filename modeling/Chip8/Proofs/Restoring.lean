import Chip8.Machine.Snapshot
import Chip8.Proofs.Transcript

/-!
# Giving the screen back

The pieces that prepare a screen and those that give it back are the only ones with a question mark
in their characters. Therefore the characters that give it back stand at one place only of what is
written, wherever one looks for them.
-/
namespace Chip8

/-- A text without a question mark. -/
def Unmarked (text : String) : Prop :=
  '?' ∉ text.toList

instance (text : String) : Decidable (Unmarked text) :=
  inferInstanceAs (Decidable ('?' ∉ text.toList))

theorem Unmarked.append {s t : String} (hs : Unmarked s) (ht : Unmarked t) : Unmarked (s ++ t) := by
  rw [Unmarked, String.toList_append, List.mem_append]
  exact not_or.mpr ⟨hs, ht⟩

theorem unmarked_ofList {cs : List Char} (h : '?' ∉ cs) : Unmarked (String.ofList cs) := by
  rwa [Unmarked, String.toList_ofList]

theorem unmarked_join {texts : List String} (h : ∀ text ∈ texts, Unmarked text) :
    Unmarked (String.join texts) := by
  rw [Unmarked, String.toList_join, List.mem_flatMap]
  rintro ⟨text, hmem, hmark⟩
  exact h text hmem hmark

theorem unmarked_nat (n : Nat) : Unmarked (toString n) := by
  rw [Unmarked, Nat.toString_eq_repr, Nat.toList_repr]
  intro hmark
  have hdigit : '?'.isDigit = true :=
    Nat.isDigit_of_mem_toDigits (by decide) (by decide) hmark
  revert hdigit
  decide

/-! ## Snapshots -/

namespace Hex

theorem unmarked_fixed (width n : Nat) : Unmarked (fixed width n) :=
  unmarked_ofList fun hmark => absurd (isAlphanum_of_mem_fixedDigits hmark) (by decide)

theorem unmarked_text (n : Nat) : Unmarked (text n) :=
  unmarked_ofList fun hmark => absurd (isAlphanum_of_mem_digits hmark) (by decide)

end Hex

namespace Snapshot

theorem unmarked_faultLine (fault : Option Fault) : Unmarked (faultLine fault) := by
  rcases fault with _ | fault
  · decide
  · have htag : Unmarked fault.tag := fun h => absurd (Fault.isUpper_of_mem_tag h) (by decide)
    have hmessage : Unmarked fault.message := fun h =>
      absurd (Fault.isLower_of_mem_message h) (by decide)
    have hlabel : Unmarked "Runtime error: " ∧ Unmarked " (" ∧ Unmarked ")\n" := by decide
    exact (((hlabel.1.append htag).append hlabel.2.1).append hmessage).append hlabel.2.2

theorem unmarked_registerLine (s : Snapshot) : Unmarked s.registerLine := by
  have hpc := Hex.unmarked_fixed 4 s.pc.toNat
  have hindex := Hex.unmarked_fixed 4 s.index.toNat
  have hdepth := Hex.unmarked_text s.depth
  have hlabel : Unmarked "PC = " ∧ Unmarked ", I = " ∧ Unmarked ", SP = " := by decide
  exact ((((hlabel.1.append hpc).append hlabel.2.1).append hindex).append hlabel.2.2).append hdepth

theorem unmarked_instructionLine (word : Option Word) : Unmarked (instructionLine word) := by
  rcases word with _ | word
  · decide
  · exact (by decide : Unmarked "\nInstruction: ").append (Hex.unmarked_fixed 4 word.toNat)

theorem unmarked_stackLine (n : Nat) (target : Word) : Unmarked (stackLine n target) :=
  (((by decide : Unmarked "\n\tSTACK[").append (unmarked_nat n)).append
    (by decide : Unmarked "]: ")).append (Hex.unmarked_fixed 4 target.toNat)

theorem unmarked_text (s : Snapshot) : Unmarked s.text := by
  have hstack : Unmarked (String.join (s.stack.mapIdx stackLine)) := by
    refine unmarked_join fun line hline => ?_
    obtain ⟨n, hn, rfl⟩ := List.mem_mapIdx.mp hline
    exact unmarked_stackLine n _
  exact (((unmarked_faultLine s.fault).append s.unmarked_registerLine).append
    (unmarked_instructionLine s.instruction)).append hstack

end Snapshot

/-! ## Pieces -/

namespace Piece

theorem unmarked_of_depicts {piece : Piece} (h : piece.depicts = true) : Unmarked piece.text := by
  cases piece with
  | enterAlternate | leaveAlternate | hideCursor | showCursor => cases h
  | clear | introducer | separator | move | bell => decide
  | number n => exact unmarked_nat n
  | cell lit => cases lit <;> decide

theorem toList_textOf (pieces : Array Piece) :
    (textOf pieces).toList = pieces.toList.flatMap fun piece => piece.text.toList := by
  have hfold (pieces : List Piece) (text : String) :
      (pieces.foldl (fun text piece => text ++ piece.text) text).toList =
        text.toList ++ pieces.flatMap fun piece => piece.text.toList := by
    induction pieces generalizing text with
    | nil => exact (List.append_nil _).symm
    | cons piece rest ih =>
      rw [List.foldl_cons, ih, String.toList_append, List.append_assoc, List.flatMap_cons]
  rw [textOf, ← Array.foldl_toList, hfold]
  rfl

theorem textOf_append (pieces pieces' : Array Piece) :
    textOf (pieces ++ pieces') = textOf pieces ++ textOf pieces' := by
  apply String.toList_inj.mp
  rw [String.toList_append, toList_textOf, toList_textOf, toList_textOf, Array.toList_append,
    List.flatMap_append]

/-- What draws or rings has no question mark. -/
theorem unmarked_textOf {pieces : List Piece} (h : ∀ piece ∈ pieces, piece.depicts = true) :
    Unmarked (textOf pieces.toArray) := by
  rw [Unmarked, toList_textOf, List.mem_flatMap]
  rintro ⟨piece, hmem, hmark⟩
  exact unmarked_of_depicts (h piece hmem) hmark

def prepareText : String :=
  textOf prepare.toArray

def restoreText : String :=
  textOf restore.toArray

section Once

variable {drawn rest before after : String}

/-- Of all question marks, only the first one of those that give the screen back comes three places
before the end of a sequence that ends like this. -/
theorem place_of_mark (hdrawn : Unmarked drawn) (hrest : Unmarked rest) {j : Nat}
    (hmark : (prepareText ++ drawn ++ restoreText ++ rest).toList[j]? = some '?')
    (hend : (prepareText ++ drawn ++ restoreText ++ rest).toList[j + 3]? = some 'h') :
    j = (prepareText ++ drawn).toList.length + 2 := by
  have hprepare : ∀ k < prepareText.toList.length, prepareText.toList[k]? = some '?' →
      k + 3 < prepareText.toList.length ∧ prepareText.toList[k + 3]? ≠ some 'h' := by decide
  have hrestore : ∀ k < restoreText.toList.length, restoreText.toList[k]? = some '?' →
      k + 3 < restoreText.toList.length ∧
        (restoreText.toList[k + 3]? = some 'h' → k = 2) := by decide
  simp only [String.toList_append, List.append_assoc] at hmark hend ⊢
  rw [List.getElem?_append] at hmark
  split at hmark
  · next hlt =>
    obtain ⟨hinside, hother⟩ := hprepare j hlt hmark
    rw [List.getElem?_append_left hinside] at hend
    exact absurd hend hother
  · next hge =>
    obtain ⟨k, rfl⟩ := Nat.exists_eq_add_of_le (Nat.le_of_not_lt hge)
    rw [Nat.add_sub_cancel_left, List.getElem?_append] at hmark
    rw [Nat.add_assoc, List.getElem?_append_right (Nat.le_add_right ..),
      Nat.add_sub_cancel_left] at hend
    split at hmark
    · exact absurd (List.mem_of_getElem? hmark) hdrawn
    · next hge =>
      obtain ⟨l, rfl⟩ := Nat.exists_eq_add_of_le (Nat.le_of_not_lt hge)
      rw [Nat.add_sub_cancel_left, List.getElem?_append] at hmark
      rw [Nat.add_assoc, List.getElem?_append_right (Nat.le_add_right ..),
        Nat.add_sub_cancel_left] at hend
      split at hmark
      · next hlt =>
        obtain ⟨hinside, hplace⟩ := hrestore l hlt hmark
        rw [List.getElem?_append_left hinside] at hend
        rw [hplace hend, List.length_append, Nat.add_assoc]
      · exact absurd (List.mem_of_getElem? hmark) hrest

/-- The text that gives the screen back stands at one place only. -/
theorem eq_of_restoreText (hdrawn : Unmarked drawn) (hrest : Unmarked rest)
    (h : prepareText ++ drawn ++ restoreText ++ rest = before ++ restoreText ++ after) :
    before = prepareText ++ drawn ∧ after = rest := by
  have hlists : (prepareText ++ drawn ++ restoreText ++ rest).toList =
      before.toList ++ (restoreText.toList ++ after.toList) := by
    rw [h, String.toList_append, String.toList_append, List.append_assoc]
  have hread (k : Nat) :
      (prepareText ++ drawn ++ restoreText ++ rest).toList[before.toList.length + k]? =
        (restoreText.toList ++ after.toList)[k]? := by
    rw [hlists, List.getElem?_append_right (Nat.le_add_right ..), Nat.add_sub_cancel_left]
  have hplace := place_of_mark hdrawn hrest (hread 2) (hread 5)
  rw [String.toList_append, String.toList_append, List.append_assoc] at hlists
  obtain ⟨hbefore, hafter⟩ := List.append_inj hlists (Nat.add_right_cancel hplace).symm
  exact ⟨String.toList_inj.mp hbefore.symm,
    String.toList_inj.mp (List.append_cancel_left hafter).symm⟩

end Once

end Piece
end Chip8
