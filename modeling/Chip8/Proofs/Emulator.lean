import Chip8.Terminal.Output

/-!
# A terminal that obeys

What a terminal makes of the characters that it gets. A control sequence is an escape character, an
opening bracket, decimal parameters between semicolons, and a last character that says what to do.
Two of them count here: one blanks every cell, the other moves the cursor. The rest, the private
ones with a question mark among them, switch modes and write no cell. Any other character goes into
the cell at the cursor, except the control characters.

`Screen.read` knows nothing of the pieces that a text was put together from; the lemmas on
`Screen.readPiece` say what it makes of them.
-/
namespace Chip8

namespace Screen

/-- How far a control sequence has been read. -/
inductive Mode where
  /-- There is none. -/
  | ground
  /-- The escape character. -/
  | escape
  /-- The bracket too, whether a question mark has come since, the parameters before the last
  semicolon, and the number that the digits after it make. -/
  | control (marked : Bool) (parameters : List Nat) (current : Nat)
deriving DecidableEq, Repr

end Screen

/-- The state of a terminal. Columns and rows count from zero. -/
structure Screen where
  /-- The character in each cell, by column and row. -/
  cell : Nat → Nat → Char
  column : Nat
  row : Nat
  mode : Screen.Mode

namespace Screen

/-- Write a character at the cursor, which moves on. -/
def put (s : Screen) (c : Char) : Screen :=
  { s with
    cell := fun x y => if x = s.column ∧ y = s.row then c else s.cell x y
    column := s.column + 1 }

/-- Carry out a control sequence. The parameters of a movement are row and column, from one on. -/
def carryOut (s : Screen) (marked : Bool) (parameters : List Nat) (final : Char) : Screen :=
  match marked, parameters, final with
  | false, [2], 'J' => { s with cell := fun _ _ => ' ' }
  | false, [row, column], 'H' => { s with column := column - 1, row := row - 1 }
  | _, _, _ => s

def next (s : Screen) (c : Char) : Screen :=
  match s.mode with
  | .ground =>
    if c = '\x1b' then { s with mode := .escape }
    else if c < ' ' then s
    else s.put c
  | .escape => { s with mode := if c = '[' then .control false [] 0 else .ground }
  | .control marked parameters current =>
    if c.isDigit then
      { s with mode := .control marked parameters (10 * current + (c.toNat - '0'.toNat)) }
    else if c = ';' then { s with mode := .control marked (parameters ++ [current]) 0 }
    else if c = '?' then { s with mode := .control true parameters current }
    else { s with mode := .ground }.carryOut marked (parameters ++ [current]) c

def read (s : Screen) (text : String) : Screen :=
  text.toList.foldl next s

def readPiece (s : Screen) (piece : Piece) : Screen :=
  s.read piece.text

theorem read_append (s : Screen) (before after : String) :
    s.read (before ++ after) = (s.read before).read after := by
  simp only [read, String.toList_append, List.foldl_append]

/-- A text that is put together from pieces is read piece by piece. -/
theorem read_textOf (s : Screen) (pieces : Array Piece) :
    s.read (Piece.textOf pieces) = pieces.toList.foldl readPiece s := by
  have hfold (ps : List Piece) (text : String) :
      s.read (ps.foldl (fun text piece => text ++ piece.text) text) =
        ps.foldl readPiece (s.read text) := by
    induction ps generalizing text with
    | nil => rfl
    | cons p ps ih => rw [List.foldl_cons, ih, read_append, List.foldl_cons, readPiece]
  rw [Piece.textOf, ← Array.foldl_toList, hfold]
  rfl

/-! ## Single pieces -/

variable {s : Screen}

theorem next_digit {marked : Bool} {parameters : List Nat} {current : Nat} {c : Char}
    (h : s.mode = .control marked parameters current) (hc : c.isDigit = true) :
    s.next c =
      { s with mode := .control marked parameters (10 * current + (c.toNat - '0'.toNat)) } := by
  simp only [next, h, if_pos hc]

theorem foldl_next_digits {marked : Bool} {parameters : List Nat} {current : Nat} {cs : List Char}
    (h : s.mode = .control marked parameters current) (hcs : ∀ c ∈ cs, c.isDigit = true) :
    cs.foldl next s =
      { s with mode := .control marked parameters (Nat.ofDigitChars 10 cs current) } := by
  induction cs generalizing s current with
  | nil => rw [List.foldl_nil, Nat.ofDigitChars_nil, ← h]
  | cons c cs ih =>
    rw [List.foldl_cons, next_digit h (hcs c (List.mem_cons_self ..)), Nat.ofDigitChars_cons]
    exact ih rfl fun c' h' => hcs c' (List.mem_cons_of_mem c h')

/-- The digits of a number are read as the number. -/
theorem readPiece_number {marked : Bool} {parameters : List Nat} (n : Nat)
    (h : s.mode = .control marked parameters 0) :
    s.readPiece (.number n) = { s with mode := .control marked parameters n } := by
  have htext : (Piece.number n).text.toList = Nat.toDigits 10 n := by
    rw [Piece.text, Nat.toString_eq_repr, Nat.toList_repr]
  have hdigits : ∀ c ∈ Nat.toDigits 10 n, c.isDigit = true := fun c hc =>
    Nat.isDigit_of_mem_toDigits (by decide) (by decide) hc
  rw [readPiece, read, htext, foldl_next_digits h hdigits, Nat.ofDigitChars_ten_toDigits]

/-- A movement is read as a movement, whatever number of digits it takes. -/
theorem read_moveTo (h : s.mode = .ground) (x y : Nat) :
    (Piece.moveTo x y).foldl readPiece s = { s with column := x, row := y } := by
  have hintroducer : s.readPiece .introducer = { s with mode := .control false [] 0 } := by
    simp [readPiece, read, Piece.text, next, h]
  have hrow := readPiece_number (s := { s with mode := .control false [] 0 }) (y + 1) rfl
  have hcolumn :=
    readPiece_number (s := { s with mode := .control false [y + 1] 0 }) (x + 1) rfl
  have hseparator : ({ s with mode := .control false [] (y + 1) } : Screen).readPiece .separator =
      { s with mode := .control false [y + 1] 0 } := by
    simp [readPiece, read, Piece.text, next]
  have hmove : ({ s with mode := .control false [y + 1] (x + 1) } : Screen).readPiece .move =
      { s with column := x, row := y } := by
    simp [readPiece, read, Piece.text, next, carryOut, h]
  simp only [Piece.moveTo, List.foldl_cons, List.foldl_nil, hintroducer, hrow, hseparator, hcolumn,
    hmove]

theorem readPiece_cell (h : s.mode = .ground) (lit : Bool) :
    s.readPiece (.cell lit) = s.put (if lit then '#' else ' ') := by
  cases lit <;> simp [readPiece, read, Piece.text, next, h]

theorem readPiece_clear (h : s.mode = .ground) :
    s.readPiece .clear = { s with cell := fun _ _ => ' ' } := by
  simp [readPiece, read, Piece.text, next, carryOut, h]

theorem readPiece_bell (h : s.mode = .ground) : s.readPiece .bell = s := by
  simp [readPiece, read, Piece.text, next, h]

/-- The mode switches before the first picture write no cell. -/
theorem read_prepare (h : s.mode = .ground) :
    Piece.prepare.foldl readPiece s = { s with cell := fun _ _ => ' ' } := by
  have hground : { s with mode := .ground } = s := by rw [← h]
  have halternate : s.readPiece .enterAlternate = s := by
    simp [readPiece, read, Piece.text, next, carryOut, h, hground]
  have hcursor : s.readPiece .hideCursor = s := by
    simp [readPiece, read, Piece.text, next, carryOut, h, hground]
  simp only [Piece.prepare, List.foldl_cons, List.foldl_nil, halternate, hcursor,
    readPiece_clear h]

/-! ## Pictures -/

/-- The screen shows a display: a mark in the cell of each lit pixel, and a blank in every other
cell. No control sequence is under way. -/
structure Shows (s : Screen) (d : Display) : Prop where
  mode : s.mode = .ground
  cell : ∀ x y, s.cell x y = if d.lit x y then '#' else ' '

variable {d : Display}

theorem shows_prepare (h : s.mode = .ground) : (Piece.prepare.foldl readPiece s).Shows .dark := by
  rw [read_prepare h]
  exact ⟨h, fun x y => by simp⟩

theorem Shows.clear (h : s.Shows d) : (s.readPiece .clear).Shows .dark := by
  rw [readPiece_clear h.mode]
  exact ⟨h.mode, fun x y => by simp⟩

theorem Shows.bell (h : s.Shows d) : (s.readPiece .bell).Shows d := by
  rw [readPiece_bell h.mode]
  exact h

/-- One pixel changes, and only its cell is written. -/
theorem Shows.dot (h : s.Shows d) {dot : Dot} (hx : dot.x < 64) (hy : dot.y < 32) :
    ((Piece.dot dot).foldl readPiece s).Shows (d.put dot.x dot.y dot.lit) := by
  have hread : (Piece.dot dot).foldl readPiece s =
      ({ s with column := dot.x, row := dot.y } : Screen).put (if dot.lit then '#' else ' ') := by
    rw [Piece.dot, List.foldl_append, read_moveTo h.mode]
    exact readPiece_cell (s := { s with column := dot.x, row := dot.y }) h.mode dot.lit
  rw [hread]
  refine ⟨h.mode, fun x y => ?_⟩
  rw [Display.lit_put _ hx hy]
  change (if x = dot.x ∧ y = dot.y then _ else s.cell x y) = _
  by_cases hplace : x = dot.x ∧ y = dot.y
  · rw [if_pos hplace, if_pos hplace]
  · rw [if_neg hplace, if_neg hplace, h.cell]

end Screen
end Chip8
