import Chip8.Failure
import Chip8.Display

/-!
# Writing to a terminal

Everything that is written is cut into pieces, each of which is a control sequence, a part of one,
or a character. Pieces wait in a queue of limited size, and reach the terminal, in order, with the
next flush that succeeds. A piece that does not fit behind those that wait makes them all go first;
if they cannot, that piece is lost, and with it the rest of what was written with it. Whether the
terminal takes what it is sent is up to the terminal.
-/
namespace Chip8

/-- What is written at once. -/
inductive Piece where
  /-- Switch to the alternate screen. -/
  | enterAlternate
  /-- Switch back from the alternate screen. -/
  | leaveAlternate
  | hideCursor
  | showCursor
  /-- Blank the screen. -/
  | clear
  /-- The start of a movement of the cursor. -/
  | introducer
  /-- A row or a column of a movement. -/
  | number (n : Nat)
  /-- The mark between the row and the column of a movement. -/
  | separator
  /-- The end of a movement, which carries it out. -/
  | move
  /-- Write a cell at the cursor: a mark if it is lit, a blank otherwise. -/
  | cell (lit : Bool)
  | bell
deriving DecidableEq, Repr

namespace Piece

def text : Piece → String
  | enterAlternate => "\x1b[?1049h"
  | leaveAlternate => "\x1b[?1049l"
  | hideCursor => "\x1b[?25l"
  | showCursor => "\x1b[?25h"
  | clear => "\x1b[2J"
  | introducer => "\x1b["
  | number n => toString n
  | separator => ";"
  | move => "H"
  | cell lit => if lit then "#" else " "
  | bell => "\x07"

def size (p : Piece) : Nat :=
  p.text.utf8ByteSize

def textOf (pieces : Array Piece) : String :=
  pieces.foldl (fun text piece => text ++ piece.text) ""

def sizeOf (pieces : Array Piece) : Nat :=
  pieces.foldl (fun size piece => size + piece.size) 0

/-- The pieces that prepare the screen. -/
def prepare : List Piece := [enterAlternate, hideCursor, clear]

/-- The pieces that give the screen back. -/
def restore : List Piece := [showCursor, leaveAlternate]

/-- The pieces that move the cursor to a column and a row, counted from zero. They are written from
one on, the row first. -/
def moveTo (x y : Nat) : List Piece :=
  [introducer, number (y + 1), separator, number (x + 1), move]

def dot (d : Dot) : List Piece :=
  moveTo d.x d.y ++ [cell d.lit]

end Piece

structure Output where
  /-- Pieces that wait to be sent. -/
  queued : Array Piece := #[]
  /-- Pieces that have reached the terminal. -/
  shown : Array Piece := #[]
  /-- Flushes so far that had something to send. -/
  flushes : Nat := 0
  /-- The error of each of these flushes, if it fails. -/
  outcome : Nat → Option OsError := fun _ => none
  /-- Times so far that a piece did not fit. -/
  spills : Nat := 0
  /-- The error of sending what waited at each of these times, if it fails. -/
  spillOutcome : Nat → Option OsError := fun _ => none

namespace Output

/-- The bytes that can wait. -/
def capacity : Nat := 1024

/-- Queue a piece, after making room for it if there is none. -/
def push (o : Output) (piece : Piece) : Option OsError × Output :=
  if Piece.sizeOf o.queued + piece.size ≤ capacity then
    (none, { o with queued := o.queued.push piece })
  else
    match o.spillOutcome o.spills with
    | some cause => (some cause, { o with spills := o.spills + 1 })
    | none =>
      (none, { o with queued := #[piece], shown := o.shown ++ o.queued, spills := o.spills + 1 })

/-- Queue pieces until one is lost. -/
def queue (o : Output) : List Piece → Option OsError × Output
  | [] => (none, o)
  | piece :: rest =>
    match o.push piece with
    | (some cause, o) => (some cause, o)
    | (none, o) => o.queue rest

/-- Send what is queued; if that fails, it stays queued. With nothing queued there is nothing to
send, and nothing that could fail. -/
def flush (o : Output) : Option OsError × Output :=
  if o.queued.isEmpty then (none, o)
  else
    match o.outcome o.flushes with
    | some cause => (some cause, { o with flushes := o.flushes + 1 })
    | none =>
      (none, { o with queued := #[], shown := o.shown ++ o.queued, flushes := o.flushes + 1 })

/-- What has been written, whether it has reached the terminal or not. -/
def written (o : Output) : Array Piece :=
  o.shown ++ o.queued

/-- A piece that is not lost stands after all that was written before it. -/
theorem written_push {o : Output} {piece : Piece} (h : (o.push piece).1 = none) :
    (o.push piece).2.written = o.written.push piece := by
  revert h
  rw [push]
  split
  · intro _
    simp [written]
  · split
    · intro h
      cases h
    · intro _
      simp [written]

/-- Pieces none of which is lost stand in order after all that was written before them. -/
theorem written_queue {o : Output} {pieces : List Piece} (h : (o.queue pieces).1 = none) :
    (o.queue pieces).2.written = o.written ++ pieces := by
  induction pieces generalizing o with
  | nil => simp [queue]
  | cons piece rest ih =>
    rw [queue] at h ⊢
    have written := @written_push o piece
    cases pushed : o.push piece with
    | mk lost after =>
      rw [pushed] at h written
      cases lost with
      | some cause => cases h
      | none =>
        rw [ih h, written rfl]
        simp

@[simp] theorem written_flush (o : Output) : o.flush.2.written = o.written := by
  rw [flush]
  split
  · rfl
  · split <;> simp [written]

end Output
end Chip8
