import Chip8.Terminal.Reading

/-!
# Reading a terminal's keyboard

`Keyboard` is the input side of a terminal. Bytes arrive from one look at the keyboard to the next.
A look takes one block of them, of a limited size, and gathers them until they are a report or
cannot become one any more; it goes on to the next block only if there was no report in the one
before. Bytes that are left after a look stay where they are until more arrive.
-/
namespace Chip8

def blockSize : Nat := 1204

/-- The input side of a terminal. -/
structure Keyboard where
  /-- Reports that have not been taken, oldest first. -/
  events : List InputEvent := []
  /-- The bytes of an unfinished report. -/
  partialReport : List Byte := []
  /-- Bytes that the last look left. -/
  unread : List Byte := []
  /-- The bytes that arrive before each look at the keyboard; after the last look nothing
  arrives. -/
  arrivals : List (List Byte) := []
  /-- Whether a wait found that nothing arrives any more. -/
  starved : Bool := false

namespace Keyboard

/-- Let bytes arrive before the next look, after those that arrive before it anyway. -/
def type (k : Keyboard) (bytes : List Byte) : Keyboard :=
  match k.arrivals with
  | [] => { k with arrivals := [bytes] }
  | chunk :: later => { k with arrivals := (chunk ++ bytes) :: later }

structure Harvest where
  events : List InputEvent := []
  partialReport : List Byte := []
  unread : List Byte := []

/-- Read bytes after those of an unfinished report. The current block has room for `room` more
bytes, and `found` tells whether it held a report so far. Bytes arrive together if they are in one
block; after a full block more are expected. -/
def read (room : Nat) (found : Bool) (held : List Byte) : List Byte → Harvest
  | [] => { partialReport := held }
  | b :: rest =>
    if room = 0 ∧ found then { partialReport := held, unread := b :: rest }
    else
      let room := if room = 0 then blockSize else room
      match Reading.ofBytes (!rest.isEmpty || room == 1) (held ++ [b]) with
      | .incomplete => read (room - 1) found (held ++ [b]) rest
      | .dropped => read (room - 1) found [] rest
      | .event e =>
        let harvest := read (room - 1) true [] rest
        { harvest with events := e :: harvest.events }

/-- Look at the keyboard. Only bytes that have arrived since the last look make it read, and it
reads those that the last look left before them. -/
def look (k : Keyboard) : Keyboard :=
  match k.arrivals with
  | [] => k
  | [] :: later => { k with arrivals := later }
  | chunk :: later =>
    let harvest := read blockSize false k.partialReport (k.unread ++ chunk)
    { k with
      events := k.events ++ harvest.events
      partialReport := harvest.partialReport
      unread := harvest.unread
      arrivals := later }

/-- Take the reports that have arrived, up to the first that is about the cursor. That one is lost,
and what comes after it is left for the next time. -/
def drain (k : Keyboard) : List InputEvent × Keyboard :=
  let k := if k.events.contains .cursor then k else k.look
  (k.events.takeWhile (· ≠ .cursor),
    { k with events := (k.events.dropWhile (· ≠ .cursor)).drop 1 })

end Keyboard
end Chip8
