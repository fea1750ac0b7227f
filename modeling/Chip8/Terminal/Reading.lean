import Chip8.Terminal.Key

/-!
# The reports of a terminal

Keys arrive as bytes. A printable character is its encoding in UTF-8, a character with Control is a
low byte, and the other keys are sequences that start with the escape byte. The escape byte alone is
the Escape key if nothing else has arrived with it, and before a character it stands for the Alt
key, which changes nothing. Some sequences report the mouse or the place of the cursor.

`Reading.ofBytes` tells what some bytes amount to: the report of an event, the start of one, or
nothing.
-/
namespace Chip8

/-- What some bytes amount to. -/
inductive Reading where
  /-- The start of a report. -/
  | incomplete
  /-- Nothing that a report could start with. -/
  | dropped
  /-- A whole report. -/
  | event (e : InputEvent)
deriving DecidableEq, Repr

namespace Reading

def otherKey : Reading := .event (.key .other)

def between (low high : Char) (b : Byte) : Bool :=
  low.toNat ≤ b.toNat && b.toNat ≤ high.toNat

/-! ## Characters -/

/-- The bytes of a character after one that starts with `lead`. -/
def continuationLength? (lead : Byte) : Option Nat :=
  if lead < 0x80 then some 0
  else if lead < 0xc0 then none
  else if lead < 0xe0 then some 1
  else if lead < 0xf0 then some 2
  else if lead < 0xf8 then some 3
  else none

def isContinuation (b : Byte) : Bool :=
  b &&& 0xc0 == 0x80

/-- The bytes of a character beyond ASCII. -/
def ofEncoded (lead : Byte) (rest : List Byte) : Reading :=
  match String.fromUTF8? ⟨(lead :: rest).toArray⟩ with
  | some text => (text.toList.head?.elim dropped fun c => .event (.key (.char c false)))
  | none =>
    match continuationLength? lead with
    | some n => if rest.all isContinuation && rest.length < n then incomplete else dropped
    | none => dropped

/-- The bytes of a character, or of a character with Control. -/
def ofCharacter (lead : Byte) (rest : List Byte) : Reading :=
  if lead = 0x00 ∨ lead = 0x09 ∨ lead = 0x0d ∨ lead = 0x7f then otherKey
  else if lead < 0x1b then .event (.key (.char (Char.ofNat (lead.toNat + 0x60)) true))
  else if lead < 0x20 then .event (.key (.char (Char.ofNat (lead.toNat + 0x18)) true))
  else if lead < 0x80 then .event (.key (.char (Char.ofNat lead.toNat) false))
  else ofEncoded lead rest

/-! ## Reports with parameters -/

/-- The number up to `limit` that some bytes write in decimal, with a plus sign or without. -/
def number? (limit : Nat) (bytes : List Byte) : Option Nat :=
  let digits := match bytes with
    | 0x2b :: rest => rest
    | _ => bytes
  let n := digits.foldl (fun n b => 10 * n + (b.toNat - '0'.toNat)) 0
  if !digits.isEmpty && digits.all (between '0' '9') && n ≤ limit then some n else none

/-- The parameters of a report, which are parted by semicolons; they are text, or there are none. -/
def fields (parameters : List Byte) : List (List Byte) :=
  if (String.fromUTF8? ⟨parameters.toArray⟩).isSome then parameters.splitOn 0x3b else []

/-- Whether a key has this number in reports that end with a tilde. -/
def isKeyNumber (n : Nat) : Bool :=
  (1 ≤ n && n ≤ 8) || (11 ≤ n && n ≤ 15) || (17 ≤ n && n ≤ 21) || (23 ≤ n && n ≤ 26)
    || (28 ≤ n && n ≤ 29) || (31 ≤ n && n ≤ 34)

/-- A key by its number; the parameters after the number do not count. -/
def ofKeyNumber : List (List Byte) → Reading
  | [] => dropped
  | number :: _ => if (number? 255 number).any isKeyNumber then otherKey else dropped

/-- Whether the mouse can do what a code stands for. The code has two low bits for a button or its
release, and two high bits that are zero, or one for the two directions of the wheel. -/
def isMouseCode (code : Nat) : Bool :=
  code / 64 = 0 || (code / 64 = 1 && code % 4 ≤ 1)

/-- A report of the mouse whose code is raised by `base`. -/
def ofMouseCode (base code : Nat) : Reading :=
  if base ≤ code && isMouseCode (code - base) then .event .mouse else dropped

/-- A report of the mouse: a code, a column and a row. -/
def ofMouse (base : Nat) : List (List Byte) → Reading
  | code :: column :: row :: _ =>
    match number? 255 code, number? 65535 column, number? 65535 row with
    | some code, some _, some _ => ofMouseCode base code
    | _, _, _ => dropped
  | _ => dropped

def ofCursor : List (List Byte) → Reading
  | row :: column :: _ =>
    if (number? 65535 row).isSome && (number? 65535 column).isSome then .event .cursor else dropped
  | _ => dropped

/-- Whether a report with parameters that ends like this is a press of a key with modifiers. -/
def endsKey (final : Byte) : Bool :=
  between 'A' 'D' final || between 'F' 'F' final || between 'H' 'H' final || between 'P' 'Q' final
    || between 'S' 'S' final

/-- A report with parameters, by its last byte. -/
def ofNumbered (parameters : List Byte) (final : Byte) : Reading :=
  if between '~' '~' final then ofKeyNumber (fields parameters)
  else if between 'M' 'M' final then ofMouse 32 (fields parameters)
  else if between 'R' 'R' final then ofCursor (fields parameters)
  else if endsKey final then otherKey
  else dropped

/-! ## Escape sequences -/

/-- The bytes after the escape byte, an opening bracket and a less-than sign. -/
def ofMarkedMouse (bytes : List Byte) : Reading :=
  match bytes.getLast? with
  | none => incomplete
  | some final =>
    if between 'M' 'M' final || between 'm' 'm' final then ofMouse 0 (fields bytes.dropLast)
    else incomplete

/-- The bytes after the escape byte and an opening bracket. -/
def ofBracket : List Byte → Reading
  | [] => incomplete
  | b :: rest =>
    if between 'A' 'D' b || between 'F' 'F' b || between 'H' 'H' b || between 'Z' 'Z' b then
      otherKey
    else if between '[' '[' b then
      match rest with
      | [] => incomplete
      | c :: _ => if between 'A' 'E' c then otherKey else dropped
    else if between 'M' 'M' b then
      match rest with
      | code :: _ :: _ :: _ => ofMouseCode 32 code.toNat
      | _ => incomplete
    else if between '<' '<' b then ofMarkedMouse rest
    else if between '0' '9' b then
      match rest.getLast? with
      | none => incomplete
      | some final =>
        if between '@' '~' final then ofNumbered (b :: rest.dropLast) final else incomplete
    else dropped

/-- The bytes after the escape byte and a capital O. -/
def ofFunction : List Byte → Reading
  | [] => incomplete
  | b :: _ => if between 'P' 'S' b then otherKey else dropped

/-- What some bytes amount to, if `more` tells whether further ones have arrived with them. -/
def ofBytes (more : Bool) : List Byte → Reading
  | [] => incomplete
  | 0x1b :: [] => if more then incomplete else .event (.key .escape)
  | 0x1b :: 0x1b :: _ => .event (.key .escape)
  | 0x1b :: b :: rest =>
    if between 'O' 'O' b then ofFunction rest
    else if between '[' '[' b then ofBracket rest
    else ofBytes more (b :: rest)
  | lead :: rest => ofCharacter lead rest

end Reading
end Chip8
