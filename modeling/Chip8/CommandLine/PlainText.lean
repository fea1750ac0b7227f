/-!
# Text without control sequences

A text from outside can hold control sequences that would move the cursor or recolour the screen
when it is printed. `plainText` leaves out these sequences and every other control character but the
blank ones, as a terminal would read them: the escape character starts a sequence, which ends with a
letter or another final character, and some sequences hold a string, which ends with a terminator of
its own.
-/
namespace Chip8.CommandLine

/-- Where a character stands. -/
inductive Place where
  /-- Outside of any sequence. -/
  | text
  /-- After the escape character. -/
  | escape
  /-- After the escape character and a sign. -/
  | escapeSign
  /-- In the parameters after an opening bracket. -/
  | parameters
  /-- In a command to the system, which a bell ends. -/
  | command
  /-- At the start of a device control string. -/
  | device
  /-- In the parameters of a device control string. -/
  | deviceParameters
  /-- After the parameters of a device control string. -/
  | deviceSign
  /-- In a string that only a terminator ends. -/
  | string
deriving DecidableEq, Repr

namespace Place

def within (low high : Nat) (c : Char) : Bool :=
  low ≤ c.toNat && c.toNat ≤ high

def isBlankControl (c : Char) : Bool :=
  c = '\t' || c = '\n' || c = '\x0c' || c = '\r'

/-- Whether a character ends a string: its encoding holds the byte of the string terminator. -/
def endsString (c : Char) : Bool :=
  (String.utf8EncodeChar c).contains 0x9c

/-- The place after a character that follows the escape character. -/
def afterEscape (c : Char) : Place :=
  if within 0x20 0x2f c then escapeSign
  else if c = '[' then parameters
  else if c = ']' then command
  else if c = 'P' then device
  else if c = 'X' || c = '^' || c = '_' then string
  else if within 0x30 0x7e c then text
  else escape

/-- The place after a character, unless that character starts a sequence or breaks one off. -/
def next (place : Place) (c : Char) : Place :=
  match place with
  | text => text
  | escape => if isBlankControl c then text else afterEscape c
  | escapeSign => if isBlankControl c || within 0x30 0x7e c then text else escapeSign
  | parameters => if isBlankControl c || within 0x40 0x7e c then text else parameters
  | command => if c = '\x07' then text else command
  | device =>
    if within 0x20 0x2f c then deviceSign
    else if c = ':' || within 0x40 0x7e c then string
    else if within 0x30 0x3f c then deviceParameters
    else device
  | deviceParameters =>
    if within 0x20 0x2f c then deviceSign
    else if c = ':' || within 0x3c 0x7e c then string
    else deviceParameters
  | deviceSign => if within 0x30 0x7e c then string else deviceSign
  | string => if endsString c then text else string

/-- The place after any character: the escape character starts a sequence, and two others break one
off. -/
def after (place : Place) (c : Char) : Place :=
  if c = '\x1b' then escape
  else if c = '\x18' || c = '\x1a' then text
  else place.next c

/-- Whether a character is kept: outside of a sequence, all but control characters, and blank ones
also in the sequences that they break off. -/
def keeps (place : Place) (c : Char) : Bool :=
  match place with
  | text => isBlankControl c || (0x20 ≤ c.toNat && c.toNat ≠ 0x7f)
  | escape | escapeSign | parameters => isBlankControl c
  | _ => false

/-- The characters that are kept, from a place on. -/
def plain (place : Place) : List Char → List Char
  | [] => []
  | c :: rest =>
    if place.keeps c then c :: plain (place.after c) rest else plain (place.after c) rest

end Place

def plainText (s : String) : String :=
  String.ofList (Place.text.plain s.toList)

end Chip8.CommandLine
