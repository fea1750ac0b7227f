import Chip8.Word

/-!
# Keymaps

The keypad has sixteen keys, named by hexadecimal digits and laid out in a square of four by four. A
keymap says which character of a keyboard stands for each of them. The conventional one keeps the
square's shape on the left-hand side of a keyboard:

    1 2 3 C      1 2 3 4
    4 5 6 D      q w e r
    7 8 9 E      a s d f
    A 0 B F      z x c v
-/
namespace Chip8

/-- How the characters of a keyboard stand for keys. -/
inductive Keymap where
  /-- A block of keys in the shape of the keypad. -/
  | conventional
  /-- The digit that names the key. -/
  | hex
deriving DecidableEq, Repr

namespace Keymap

def all : List Keymap := [conventional, hex]

/-- The character of each key, in the order of the keys. -/
def chars : Keymap → Vector Char 16
  | conventional =>
    #v['x', '1', '2', '3', 'q', 'w', 'e', 'a', 's', 'd', 'z', 'c', '4', 'r', 'f', 'v']
  | hex =>
    #v['0', '1', '2', '3', '4', '5', '6', '7', '8', '9', 'a', 'b', 'c', 'd', 'e', 'f']

/-- The key that a character stands for. The case of the letters A to Z does not matter; other
characters are taken as they are. -/
def keyOf (keymap : Keymap) (c : Char) : Option Key :=
  (List.finRange 16).find? fun key => keymap.chars.get key == c.toLower

def name : Keymap → String
  | conventional => "conventional"
  | hex => "hex"

structure UnknownName where
  text : String
deriving DecidableEq, Repr

def UnknownName.message (e : UnknownName) : String :=
  s!"invalid variant: {e.text}"

/-- The keymap with a given name, in which the case of the letters A to Z may not matter. -/
def ofName (text : String) (ignoreCase : Bool) : Except UnknownName Keymap :=
  let fold (s : String) : String := if ignoreCase then s.map Char.toLower else s
  match all.find? fun keymap => fold keymap.name == fold text with
  | some keymap => .ok keymap
  | none => .error ⟨text⟩

end Keymap
end Chip8
