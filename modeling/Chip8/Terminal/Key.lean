import Chip8.Keymap

/-!
# Keys of a terminal

A terminal reports key presses and, now and then, the mouse or the place of its cursor. A press of
Escape or of Control and C asks to stop; a press of a character stands for the key that the keymap
gives it, whatever modifiers go with it; every other press means nothing.
-/
namespace Chip8

inductive KeyPress where
  /-- A character, and whether Control was held. -/
  | char (c : Char) (control : Bool)
  | escape
  /-- A key without a character, such as an arrow. -/
  | other
deriving DecidableEq, Repr

inductive InputEvent where
  | key (press : KeyPress)
  /-- Something that the mouse did. -/
  | mouse
  /-- Where the cursor is. Nobody asks for it, and a look at the keyboard ends there. -/
  | cursor
deriving DecidableEq, Repr

namespace KeyPress

def asksToQuit : KeyPress → Bool
  | escape => true
  | char c control => control && c == 'c'
  | other => false

def key? (press : KeyPress) (keymap : Keymap) : Option Key :=
  match press with
  | char c _ => if press.asksToQuit then none else keymap.keyOf c
  | _ => none

@[simp] theorem key?_of_asksToQuit {press : KeyPress} (h : press.asksToQuit = true)
    (keymap : Keymap) : press.key? keymap = none := by
  cases press <;> simp_all [key?]

end KeyPress
end Chip8
