import Chip8.CommandLine.Integer
import Chip8.CommandLine.Options

/-!
# Reading arguments

Arguments are read from left to right. One that starts with two hyphens is a long option, whose
value may follow an equals sign; one that starts with a single hyphen is a row of short options, of
which the last may have its value attached; after two hyphens alone there are only file names. An
option without an attached value waits for the next argument that is no option, and its value is
looked at when the wait is over. The first argument that makes no sense decides the error.
-/
namespace Chip8.CommandLine

/-- What the arguments so far have settled. -/
structure Draft where
  file : Option String := none
  frequency : Option Nat := none
  keymap : Option Keymap := none
  superChip : Bool := false
  /-- The option that waits for a value, or has one that has not been looked at. -/
  waiting : Option (Setting × Option String) := none

/-- Whether reading goes on after an argument. -/
inductive Progress where
  | next (draft : Draft)
  | stop (command : Command)

namespace Draft

def parseFrequency (text : String) : Except UsageError Nat :=
  match Integer.parse text.toList with
  | .error e => .error (.invalidValue text .frequency (some e.message))
  | .ok n =>
    if 0 ≤ n ∧ n ≤ 4294967295 then .ok n.toNat
    else .error (.invalidValue text .frequency (some s!"{n} is not in 0..=4294967295"))

/-- The keymap that a text names; an empty text counts as no value. -/
def parseKeymap (text : String) : Except UsageError Keymap :=
  match Keymap.ofName text false with
  | .ok keymap => .ok keymap
  | .error _ =>
    if text.isEmpty then .error (.missingValue .keymap)
    else .error (.invalidValue text .keymap none)

def assign (d : Draft) (text : String) : Setting → Except UsageError Draft
  | .frequency => do
    if d.frequency.isSome then throw (.repeated Setting.frequency.label)
    return { d with frequency := ← parseFrequency text }
  | .keymap => do
    if d.keymap.isSome then throw (.repeated Setting.keymap.label)
    return { d with keymap := ← parseKeymap text }

def settle (d : Draft) : Except UsageError Draft :=
  match d.waiting with
  | none => .ok d
  | some (setting, none) => .error (.missingValue setting)
  | some (setting, some text) => { d with waiting := none }.assign text setting

/-- Take an option that has its value attached, or waits for it. -/
def take (d : Draft) (setting : Setting) (attached : Option String) : Except UsageError Draft := do
  let d ← d.settle
  match attached with
  | some text => d.assign text setting
  | none => pure { d with waiting := some (setting, none) }

/-- Choose the dialect of the later interpreters. -/
def takeSuperChip (d : Draft) : Except UsageError Draft := do
  let d ← d.settle
  if d.superChip then throw (.repeated "-s")
  pure { d with superChip := true }

def takeFile (d : Draft) (text : String) : Except UsageError Draft :=
  if d.file.isSome then .error (.unexpectedArgument text)
  else return { ← d.settle with file := some text }

/-- Take an argument that is no option as the value that is waited for, or else as the file. -/
def takeWord (d : Draft) (text : String) : Except UsageError Draft :=
  match d.waiting with
  | some (setting, none) => .ok { d with waiting := some (setting, some text) }
  | _ => d.takeFile text

/-- Stop for a command that takes no value. -/
def interrupt (d : Draft) (label : String) (attached : Option String) (command : Command) :
    Except UsageError Progress :=
  match attached with
  | some value => .error (.unexpectedValue value label)
  | none => do
    let _ ← d.settle
    pure (.stop command)

/-- Take a long option, given without its hyphens. -/
def takeLong (d : Draft) (name : String) (attached : Option String) :
    Except UsageError Progress :=
  match name with
  | "freq" => .next <$> d.take .frequency attached
  | "keymap" => .next <$> d.take .keymap attached
  | "help" => d.interrupt "--help" attached .help
  | "version" => d.interrupt "--version" attached .version
  | name => .error (.unexpectedArgument s!"--{name}")

/-- The value attached to a short option; an equals sign before it does not count. -/
def attachedTo : List Char → Option String
  | [] => none
  | '=' :: rest => some (String.ofList rest)
  | rest => some (String.ofList rest)

/-- Take a row of short options, given without its hyphen. -/
def takeShort (d : Draft) : List Char → Except UsageError Progress
  | [] => .ok (.next d)
  | 'f' :: rest => .next <$> d.take .frequency (attachedTo rest)
  | 'k' :: rest => .next <$> d.take .keymap (attachedTo rest)
  | 'h' :: _ => d.interrupt "--help" none .help
  | 'V' :: _ => d.interrupt "--version" none .version
  | 's' :: rest => do takeShort (← d.takeSuperChip) rest
  | c :: _ => .error (.unexpectedArgument s!"-{c}")

def takeArgument (d : Draft) (argument : String) : Except UsageError Progress :=
  match argument.toList with
  | '-' :: '-' :: rest =>
    let attached := match rest.dropWhile (· ≠ '=') with
      | [] => none
      | _ :: value => some (String.ofList value)
    d.takeLong (String.ofList (rest.takeWhile (· ≠ '='))) attached
  | '-' :: c :: rest => d.takeShort (c :: rest)
  | _ => .next <$> d.takeWord argument

/-- What the arguments ask for when there are no more. -/
def finish (d : Draft) : Except UsageError Command := do
  let d ← d.settle
  match d.file with
  | none => throw .missingFile
  | some file =>
    pure (.play
      { file
        frequency := d.frequency.getD defaultFrequency
        superChip := d.superChip
        keymap := d.keymap.getD .conventional })

/-- Read the arguments that are left; `plain` tells that there are no more options. -/
def read (plain : Bool) (d : Draft) : List String → Except UsageError Command
  | [] => d.finish
  | argument :: rest =>
    if plain then do read true (← d.takeFile argument) rest
    else if argument = "--" then read true d rest
    else do
      match ← d.takeArgument argument with
      | .next d => read false d rest
      | .stop command => pure command

end Draft

def parse (arguments : List String) : Except UsageError Command :=
  Draft.read false {} arguments

end Chip8.CommandLine
