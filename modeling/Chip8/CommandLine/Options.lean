import Chip8.Console
import Chip8.Keymap
import Chip8.CommandLine.PlainText

/-!
# Options of the program

The program takes the name of a file and options for the speed, the dialect and the keymap, or it is
asked for its help or its version. Arguments that make no sense are refused with a sentence.
-/
namespace Chip8.CommandLine

/-- What a run of a program needs to know. -/
structure Options where
  /-- The name of the program's file. -/
  file : String
  /-- Instructions per second. -/
  frequency : Nat := defaultFrequency
  /-- The dialect of the later interpreters. -/
  superChip : Bool := false
  keymap : Keymap := .conventional
deriving DecidableEq, Repr

def Options.dialect (o : Options) : Dialect :=
  if o.superChip then .superChip else .cosmac

/-- What the arguments ask for. -/
inductive Command where
  | play (options : Options)
  | help
  | version
deriving DecidableEq, Repr

/-- The options that take a value. -/
inductive Setting where
  | frequency
  | keymap
deriving DecidableEq, Repr

def Setting.label : Setting → String
  | frequency => "--freq <FREQ>"
  | keymap => "--keymap <KEYMAP>"

inductive UsageError where
  /-- An option stands without its value. -/
  | missingValue (setting : Setting)
  /-- An option stands twice. -/
  | repeated (label : String)
  /-- Nothing takes this argument. -/
  | unexpectedArgument (text : String)
  /-- A value stands with an option that takes none. -/
  | unexpectedValue (value label : String)
  /-- An option does not take this value. -/
  | invalidValue (value : String) (setting : Setting) (reason : Option String)
  /-- There is no file. -/
  | missingFile
deriving DecidableEq, Repr

namespace UsageError

/-- The sentence that explains why the arguments are refused. It shows a part of the arguments as
plain text. -/
def sentence : UsageError → String
  | missingValue setting => s!"a value is required for '{setting.label}' but none was supplied"
  | repeated label => s!"the argument '{label}' cannot be used multiple times"
  | unexpectedArgument text => s!"unexpected argument '{plainText text}' found"
  | unexpectedValue value label =>
    s!"unexpected value '{plainText value}' for '{label}' found; no more were expected"
  | invalidValue value setting none => s!"invalid value '{plainText value}' for '{setting.label}'"
  | invalidValue value setting (some reason) =>
    s!"invalid value '{plainText value}' for '{setting.label}': {reason}"
  | missingFile => "the following required arguments were not provided:"

/-- The first line that the program prints. -/
def message (e : UsageError) : String :=
  s!"error: {e.sentence}"

/-- What the program prints after the first line. -/
def details : UsageError → String
  | missingFile => "  <FILE>\n"
  | invalidValue _ .keymap _ | missingValue .keymap => "  [possible values: conventional, hex]\n"
  | _ => ""

end UsageError
end Chip8.CommandLine
