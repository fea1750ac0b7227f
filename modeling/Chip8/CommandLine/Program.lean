import Chip8.CommandLine.Arguments
import Chip8.Machine.Snapshot
import Chip8.Terminal.Basic

/-!
# The program

The program reads a file, runs it on a terminal and reports how the run ended. A `Report` is all
that can be seen of a run from outside: the text written to standard output and to standard error,
and the exit code. `execute` gives the report as a function of everything that the run depends on:
the arguments, the files, the bytes that the user types, the random bytes and the seconds of each
round.
-/
namespace Chip8.CommandLine

/-- What a run of the program leaves behind. -/
structure Report where
  /-- The text on standard output. -/
  output : String := ""
  /-- The text on standard error. -/
  errors : String := ""
  /-- The exit code. -/
  code : Nat := 0
deriving DecidableEq, Repr

/-- The text of an error and, if it is known, of its cause. -/
def complaint (problem : String) : (cause : Option String) → String
  | none => s!"Error: {problem}\n"
  | some cause => s!"Error: {problem}\n\nCaused by:\n    {cause}\n"

def usage : String :=
  "Usage: chip8vm [OPTIONS] <FILE>"

def helpLines : List String :=
  [usage, "",
    "Arguments:",
    "  <FILE>", "",
    "Options:",
    "  -f, --freq <FREQ>      Instructions per second [default: 540]",
    "  -s                     S-CHIP semantics (affects shift, load/store instructions)",
    "  -k, --keymap <KEYMAP>  [default: conventional] [possible values: conventional, hex]",
    "  -h, --help             Print help",
    "  -V, --version          Print version"]

def helpText : String :=
  String.join (helpLines.map (· ++ "\n"))

def versionText : String :=
  "chip8vm 0.1.0\n"

def refuse (e : UsageError) : Report where
  errors := s!"{e.message}\n{e.details}\n{usage}\n\nFor more information, try '--help'.\n"
  code := 2

/-- The machine that the options ask for, with the contents of the file as its program; or the
report on why there is none. -/
def prepare (options : Options) (contents : Except OsError (List Byte)) (entropy : Entropy) :
    Except Report Machine :=
  match contents with
  | .error e =>
    .error { errors := complaint s!"could not open {options.file}" e.message, code := 1 }
  | .ok program =>
    match Machine.boot options.dialect entropy program with
    | .ok machine => .ok machine
    | .error e =>
      .error { errors := complaint s!"could not load {options.file}" e.message, code := 1 }

/-- The machine on a terminal with its screen prepared. -/
def seat (options : Options) (machine : Machine) (keyboard : Keyboard) : Console Terminal :=
  ⟨machine, Terminal.enter options.keymap keyboard⟩

/-- The report on a program that had to be broken off. -/
def breakOff (output problem : String) : Report where
  output := output
  errors := complaint problem none
  code := 101

def reportHalt (output : String) (m : Machine) (cause : Fault) : Report :=
  match Machine.dump.run m with
  | .ok snapshot _ =>
    { output := s!"{output}{snapshot.text}\n"
      errors := complaint s!"machine halted: {cause.message}" none
      code := 1 }
  | .error stop _ => breakOff output stop.message

/-- What is left to write when a run has ended, and the exit code. Nothing is reported while the
timers still try to catch up. -/
def conclude (c : Console Terminal) (ending : Ending) : Option Report :=
  let restored := Piece.textOf c.frontend.leave
  match ending with
  | .quit => some { output := restored }
  | .halted cause => some (reportHalt restored c.machine cause)
  | .failed cause => some
    { output := restored
      errors := complaint cause.message (cause.cause?.map OsError.message)
      code := 1 }
  | .violated cause => some (breakOff restored cause.message)
  | .overslept => none

/-- Run a program; there is no report if the run outlasts the rounds or never comes to an end. -/
def play (options : Options) (contents : Except OsError (List Byte)) (entropy : Entropy)
    (keyboard : Keyboard) (durations : List Float) : Option Report :=
  match prepare options contents entropy with
  | .error report => some report
  | .ok machine => do
    let (c, ending) := (seat options machine keyboard).run (batchSize options.frequency) durations
    let report ← conclude c (← ending)
    return { report with output := Piece.textOf c.frontend.output.shown ++ report.output }

def execute (arguments : List String) (files : String → Except OsError (List Byte))
    (entropy : Entropy) (keyboard : Keyboard) (durations : List Float) : Option Report :=
  match parse arguments with
  | .error e => some (refuse e)
  | .ok .help => some { output := helpText }
  | .ok .version => some { output := versionText }
  | .ok (.play options) => play options (files options.file) entropy keyboard durations

end Chip8.CommandLine
