/-!
# Failures of a front end

A front end can fail at its own work, apart from any fault of the program that runs. A failure of
the operating system comes with its text and its number.
-/
namespace Chip8

structure OsError where
  text : String
  code : Nat
deriving DecidableEq, Repr

/-- The text of an error with its number. -/
def OsError.message (e : OsError) : String :=
  s!"{e.text} (os error {e.code})"

/-- Why a front end cannot go on. -/
inductive Failure where
  /-- Reading from or writing to the terminal failed. -/
  | io (cause : OsError)
  /-- The window failed, for a reason that its library gives. -/
  | window (reason : String)
deriving DecidableEq, Repr

namespace Failure

def message : Failure → String
  | io _ => "terminal i/o failed"
  | window reason => s!"sdl: {reason}"

/-- The error behind the failure, if it is known. -/
def cause? : Failure → Option OsError
  | io cause => some cause
  | window _ => none

end Failure
end Chip8
