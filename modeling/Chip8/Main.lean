import Chip8.CommandLine.Program

/-!
# Running the program

The outer layer of the program: it reads the file, the keyboard and the clock, and writes what the
run shows. A thread gathers the bytes of standard input, which a caller should have put into raw
mode; the process ends when that thread sees one more byte or the end of the input. A batch that
waits for a key that has not been typed is taken again, from the same console, once more bytes have
arrived.
-/
namespace Chip8.CommandLine

/-- The bytes typed and not yet taken, and whether the input has ended. -/
structure Typed where
  bytes : List Byte := []
  ended : Bool := false

/-- Gather the bytes of a stream until it ends, one by one, so that none waits for a later one. -/
partial def listen (input : IO.FS.Stream) (typed : IO.Ref Typed) : IO Unit := do
  let bytes ← input.read 1
  if bytes.isEmpty then
    typed.modify fun t => { t with ended := true }
  else
    typed.modify fun t => { t with bytes := t.bytes ++ bytes.toList }
    listen input typed

def takeTyped (typed : IO.Ref Typed) : IO (List Byte) :=
  typed.modifyGet fun t => (t.bytes, { t with bytes := [] })

/-- Wait for bytes and take them; there are none if the input has ended. -/
partial def awaitTyped (typed : IO.Ref Typed) : IO (Option (List Byte)) := do
  let t ← typed.get
  if !t.bytes.isEmpty then
    return some (← takeTyped typed)
  else if t.ended then
    return none
  else
    IO.sleep 5
    awaitTyped typed

/-- Write what has reached the terminal after the first `seen` pieces, and count them all. -/
def writeShown (t : Terminal) (seen : Nat) : IO Nat := do
  let shown := t.output.shown
  if seen < shown.size then
    let output ← IO.getStdout
    output.putStr (Piece.textOf (shown.extract seen shown.size))
    output.flush
  return shown.size

/-- The console with more bytes arriving at the keyboard. -/
def withKeyboard (c : Console Terminal) (f : Keyboard → Keyboard) : Console Terminal :=
  { c with frontend := { c.frontend with keyboard := f c.frontend.keyboard } }

/-- Take a batch of steps, and take it again while it waits for bytes that have not arrived. -/
partial def liveBatch (n : Nat) (typed : IO.Ref Typed) (seen : Nat) (c : Console Terminal) :
    IO (Nat × Console Terminal × Option Ending) := do
  let (after, ending) := Console.batch n c
  let seen ← writeShown after.frontend seen
  if after.frontend.keyboard.starved then
    match ← awaitTyped typed with
    | some bytes =>
      liveBatch n typed seen (withKeyboard c fun k => { k with arrivals := k.arrivals ++ [bytes] })
    | none => return (seen, after, ending)
  else
    return (seen, after, ending)

def frameNanos : Nat := 1000000000 / 60

/-- The report on a run that has ended, or none ever if the timers cannot catch up. -/
partial def settleUp (c : Console Terminal) (ending : Ending) : IO Report :=
  match conclude c ending with
  | some report => return report
  | none => do
    IO.sleep 1000
    settleUp c ending

/-- Run round after round, the last of which ended at the time `last`, until the run ends. -/
partial def liveRun (n : Nat) (typed : IO.Ref Typed) (seen last : Nat) (c : Console Terminal) :
    IO Report := do
  let bytes ← takeTyped typed
  let (seen, c, ending) ← liveBatch n typed seen (withKeyboard c (·.type bytes))
  if let some ending := ending then
    return ← settleUp c ending
  let spent := (← IO.monoNanosNow) - last
  IO.sleep (UInt32.ofNat ((frameNanos - spent) / 1000000))
  let now ← IO.monoNanosNow
  let bytes ← takeTyped typed
  let (c, ending) := Console.frame (Float.ofNat (now - last) / 1e9) (withKeyboard c (·.type bytes))
  let seen ← writeShown c.frontend seen
  match ending with
  | some ending => settleUp c ending
  | none => liveRun n typed seen now c

/-- The number of an error, which some operations report with its sign changed. -/
def errorNumber (code : UInt32) : Nat :=
  min code.toNat (0x100000000 - code.toNat)

def osError : IO.Error → OsError
  | .noFileOrDirectory _ code _ => ⟨"No such file or directory", errorNumber code⟩
  | .permissionDenied _ code _ => ⟨"Permission denied", errorNumber code⟩
  | .alreadyExists _ code details | .otherError code details | .resourceBusy code details
  | .resourceVanished code details | .unsupportedOperation code details
  | .hardwareFault code details | .unsatisfiedConstraints code details
  | .illegalOperation code details | .protocolError code details | .timeExpired code details
  | .interrupted _ code details | .invalidArgument _ code details
  | .resourceExhausted _ code details | .inappropriateType _ code details
  | .noSuchThing _ code details => ⟨details, errorNumber code⟩
  | .unexpectedEof => ⟨"unexpected end of file", 0⟩
  | .userError text => ⟨text, 0⟩

def readBytes (name : String) : IO (Except OsError (List Byte)) := do
  try
    return .ok (← IO.FS.readBinFile name).toList
  catch e =>
    return .error (osError e)

/-- A stream of bytes from a seed: each is a mixture of the seed and its place in the stream. -/
def seededEntropy (seed : UInt64) : Entropy where
  stream n :=
    let z := seed + n.toUInt64 * 0x9e3779b97f4a7c15
    let z := (z ^^^ (z >>> 30)) * 0xbf58476d1ce4e5b9
    let z := (z ^^^ (z >>> 27)) * 0x94d049bb133111eb
    (z ^^^ (z >>> 31)).toUInt8

def livePlay (options : Options) : IO Report := do
  let contents ← readBytes options.file
  let seed ← IO.getRandomBytes 8
  let entropy := seededEntropy (seed.foldl (fun n b => n * 256 + b.toUInt64) 0)
  match prepare options contents entropy with
  | .error report => return report
  | .ok machine =>
    let typed ← IO.mkRef ({} : Typed)
    let _ ← IO.asTask (listen (← IO.getStdin) typed) Task.Priority.dedicated
    let c := seat options machine {}
    let seen ← writeShown c.frontend 0
    liveRun (batchSize options.frequency) typed seen (← IO.monoNanosNow) c

def live (arguments : List String) : IO Report :=
  match parse arguments with
  | .error e => return refuse e
  | .ok .help => return { output := helpText }
  | .ok .version => return { output := versionText }
  | .ok (.play options) => livePlay options

end Chip8.CommandLine

/-- The entry point: the rest of the report is written, and its code is the exit code. -/
def main (arguments : List String) : IO UInt32 := do
  let report ← Chip8.CommandLine.live arguments
  IO.print report.output
  (← IO.getStdout).flush
  IO.eprint report.errors
  return UInt32.ofNat report.code
