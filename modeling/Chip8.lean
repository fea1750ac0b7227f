import Chip8.Word
import Chip8.Hex
import Chip8.Instruction.RoundTrip
import Chip8.Machine.Step
import Chip8.Machine.Snapshot
import Chip8.Recorder
import Chip8.Console
import Chip8.Frontend.Scripted
import Chip8.Keymap
import Chip8.Terminal.Basic
import Chip8.CommandLine.Program
import Chip8.Main
import Chip8.Proofs.Safety
import Chip8.Proofs.Atomicity
import Chip8.Proofs.Taxonomy
import Chip8.Proofs.Drawing
import Chip8.Proofs.Replay
import Chip8.Proofs.Picture
import Chip8.Proofs.Doubles
import Chip8.Proofs.Seconds
import Chip8.Proofs.Account
import Chip8.Proofs.CallStack
import Chip8.Proofs.Footprint
import Chip8.Proofs.Walk
import Chip8.Proofs.Dialects
import Chip8.Proofs.Agreement
import Chip8.Proofs.Frequency
import Chip8.Proofs.Stopping
import Chip8.Proofs.Presentation
import Chip8.Proofs.Surfacing
import Chip8.Proofs.Report
import Chip8.Proofs.Integers
import Chip8.Proofs.Redrawing
import Chip8.Proofs.Painting
import Chip8.Proofs.Unread
import Chip8.Proofs.StraightLine
import Chip8.Proofs.Postmortem
import Chip8.Proofs.SavedRegisters
import Chip8.Proofs.Rereading
import Chip8.Proofs.Waiting
import Chip8.Proofs.Holding
import Chip8.Proofs.Latches
import Chip8.Proofs.Loading
import Chip8.Proofs.Countdown
