import Chip8.CommandLine.Program
import Chip8.Proofs.Loading
import Chip8.Proofs.Restoring
import Chip8.Proofs.Safety

/-!
# The report of the program

The program writes nothing if there is no file to run, or if the file is too long. Otherwise it
prepares the screen, runs the file on a terminal, and gives the screen back after all that was
drawn. If the machine halted, a snapshot of it follows, and the fault is told on standard error and
by the exit code.
-/
namespace Chip8

namespace Machine

variable {dialect : Dialect} {entropy : Entropy} {program : List Byte} {m : Machine}

/-- A program that fits is put into the memory of a new machine. -/
theorem boot_eq_ok : boot dialect entropy program = .ok m ↔
    program.length ≤ Memory.programRoom ∧
      { new dialect entropy with
        memory := Memory.initial.put Memory.programBase program } = m :=
  load_eq_ok

theorem reachable_of_boot (h : boot dialect entropy program = .ok m) :
    m.Reachable ∧ m.status = .running := by
  refine ⟨⟨[], .load (.new dialect entropy) h⟩, ?_⟩
  obtain ⟨-, rfl⟩ := boot_eq_ok.mp h
  rfl

theorem get_of_boot (h : boot dialect entropy program = .ok m) :
    (∀ i (hi : i < program.length), m.memory.get (Memory.programBase + i) = program[i]) ∧
      ∀ a < Memory.size, a < Memory.programBase ∨ Memory.programBase + program.length ≤ a →
        m.memory.get a = Memory.initial.get a := by
  have hloaded := loaded_of_load h
  exact ⟨hloaded.bytes, fun a _ hout => hloaded.around a hout⟩

end Machine

namespace CommandLine

variable {options : Options} {program : List Byte} {entropy : Entropy} {keyboard : Keyboard}
  {durations : List Float} {report : Report} {m : Machine} {c : Console Terminal}
  {ended : Option Ending}

/-- What the program leaves behind after it has run a file: the machine that it started with, the
console at the end of the run, what was drawn, and the text that was written after that. -/
structure Performance (options : Options) (program : List Byte) (entropy : Entropy)
    (keyboard : Keyboard) (durations : List Float) (report : Report) (m : Machine)
    (c : Console Terminal) (ending : Ending) (drawing : List Piece) (rest : String) : Prop where
  /-- The bytes of the file lie where programs start. -/
  loaded : ∀ i (hi : i < program.length), m.memory.get (Memory.programBase + i) = program[i]
  around : ∀ a < Memory.size, a < Memory.programBase ∨ Memory.programBase + program.length ≤ a →
    m.memory.get a = Memory.initial.get a
  new : m = { Machine.new options.dialect entropy with memory := m.memory }
  run : (seat options m keyboard).run (batchSize options.frequency) durations = (c, some ending)
  depicts : ∀ piece ∈ drawing, piece.depicts = true
  /-- All that the run has written comes between what prepares the screen and what gives it back. -/
  written : c.frontend.output.written.toList = Piece.prepare ++ drawing
  output : report.output =
    Piece.prepareText ++ Piece.textOf drawing.toArray ++ Piece.restoreText ++ rest
  /-- The screen is given back once. -/
  once : ∀ before after, report.output = before ++ Piece.restoreText ++ after →
    before = Piece.prepareText ++ Piece.textOf drawing.toArray ∧ after = rest
  /-- There is no other ending. -/
  ends : ending = .quit ∨ ∃ cause, ending = .halted cause
  quit : ending = .quit → rest = "" ∧ report.errors = "" ∧ report.code = 0
  halted : ∀ cause, ending = .halted cause →
    ∃ snapshot, Machine.dump.run c.machine = .ok snapshot c.machine ∧
      snapshot.fault = some cause ∧ rest = snapshot.text ++ "\n" ∧
      report.errors = "Error: machine halted: " ++ cause.message ++ "\n" ∧ report.code = 1

/-- What follows after the screen has been given back. -/
def epilogue (m : Machine) : Ending → String
  | .halted _ => m.snapshot.text ++ "\n"
  | _ => ""

theorem unmarked_epilogue (m : Machine) (ending : Ending) : Unmarked (epilogue m ending) := by
  have hnothing : Unmarked "" ∧ Unmarked "\n" := by decide
  cases ending with
  | halted cause => exact m.snapshot.unmarked_text.append hnothing.2
  | quit | failed cause | violated cause | overslept => exact hnothing.1

theorem conclude_halted (hdepth : c.machine.depth ≤ maxDepth) (cause : Fault) :
    conclude c (.halted cause) = some
      { output := Piece.textOf c.frontend.leave ++ c.machine.snapshot.text ++ "\n"
        errors := "Error: machine halted: " ++ cause.message ++ "\n"
        code := 1 } := by
  rw [conclude, reportHalt, Machine.run_dump hdepth]
  rfl

theorem output_conclude (hdepth : c.machine.depth ≤ maxDepth) {ending : Ending}
    (h : conclude c ending = some report) :
    report.output = Piece.textOf c.frontend.leave ++ epilogue c.machine ending := by
  cases ending with
  | halted cause =>
    rw [conclude_halted hdepth] at h
    cases h
    rw [epilogue, String.append_assoc]
  | quit | failed cause | violated cause =>
    cases h
    exact (String.append_empty ..).symm
  | overslept => cases h

/-- A file that fits is run, and there is a report if the run comes to an end. -/
theorem play_of_boot (hboot : Machine.boot options.dialect entropy program = .ok m)
    (hrun : (seat options m keyboard).run (batchSize options.frequency) durations = (c, ended)) :
    play options (.ok program) entropy keyboard durations =
      (ended.bind (conclude c)).map fun report =>
        { report with output := Piece.textOf c.frontend.output.shown ++ report.output } := by
  have hprepare : prepare options (.ok program) entropy = .ok m := by
    rw [prepare]
    simp only [hboot]
  rw [play, hprepare]
  dsimp only
  rw [hrun]
  cases ended with
  | none => rfl
  | some ending =>
    cases hreport : conclude c ending <;> simp [hreport]

/-- All that the program has written once it has given the screen back. -/
theorem textOf_leave {drawing : List Piece}
    (hwritten : c.frontend.output.written.toList = Piece.prepare ++ drawing) :
    Piece.textOf c.frontend.output.shown ++ Piece.textOf c.frontend.leave =
      Piece.prepareText ++ Piece.textOf drawing.toArray ++ Piece.restoreText := by
  have hleave : (c.frontend.output.shown ++ c.frontend.leave).toList =
      Piece.prepare ++ drawing ++ Piece.restore := by
    rw [← hwritten, Output.written, Terminal.leave, Array.toList_append, Array.toList_appendList,
      Array.toList_append, List.append_assoc]
  have htext : c.frontend.output.shown ++ c.frontend.leave =
      Piece.prepare.toArray ++ drawing.toArray ++ Piece.restore.toArray :=
    Array.toList_inj.mp (hleave.trans (by simp))
  rw [← Piece.textOf_append, htext, Piece.textOf_append, Piece.textOf_append]
  rfl

/-- The report on a run that came to an end. -/
theorem performance_of_play (hboot : Machine.boot options.dialect entropy program = .ok m)
    (h : play options (.ok program) entropy keyboard durations = some report) :
    ∃ c ending drawing rest,
      Performance options program entropy keyboard durations report m c ending drawing rest := by
  rcases hrun : (seat options m keyboard).run (batchSize options.frequency) durations with
    ⟨c, ended⟩
  rw [play_of_boot hboot hrun] at h
  obtain ⟨told, hsome, rfl⟩ := Option.map_eq_some_iff.mp h
  obtain ⟨ending, rfl, htold⟩ := Option.bind_eq_some_iff.mp hsome
  obtain ⟨hfits, hnew⟩ := Machine.boot_eq_ok.mp hboot
  obtain ⟨hreachable, hstatus⟩ := Machine.reachable_of_boot hboot
  have hstart : (seat options m keyboard).frontend.output.Sketch := Terminal.sketch_enter ..
  obtain ⟨rounds, hcourse⟩ := Console.exists_course_at (c := seat options m keyboard)
    hreachable.sound hstatus options.frequency durations
  rw [hrun] at hcourse
  obtain ⟨hsound, hsketch⟩ := hcourse.sketch hreachable.sound hstart
  obtain ⟨drawing, hdepicts, hwritten⟩ := hsketch.written
  have houtput : Piece.textOf c.frontend.output.shown ++ told.output =
      Piece.prepareText ++ Piece.textOf drawing.toArray ++ Piece.restoreText ++
        epilogue c.machine ending := by
    rw [output_conclude hsound.depth_le htold, ← String.append_assoc, textOf_leave hwritten]
  refine ⟨c, ending, drawing, epilogue c.machine ending, ?_⟩
  exact
    { loaded := (Machine.get_of_boot hboot).1
      around := (Machine.get_of_boot hboot).2
      new := by rw [← hnew]
      run := hrun
      depicts := hdepicts
      written := hwritten
      output := houtput
      once := fun before after h => Piece.eq_of_restoreText (Piece.unmarked_textOf hdepicts)
        (unmarked_epilogue c.machine ending) (houtput.symm.trans h)
      ends := by
        obtain hquit | hhalted | rfl := hcourse.ending_of_sketch hreachable.sound hstart rfl
        · exact .inl hquit
        · exact .inr hhalted
        · cases htold
      quit := by
        rintro rfl
        cases htold
        exact ⟨rfl, rfl, rfl⟩
      halted := by
        rintro cause rfl
        rw [conclude_halted hsound.depth_le] at htold
        cases htold
        have hstatus : c.machine.status = .halted cause := hcourse.status_eq
        refine ⟨_, Machine.run_dump hsound.depth_le, ?_, rfl, rfl, rfl⟩
        rw [Machine.snapshot, hstatus]
        rfl }

/-- As long as no round takes a year, there is a report unless the run outlasts its rounds. -/
theorem outlasts_of_play (hboot : Machine.boot options.dialect entropy program = .ok m)
    (hshort : ∀ seconds ∈ durations, ¬ seconds ≥ 33554432.0)
    (h : play options (.ok program) entropy keyboard durations = none) :
    ((seat options m keyboard).run (batchSize options.frequency) durations).2 = none := by
  obtain ⟨hreachable, hstatus⟩ := Machine.reachable_of_boot hboot
  obtain ⟨rounds, hcourse⟩ := Console.exists_course_at (c := seat options m keyboard)
    hreachable.sound hstatus options.frequency durations
  rw [play_of_boot hboot rfl, Option.map_eq_none_iff] at h
  cases hended : ((seat options m keyboard).run (batchSize options.frequency) durations).2 with
  | none => rfl
  | some ending =>
    rw [hended] at h hcourse
    cases ending with
    | quit | halted cause | failed cause | violated cause => cases h
    | overslept =>
      obtain ⟨seconds, hmem, hlong⟩ := hcourse.exists_long_of_overslept hreachable.sound
        (show ¬ (0.0 : Float) ≥ secondsPerTick by decide)
      exact absurd hlong (hshort seconds hmem)

/-- For arguments that ask for a program to be run, for every file, all that is typed and all random
bytes: a file that cannot be read or is too long is refused, and otherwise the report is that of a
performance, if the program ends. -/
theorem execute_report {arguments : List String} (hparse : parse arguments = .ok (.play options))
    (files : String → Except OsError (List Byte)) (entropy : Entropy) (keyboard : Keyboard)
    (durations : List Float) :
    ((∃ cause, files options.file = .error cause) ∨
        (∃ program, files options.file = .ok program ∧ 3584 < program.length) →
      ∃ report, execute arguments files entropy keyboard durations = some report ∧
        report.output = "" ∧ report.code = 1) ∧
    ∀ program report, files options.file = .ok program → program.length ≤ 3584 →
      execute arguments files entropy keyboard durations = some report →
      ∃ m c ending drawing rest,
        Performance options program entropy keyboard durations report m c ending drawing rest := by
  have hexecute : execute arguments files entropy keyboard durations =
      play options (files options.file) entropy keyboard durations := by
    rw [execute, hparse]
  rw [hexecute]
  constructor
  · rintro (⟨cause, hfile⟩ | ⟨program, hfile, hlong⟩)
    · rw [hfile]
      exact ⟨_, rfl, rfl, rfl⟩
    · have hboot : Machine.boot options.dialect entropy program =
          .error ⟨program.length, Memory.programRoom⟩ := if_neg (Nat.not_le.mpr hlong)
      rw [hfile, play, prepare]
      simp only [hboot]
      exact ⟨_, rfl, rfl, rfl⟩
  · intro program report hfile hfits hreport
    rw [hfile] at hreport
    obtain ⟨m, hboot, -⟩ := Machine.exists_boot options.dialect entropy program hfits
    exact ⟨m, performance_of_play hboot hreport⟩

/-- A program that jumps to itself: its machine halts at once, and the program ends. -/
theorem self_jump_report :
    ∃ report m c ending drawing rest,
      execute ["game"] (fun _ => .ok [0x12, 0x00]) (.cycle []) {} [] = some report ∧
      report.code = 1 ∧
      Performance { file := "game" } [0x12, 0x00] (.cycle []) {} [] report m c ending drawing
        rest := by
  obtain ⟨m, hboot, hreachable, hstatus, -, -, hfetch⟩ :=
    Machine.boot_instruction (i := .jump 0x200) .cosmac (.cycle []) 0x12 0x00 (by decide)
  have hpc : m.pass.pc.toNat = 0x202 := by
    obtain ⟨-, rfl⟩ := Machine.boot_eq_ok.mp hboot
    rfl
  have heffect : m.effect = .error .infiniteLoop := by
    rw [hfetch.effect_eq, Machine.effectOf, Machine.afterJump, hpc]
    rfl
  let options : Options := { file := "game" }
  let t := Terminal.enter options.keymap {}
  have hstep : m.step t = .ok ⟨m.halt .infiniteLoop, t, some .infiniteLoop⟩ := by
    rw [Machine.step_eq_turn hstatus hreachable.sound.depth_le, Machine.turn, heffect]
    rfl
  have hbatch : Console.batch (8 + 1) (seat options m {}) =
      (⟨m.halt .infiniteLoop, t⟩, some (.halted .infiniteLoop)) := by
    rw [Console.batch_succ (c := seat options m {}) hstep]
    rfl
  have hsize : batchSize options.frequency = 8 + 1 := by decide
  have hrun : (seat options m {}).run (batchSize options.frequency) [] =
      (⟨m.halt .infiniteLoop, t⟩, some (.halted .infiniteLoop)) :=
    Console.run_of_batch_ends (hsize ▸ hbatch)
  have hparse : parse ["game"] = .ok (.play options) := by decide
  obtain ⟨-, hperformance⟩ :=
    execute_report hparse (fun _ => .ok [0x12, 0x00]) (.cycle []) {} []
  obtain ⟨report, hcode, hexecute⟩ : ∃ report, report.code = 1 ∧
      execute ["game"] (fun _ => .ok [0x12, 0x00]) (.cycle []) {} [] = some report := by
    have hboot' : Machine.boot options.dialect (.cycle []) [0x12, 0x00] = .ok m := hboot
    rw [execute, hparse]
    dsimp only
    rw [play_of_boot hboot' hrun, Option.bind_some, conclude_halted hreachable.sound.depth_le]
    exact ⟨_, rfl, rfl⟩
  obtain ⟨m', c, ending, drawing, rest, hreport⟩ :=
    hperformance [0x12, 0x00] report rfl (by decide) hexecute
  exact ⟨report, m', c, ending, drawing, rest, hexecute, hcode, hreport⟩

end CommandLine
end Chip8
