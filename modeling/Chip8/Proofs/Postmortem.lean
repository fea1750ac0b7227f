import Chip8.Proofs.CallStack
import Chip8.Proofs.Safety
import Chip8.Proofs.Walk

/-!
# The snapshot after a fault

A snapshot reads the instruction that it shows from memory, at the program counter of the machine
that has halted; nothing remembers the word that failed. It is that word all the same: a fault
leaves program counter and memory as they were before the step, and a word was read unless the fault
came first.
-/
namespace Chip8

theorem Fault.precedesFetch_iff (cause : Fault) :
    cause.precedesFetch = true ↔ cause = .pcUnderflow ∨ cause = .pcOverflow := by
  cases cause <;> decide

/-- What a snapshot shows after a step of the machine `m` that raised a fault. -/
structure Snapshot.Explains {H : Type} [Host H] (s : Snapshot) (m : Machine) (host : H)
    (cause : Fault) : Prop where
  fault : s.fault = some cause
  pc : s.pc = m.pc
  index : s.index = m.index
  depth : s.depth = m.depth
  stack : s.stack = m.stack
  length_stack : s.stack.length = s.depth
  instruction_eq_none : s.instruction = none ↔ cause = .pcUnderflow ∨ cause = .pcOverflow
  instruction_eq_some : s.instruction ≠ none → ∃ word host', s.instruction = some word ∧
    Machine.fetch.run m = .ok word m.pass ∧
      (World.executeWord word).run ⟨m.pass, host⟩ = .error (.fault cause) ⟨m, host'⟩

namespace Machine

variable {m : Machine} {H : Type} [Host H] {host : H} {cause : Fault}

/-- A step that raises a fault has read a word, unless the fault comes before that. -/
theorem Raises.reads_iff (h : m.Raises host cause) : m.Reads ↔ cause.precedesFetch = false := by
  constructor
  · intro hreads
    cases cause with
    | pcUnderflow => exact absurd h hreads.not_lt
    | pcOverflow => exact absurd h hreads.not_le
    | _ => rfl
  · intro hlater
    have hfault := (fault_turn_eq_some m host cause).mpr h
    have hother (early : Fault) (hearly : early.precedesFetch = true) : ¬ m.Raises host early := by
      intro hraises
      rw [(fault_turn_eq_some m host early).mpr hraises] at hfault
      cases hfault
      rw [hearly] at hlater
      cases hlater
    exact ⟨Nat.le_of_not_lt (hother .pcUnderflow rfl), Nat.lt_of_not_le (hother .pcOverflow rfl)⟩

/-- A machine that a fault has halted shows the word that was read. -/
theorem Raises.shownInstruction_halt (h : m.Raises host cause) :
    (m.halt cause).shownInstruction = if cause.precedesFetch then none else some m.word := by
  have hany : (m.halt cause).status.fault?.any Fault.precedesFetch = cause.precedesFetch := rfl
  rw [shownInstruction, hany]
  cases hearly : cause.precedesFetch with
  | true => rfl
  | false =>
    have hpc : m.pc.toNat + 1 < Memory.size := Nat.add_lt_add_right (h.reads_iff.mpr hearly).2 1
    exact if_pos hpc

/-- The word that a faulting step reads is the one that it carries out in vain. -/
theorem Sound.run_executeWord_of_fault (hm : m.Sound) (hreads : m.Reads)
    (h : (m.turn host).fault = some cause) :
    ∃ host', (World.executeWord m.word).run ⟨m.pass, host⟩ = .error (.fault cause) ⟨m, host'⟩ := by
  rw [World.run_executeWord hreads (fun _ _ _ => hm.depth_le)]
  rw [Machine.turn] at h
  revert h
  rcases Effect.attempt host m.effect with ⟨own | next, host'⟩ <;> rintro ⟨⟩
  exact ⟨host', rfl⟩

theorem Sound.explains (hm : m.Sound) (h : (m.turn host).fault = some cause) :
    (m.halt cause).snapshot.Explains m host cause := by
  have hraises := (fault_turn_eq_some m host cause).mp h
  have hshown : (m.halt cause).snapshot.instruction = _ := hraises.shownInstruction_halt
  refine ⟨rfl, rfl, rfl, rfl, rfl, Machine.length_stack hm.depth_le, ?_, ?_⟩
  · rw [hshown, ← Fault.precedesFetch_iff]
    cases cause.precedesFetch <;> simp
  · intro hsome
    rw [hshown] at hsome
    cases hearly : cause.precedesFetch with
    | true =>
      rw [hearly] at hsome
      exact absurd rfl hsome
    | false =>
      have hreads := hraises.reads_iff.mpr hearly
      obtain ⟨host', hrun⟩ := hm.run_executeWord_of_fault hreads h
      rw [hearly] at hshown
      exact ⟨m.word, host', hshown, run_fetch hreads.1 hreads.2, hrun⟩

/-- The stack of a machine with a fresh program is what calls and returns have made of it. -/
theorem Path.stack_eq_returns {dialect : Dialect} {entropy : Entropy} {program : List Byte}
    {m₀ : Machine} {strides : List Stride} (hboot : boot dialect entropy program = .ok m₀)
    (h : Path m₀ strides m) : m.stack = Stride.returns strides := by
  have hempty : m₀.stack = [] := by
    rw [stack, (sameControl_load hboot).depth]
    rfl
  rw [h.stack_eq (Run.sound (.load (.new dialect entropy) hboot)), hempty, Stride.returns]

/-- When a step on a machine with a fresh program raises a fault, then a snapshot that is taken next
names the fault and shows program counter, index and stack as they were before the step, the stack
being what calls and returns have made of it, and the very word that the step read and carried out,
if it came to read one. -/
theorem dump_after_fault {dialect : Dialect} {entropy : Entropy} {program : List Byte}
    {m₀ : Machine} {strides : List Stride} {turn : Turn H}
    (hboot : boot dialect entropy program = .ok m₀) (hpath : Path m₀ strides m)
    (hstep : m.step host = .ok turn) (hfault : turn.fault = some cause) :
    ∃ s : Snapshot, dump.run turn.machine = .ok s turn.machine ∧ s.Explains m host cause ∧
      s.stack = Stride.returns strides := by
  have hm := hpath.sound (Run.sound (.load (.new dialect entropy) hboot))
  obtain rfl := hm.turn_eq hstep
  have hhalted : (m.halt cause).depth ≤ maxDepth := hm.depth_le
  rw [turn_machine_of_fault hfault]
  exact ⟨_, run_dump hhalted, hm.explains hfault, (hpath.stack_eq_returns hboot :)⟩

/-- A program that calls a place where no instruction is. -/
theorem call_into_nowhere_explained :
    ∃ (m₀ m : Machine) (turn : Turn Recorder) (s : Snapshot),
      boot .cosmac (.cycle []) [0x22, 0x02, 0x00, 0x00] = .ok m₀ ∧ m.step {} = .ok turn ∧
        turn.fault = some .illegalInstruction ∧ dump.run turn.machine = .ok s turn.machine ∧
        s.pc.toNat = 0x202 ∧ s.stack.length = 1 ∧ s.instruction = some 0 := by
  obtain ⟨m₀, hboot, hm₀, hstatus, hdepth, -, -, hpc, hwords⟩ :=
    exists_boot .cosmac (.cycle []) [0x22, 0x02, 0x00, 0x00] (by decide)
  have hcall : m₀.Fetches (.call ⟨0x202, by decide⟩) :=
    fetches_of_pc hpc (by decide) (hwords 0 (by decide))
  -- the machine after the call
  let m := { m₀.pass with cells := m₀.cells.setIfInBounds m₀.depth m₀.pass.pc, depth := m₀.depth + 1
    }.goto (.ofAddress ⟨0x202, by decide⟩)
  have heffect : m₀.effect = .ok (.quiet m) := by
    have hroom : ¬ m₀.pass.depth = maxDepth := by
      change ¬ m₀.depth = maxDepth
      rw [hdepth]
      decide
    rw [hcall.effect_eq, effectOf, afterCall, if_neg hroom]
    rfl
  have hstep₀ := step_eq_turn hstatus hm₀.sound.depth_le ({} : Recorder)
  rw [turn_quiet heffect] at hstep₀
  have htaken : Stride.Taken ⟨m₀, none, m⟩ := Stride.taken_of_step hstep₀
  have hm := htaken.sound hm₀.sound
  have hpc' : m.pc.toNat = 0x202 := Word.toNat_ofAddress _
  have hreads : m.Reads := by
    rw [Reads, hpc']
    decide
  have hword : m.word = 0 := hwords 2 (by decide)
  have hfault : (m.turn ({} : Recorder)).fault = some .illegalInstruction := by
    rw [fault_turn_eq_some]
    refine ⟨hreads, ?_⟩
    rw [hword]
    decide
  have hstep := step_eq_turn (m := m) hstatus hm.depth_le ({} : Recorder)
  obtain ⟨s, hdump, hexplains, hstack⟩ :=
    dump_after_fault hboot (.cons htaken (.nil m)) hstep hfault
  refine ⟨m₀, m, _, s, hboot, hstep, hfault, hdump, ?_, ?_, ?_⟩
  · rw [hexplains.pc, hpc']
  · rw [hexplains.length_stack, hexplains.depth]
    exact congrArg (· + 1) hdepth
  · have hshown : s.instruction ≠ none := by
      rw [Ne, hexplains.instruction_eq_none]
      decide
    obtain ⟨word, -, hsome, hfetch, -⟩ := hexplains.instruction_eq_some hshown
    rw [run_fetch hreads.1 hreads.2, hword] at hfetch
    rw [hsome]
    cases hfetch
    rfl

end Machine
end Chip8
