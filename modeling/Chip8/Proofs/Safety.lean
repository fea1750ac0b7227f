import Chip8.Machine.Snapshot
import Chip8.Proofs.Reachable
import Chip8.Recorder

/-!
# No program leaves the domain of an operation

Places in memory, stack and display, sums, differences and products of words, and the keys that a
host is asked about are all checked where they are used, and a check that fails is a violation. On a
reachable machine none does, neither in a step nor when a snapshot is taken.
-/
namespace Chip8.Machine

variable {m : Machine}

theorem run_readStack (h : m.depth ≤ maxDepth) : readStack.run m = .ok m.stack m := by
  simp only [readStack, EStateM.run_bind, EStateM.run_get, Exec.run_require h]
  rfl

theorem run_readInstruction : readInstruction.run m = .ok m.shownInstruction m := by
  simp only [readInstruction, EStateM.run_bind, EStateM.run_get, shownInstruction]
  split
  · rfl
  split
  · next hpc =>
    simp only [EStateM.run_bind, run_peek (Nat.lt_of_succ_lt hpc), run_peek hpc]
    rfl
  · rfl

/-- A snapshot that is taken place by place is the snapshot. -/
theorem run_dump (h : m.depth ≤ maxDepth) : dump.run m = .ok m.snapshot m := by
  simp only [dump, EStateM.run_bind, EStateM.run_get, run_readInstruction, run_readStack h]
  rfl

/-- The next step of a reachable machine that runs ends with a turn, on every host. A snapshot of a
reachable machine can be taken, whether it runs or not. -/
theorem safe_of_reachable (h : m.Reachable) :
    (m.status = .running →
        ∀ (H : Type) [Host H] (host : H), ∃ turn : Turn H, m.step host = .ok turn) ∧
      dump.run m = .ok m.snapshot m ∧ readStack.run m = .ok m.stack m ∧
      m.depth ≤ 16 ∧ m.pc.toNat ≤ 0x10fe := by
  have hdepth := h.sound.depth_le
  refine ⟨?_, run_dump hdepth, run_readStack hdepth, hdepth, h.sound.pc_le⟩
  intro hstatus H _ host
  exact ⟨m.turn host, step_eq_turn hstatus hdepth host⟩

/-- A program that calls a routine, which jumps out of the program to the last byte of memory: the
machine runs on there, with a return address on its stack, and its next step ends with a fault. -/
theorem left_program_safe :
    ∃ (m called left : Machine) (turn : Turn Recorder),
      boot .cosmac (.cycle []) [0x22, 0x04, 0x00, 0x00, 0x1f, 0xff] = .ok m ∧
        m.step ({} : Recorder) = .ok ⟨called, {}, none⟩ ∧
        called.step ({} : Recorder) = .ok ⟨left, {}, none⟩ ∧
        left.Reachable ∧ left.depth = 1 ∧ left.pc.toNat = 0xfff ∧ left.status = .running ∧
        left.step ({} : Recorder) = .ok turn ∧ turn.fault = some .pcOverflow ∧
        dump.run left = .ok left.snapshot left := by
  obtain ⟨m, hboot, ⟨results, hrun⟩, hstatus, hdepth, -, -, hpc, hwords⟩ :=
    exists_boot .cosmac (.cycle []) [0x22, 0x04, 0x00, 0x00, 0x1f, 0xff]
      (Nat.le_of_lt (show 6 < Memory.programRoom by decide))
  have hcall : m.Fetches (.call ⟨0x204, by decide⟩) :=
    fetches_of_pc hpc (by decide) (hwords 0 (by simp))
  let called : Machine := { m.pass with
    cells := m.cells.setIfInBounds m.depth m.pass.pc
    depth := m.depth + 1
    pc := .ofAddress ⟨0x204, by decide⟩ }
  have hdeeper : called.depth = 1 := congrArg (· + 1) hdepth
  have hfirst : m.step ({} : Recorder) = .ok ⟨called, {}, none⟩ := by
    rw [step_eq_turn hstatus hrun.sound.depth_le, hcall.turn_call (by rw [hdepth]; decide)]
  have hpc' : called.pc.toNat = 0x204 := rfl
  have hjump : called.Fetches (.jump ⟨0xfff, by decide⟩) :=
    fetches_of_pc hpc' (by decide) (hwords 4 (by simp))
  let left : Machine := { called with pc := .ofAddress ⟨0xfff, by decide⟩ }
  have hsecond : called.step ({} : Recorder) = .ok ⟨left, {}, none⟩ := by
    rw [step_eq_turn (m := called) hstatus (by rw [hdeeper]; decide),
      hjump.turn_jump (by rw [hpc']; decide)]
  have hleft : left.Reachable := ⟨_, (hrun.step hfirst).step hsecond⟩
  obtain ⟨hstep, hdump, -⟩ := safe_of_reachable hleft
  obtain ⟨turn, hturn⟩ := hstep hstatus Recorder {}
  have hfault : turn.fault = some .pcOverflow := by
    rw [step_eq_turn (m := left) hstatus (by rw [hdeeper]; decide)] at hturn
    cases hturn
    rfl
  exact ⟨m, called, left, turn, hboot, hfirst, hsecond, hleft, hdeeper, rfl, hstatus, hturn, hfault,
    hdump⟩

end Chip8.Machine
