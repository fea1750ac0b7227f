import Chip8.Instruction.RoundTrip
import Chip8.Proofs.Sprite

/-!
# A step is a turn

Carried out in place, every instruction ends as its effect says, and when one raises a fault the
program counter is moved back over exactly the instruction that it was moved past.
`Machine.step_eq_turn` puts this together: a machine that runs and whose stack is not too deep takes
the turn that its effect describes.
-/
namespace Chip8

/-- Whether an instruction can change the stack. -/
def Instruction.nests : Instruction → Bool
  | ret | call _ => true
  | _ => false

/-- The stack is not deeper than its cells, or the next instruction leaves it alone. -/
def Machine.Shallow (m : Machine) : Prop :=
  ∀ i, m.Fetches i → i.nests = true → m.depth ≤ maxDepth

/-- What a computation changed before it stopped is there for the one that catches the stop. -/
theorem Exec.run_tryCatch {σ α : Type} (x : Exec σ α) (handle : Stop → Exec σ α) (s : σ) :
    (tryCatch x handle).run s =
      match x.run s with
      | .ok a s => .ok a s
      | .error stop s => (handle stop).run s := by
  change EStateM.tryCatch x handle s = _
  rw [EStateM.tryCatch, EStateM.run]
  cases x s <;> rfl

namespace World

variable {H : Type} {m : Machine}

/-- An operation that ends with an outcome on the machine ends with it in every world. -/
theorem run_onMachine_settle {x : Exec Machine Unit} {outcome : Except Fault Machine}
    (h : x.run m = Exec.settle m outcome) (host : H) :
    (onMachine x : Exec (World H) Unit).run ⟨m, host⟩ = settle m (outcome, host) := by
  rw [run_onMachine, h]
  cases outcome <;> rfl

/-- A fault that finds the program counter past the instruction leaves it on the instruction. -/
theorem run_rewinding (hroom : m.pc.toNat + 2 < 0x10000) {x : Exec (World H) Unit} {host : H}
    {outcome : Except Fault Machine × H} (h : x.run ⟨m.pass, host⟩ = settle m.pass outcome) :
    (tryCatch x fun stop => do
      if let .fault _ := stop then Machine.rewind
      throw stop).run ⟨m.pass, host⟩ = settle m outcome := by
  have hrewind := Machine.run_rewind_pass hroom
  rw [Exec.run_tryCatch, h]
  rcases outcome with ⟨_ | _, host'⟩
  · simp only [settle, EStateM.run_bind, liftM_eq, run_onMachine, hrewind]
    rfl
  · rfl

variable [Host H]

theorem attempt_map_quiet (host : H) (outcome : Except Fault Machine) :
    Effect.attempt host (outcome.map .quiet) = (outcome, host) := by
  cases outcome <;> rfl

/-- An operation of the machine has the effect that it has on the machine alone. -/
theorem run_onMachine_quiet {x : Exec Machine Unit} {outcome : Except Fault Machine}
    (h : x.run m = Exec.settle m outcome) (host : H) :
    (onMachine x : Exec (World H) Unit).run ⟨m, host⟩ =
      settle m (Effect.attempt host (outcome.map .quiet)) := by
  rw [attempt_map_quiet, run_onMachine_settle h]

theorem run_skipIfKey (h : m.pc.toNat + 2 < 0x10000) (x : Register) (down : Bool) (host : H) :
    (skipIfKey x down).run ⟨m, host⟩ = settle m (Effect.attempt host (m.keyEffect x down)) := by
  simp only [skipIfKey, EStateM.run_bind, EStateM.run_get, Machine.keyEffect]
  by_cases hkey : (m.reg x).toNat < 16
  · rw [if_neg (Nat.not_le.mpr hkey), dif_pos hkey]
    simp only [EStateM.run_bind, askKey, dif_pos hkey, ask, EStateM.run_modifyGet, liftM_eq,
      run_onMachine, Machine.run_skipIf h]
    rfl
  · rw [if_pos (Nat.not_lt.mp hkey), dif_neg hkey]
    rfl

theorem run_waitKey (x : Register) (host : H) :
    (waitKey x).run ⟨m, host⟩ = settle m (Effect.attempt host (m.effectOf (.waitKey x))) := by
  simp only [waitKey, EStateM.run_bind, ask, EStateM.run_modifyGet, Machine.effectOf,
    Effect.attempt, Effect.perform, Machine.afterKey]
  by_cases hkey : 16 ≤ (Host.waitKey host).1.toNat
  · rw [if_pos hkey, if_pos hkey]
    rfl
  · rw [if_neg hkey, if_neg hkey]
    rfl

/-- An instruction that is carried out in place ends as its effect says. -/
theorem run_execute (hpc : 2 ≤ m.pc.toNat) (hroom : m.pc.toNat + 2 < 0x10000) (i : Instruction)
    (hdepth : i.nests = true → m.depth ≤ maxDepth) (host : H) :
    (execute i).run ⟨m, host⟩ = settle m (Effect.attempt host (m.effectOf i)) := by
  have hskip (condition : Bool) :
      (Machine.skipIf condition).run m = Exec.settle m (.ok (m.passIf condition)) :=
    Machine.run_skipIf hroom condition
  have hoffset (target : Address) : (Machine.jumpOffset target).run m =
      Exec.settle m (.ok (m.goto (.ofNat (target.val + (m.reg offsetRegister).toNat)))) :=
    Machine.run_jumpOffset target
  cases i with
  | ret => exact run_onMachine_quiet (Machine.run_ret (hdepth rfl)) host
  | jump target => exact run_onMachine_quiet (Machine.run_jump hpc target) host
  | call target => exact run_onMachine_quiet (Machine.run_call (hdepth rfl) target) host
  | jumpOffset target => exact run_onMachine_quiet (hoffset target) host
  | skipIfByte x k | skipUnlessByte x k | skipIfEqual x y | skipUnlessEqual x y =>
    exact run_onMachine_quiet (hskip _) host
  | glyph x => exact run_onMachine_quiet (Machine.run_glyph x) host
  | decimal x => exact run_onMachine_quiet (Machine.run_decimal x) host
  | store x => exact run_onMachine_quiet (Machine.run_storeRegisters x) host
  | load x => exact run_onMachine_quiet (Machine.run_loadRegisters x) host
  | draw x y height => exact run_draw m host x y height
  | skipIfKey x => exact run_skipIfKey hroom x true host
  | skipUnlessKey x => exact run_skipIfKey hroom x false host
  | waitKey x => exact run_waitKey x host
  | clearScreen | setByte x k | addByte x k | arith op x y | setIndex place | random x mask
  | readDelay x | setDelay x | setSound x | addIndex x => rfl

/-- An instruction that finds the stack too deep commits a violation, and the depth alone says
which one. -/
theorem run_execute_of_deep {i : Instruction} (hi : i.nests = true) {depth : Nat}
    (hdeep : maxDepth < depth) :
    ∃ cause, ∀ {H : Type} [Host H] (m : Machine) (host : H), m.depth = depth →
      ∃ w, (execute i).run ⟨m, host⟩ = .error (.violation cause) w := by
  cases i with
  | ret =>
    refine ⟨.outOfRange maxDepth (depth - 1), ?_⟩
    rintro H _ m host rfl
    obtain ⟨m', hrun⟩ := Machine.run_ret_of_deep hdeep
    refine ⟨⟨m', host⟩, ?_⟩
    rw [execute, liftM_eq, run_onMachine, hrun]
  | call target =>
    refine ⟨.outOfRange maxDepth depth, ?_⟩
    rintro H _ m host rfl
    refine ⟨⟨m, host⟩, ?_⟩
    rw [execute, liftM_eq, run_onMachine, Machine.run_call_of_deep hdeep]
  | _ => cases hi

/-! ## The next instruction -/

theorem run_executeWord (hreads : m.Reads) (h : m.Shallow) (host : H) :
    (executeWord m.word).run ⟨m.pass, host⟩ = settle m (Effect.attempt host m.effect) := by
  obtain ⟨hpc, hsize⟩ := hreads
  have hs : Memory.size = 4096 := rfl
  have hb : Memory.programBase = 0x200 := rfl
  have hroom : m.pc.toNat + 2 < 0x10000 := by omega
  have hpass := Machine.toNat_pc_pass hroom
  rw [Machine.effect, if_neg (by omega), if_neg (by omega)]
  apply run_rewinding hroom
  cases hdecode : Instruction.decode m.word with
  | none => rfl
  | some i =>
    have hfetch : m.Fetches i := ⟨⟨hpc, hsize⟩, (Instruction.encode_of_decode hdecode).symm⟩
    exact run_execute (m := m.pass) (by omega) (by omega) i (h i hfetch) host

/-- The next instruction, carried out in place, ends as its effect says. -/
theorem run_cycle (h : m.Shallow) (host : H) :
    cycle.run ⟨m, host⟩ = settle m (Effect.attempt host m.effect) := by
  simp only [cycle, EStateM.run_bind, liftM_eq, run_onMachine]
  by_cases hlow : m.pc.toNat < Memory.programBase
  · simp only [Machine.fetch, EStateM.run_bind, EStateM.run_get, if_pos hlow, Machine.effect]
    rfl
  by_cases hhigh : Memory.size - 1 ≤ m.pc.toNat
  · simp only [Machine.fetch, EStateM.run_bind, EStateM.run_get, if_neg hlow, if_pos hhigh,
      Machine.effect]
    rfl
  · rw [Machine.run_fetch (Nat.not_lt.mp hlow) (Nat.not_le.mp hhigh)]
    exact run_executeWord ⟨Nat.not_lt.mp hlow, Nat.not_le.mp hhigh⟩ h host

end World

namespace Machine

variable {m : Machine}

/-- An instruction that leaves the stack alone does not mind how deep it is. -/
theorem Fetches.shallow {i : Instruction} (h : m.Fetches i) (hi : i.nests = false) : m.Shallow := by
  intro j hj hnests
  have hword : i.encode = j.encode := h.2.symm.trans hj.2
  have hij : some i = some j := by
    rw [← Instruction.decode_encode i, hword, Instruction.decode_encode]
  cases hij
  rw [hi] at hnests
  cases hnests

variable {H : Type} [Host H]

/-- A step commits the violation that its instruction commits. -/
theorem Fetches.step_of_violation {i : Instruction} {cause : Violation} {host : H} {w : World H}
    (h : m.Fetches i) (hstatus : m.status = .running)
    (hrun : (World.execute i).run ⟨m.pass, host⟩ = .error (.violation cause) w) :
    m.step host = .error cause := by
  have hcycle : World.cycle.run ⟨m, host⟩ = .error (.violation cause) w := by
    simp only [World.cycle, EStateM.run_bind, World.liftM_eq, World.run_onMachine]
    rw [run_fetch h.1.1 h.1.2]
    change (World.executeWord m.word).run ⟨m.pass, host⟩ = _
    rw [World.executeWord, h.2, Instruction.decode_encode, Exec.run_tryCatch]
    simp only [hrun]
    rfl
  rw [step, hstatus]
  change conclude (World.cycle.run ⟨m, host⟩) = _
  rw [hcycle]
  rfl

/-- A machine that runs takes its turn, unless its stack is too deep for it. -/
theorem Shallow.step_eq_turn (h : m.Shallow) (hstatus : m.status = .running) (host : H) :
    m.step host = .ok (m.turn host) := by
  rw [step, hstatus]
  change conclude (World.cycle.run ⟨m, host⟩) = _
  rw [World.run_cycle h, turn]
  rcases Effect.attempt host m.effect with ⟨_ | _, host'⟩ <;> rfl

/-- A machine that runs, and whose stack is not too deep, takes its turn. -/
theorem step_eq_turn (h : m.status = .running) (hdepth : m.depth ≤ maxDepth) (host : H) :
    m.step host = .ok (m.turn host) :=
  Shallow.step_eq_turn (fun _ _ _ => hdepth) h host

end Machine
end Chip8
