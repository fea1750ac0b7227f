import Chip8.Proofs.Reachable

/-!
# What an instruction leaves alone

Two instructions change the display, and two others change the stack. `Machine.Frame` says so of an
instruction and of a machine that goes on from it, and holds whatever the host answers.
-/
namespace Chip8

namespace Instruction

def draws : Instruction → Bool
  | clearScreen | draw _ _ _ => true
  | _ => false

end Instruction

namespace Machine

/-- What an instruction leaves alone when the machine `m` goes on from it as `next`. -/
structure Frame (i : Instruction) (m next : Machine) : Prop where
  display : i.draws = false → next.display = m.display
  depth : i.nests = false → next.depth = m.depth
  cells : i.nests = false → next.cells = m.cells

variable {m next : Machine} {i : Instruction}

/-- A machine whose display and stack are those of another. -/
theorem Frame.of_eq (hdisplay : next.display = m.display) (hdepth : next.depth = m.depth)
    (hcells : next.cells = m.cells) : Frame i m next :=
  ⟨fun _ => hdisplay, fun _ => hdepth, fun _ => hcells⟩

theorem frame_passIf (condition : Bool) : Frame i m (m.passIf condition) := by
  cases condition <;> exact .of_eq rfl rfl rfl

theorem frame_setResult (x : Register) (result : Byte × Option Byte) :
    Frame i m (m.setResult x result) := by
  rcases result with ⟨b, _ | flag⟩ <;> exact .of_eq rfl rfl rfl

theorem frame_write (bytes : List Byte) : Frame i m (m.write bytes) :=
  .of_eq rfl rfl rfl

theorem frame_setFirst (bytes : List Byte) : Frame i m (m.setFirst bytes) := by
  rw [setFirst]
  exact .of_eq rfl rfl rfl

theorem frame_indexMoved {x : Register} (h : Frame i m next) : Frame i m (next.indexMoved x) := by
  rw [indexMoved]
  split
  · exact ⟨h.display, h.depth, h.cells⟩
  · exact h

/-- Whatever the host answers, an instruction leaves alone what is not its own to change. -/
theorem ensures_frame {effect : Effect} (h : m.effectOf i = .ok effect) :
    effect.Ensures (Frame i m) := by
  cases i with
  | clearScreen =>
    cases h
    exact ⟨nofun, fun _ => rfl, fun _ => rfl⟩
  | draw x y height =>
    obtain ⟨-, rfl⟩ := check_eq_ok.mp h
    exact ⟨nofun, fun _ => rfl, fun _ => rfl⟩
  | ret =>
    refine Effect.ensures_of_map_quiet (fun next hnext => ?_) h
    obtain ⟨-, rfl⟩ := check_eq_ok.mp hnext
    exact ⟨fun _ => rfl, nofun, nofun⟩
  | call target =>
    refine Effect.ensures_of_map_quiet (fun next hnext => ?_) h
    obtain ⟨-, rfl⟩ := check_eq_ok.mp hnext
    exact ⟨fun _ => rfl, nofun, nofun⟩
  | jump target | glyph x =>
    refine Effect.ensures_of_map_quiet (fun next hnext => ?_) h
    obtain ⟨-, rfl⟩ := check_eq_ok.mp hnext
    exact .of_eq rfl rfl rfl
  | decimal x =>
    refine Effect.ensures_of_map_quiet (fun next hnext => ?_) h
    obtain ⟨-, rfl⟩ := check_eq_ok.mp hnext
    exact frame_write _
  | store x =>
    refine Effect.ensures_of_map_quiet (fun next hnext => ?_) h
    obtain ⟨-, rfl⟩ := check_eq_ok.mp hnext
    exact frame_indexMoved (frame_write _)
  | load x =>
    refine Effect.ensures_of_map_quiet (fun next hnext => ?_) h
    obtain ⟨-, rfl⟩ := check_eq_ok.mp hnext
    exact frame_indexMoved (frame_setFirst _)
  | skipIfKey x | skipUnlessKey x =>
    rw [effectOf, keyEffect] at h
    split at h <;> cases h
    exact fun answer => frame_passIf _
  | skipIfByte x k | skipUnlessByte x k | skipIfEqual x y | skipUnlessEqual x y =>
    cases h
    exact frame_passIf _
  | arith op x y =>
    cases h
    exact frame_setResult x _
  | readDelay x =>
    cases h
    exact fun value => .of_eq rfl rfl rfl
  | waitKey x =>
    cases h
    intro key next hnext
    obtain ⟨-, rfl⟩ := check_eq_ok.mp hnext
    exact .of_eq rfl rfl rfl
  | setByte x k | addByte x k | setIndex place | jumpOffset target | random x mask | setDelay x
  | setSound x | addIndex x =>
    cases h
    exact .of_eq rfl rfl rfl

end Machine
end Chip8
