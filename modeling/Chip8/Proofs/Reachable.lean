import Chip8.Proofs.Execution
import Chip8.Proofs.Loading
import Chip8.Proofs.Turn

/-!
# Reachable machines

A machine is reachable if it comes from a new one by loading programs and by steps, on any hosts and
in any order. What no program can break is collected in `Machine.Sound`: the stack is not deeper
than its cells, it holds addresses up to the end of memory, and the program counter is at most one
offset past that.
-/
namespace Chip8

/-- Every machine that goes on from an effect has a property. -/
def Effect.Ensures (p : Machine → Prop) : Effect → Prop
  | proceed _ next => p next
  | readDelay resume => ∀ value, p (resume value)
  | testKey _ resume => ∀ down, p (resume down)
  | waitKey resume => ∀ key next, resume key = .ok next → p next

namespace Effect

variable {p : Machine → Prop}

theorem Ensures.of_perform {H : Type} [Host H] {effect : Effect} {host host' : H} {next : Machine}
    (h : effect.Ensures p) (hnext : effect.perform host = (.ok next, host')) : p next := by
  cases effect with
  | proceed notices m =>
    obtain rfl : m = next := by simpa [perform] using congrArg Prod.fst hnext
    exact h
  | readDelay resume =>
    obtain rfl : resume (Host.delay host).1 = next := by
      simpa [perform] using congrArg Prod.fst hnext
    exact h _
  | testKey key resume =>
    obtain rfl : resume (Host.keyDown key host).1 = next := by
      simpa [perform] using congrArg Prod.fst hnext
    exact h _
  | waitKey resume => exact h _ next (congrArg Prod.fst hnext)

theorem Ensures.mono {q : Machine → Prop} {effect : Effect} (h : effect.Ensures p)
    (hpq : ∀ next, p next → q next) : effect.Ensures q := by
  cases effect with
  | proceed notices next => exact hpq next h
  | readDelay resume => exact fun value => hpq _ (h value)
  | testKey key resume => exact fun down => hpq _ (h down)
  | waitKey resume => exact fun key next hnext => hpq next (h key next hnext)

theorem ensures_of_map_quiet {outcome : Except Fault Machine} {effect : Effect}
    (h : ∀ next, outcome = .ok next → p next) (heffect : outcome.map .quiet = .ok effect) :
    effect.Ensures p := by
  cases outcome with
  | error cause => cases heffect
  | ok next =>
    cases heffect
    exact h next rfl

end Effect

namespace Machine

/-- The machines that are reached from construction, with the results of the steps on the way. -/
inductive Run : List (Option Fault) → Machine → Prop where
  | new (dialect : Dialect) (entropy : Entropy) : Run [] (.new dialect entropy)
  | load {results : List (Option Fault)} {m m' : Machine} {program : List Byte} :
      Run results m → m.load program = .ok m' → Run results m'
  | step {results : List (Option Fault)} {m : Machine} {H : Type} [Host H] {host : H}
      {turn : Turn H} :
      Run results m → m.step host = .ok turn → Run (results ++ [turn.fault]) turn.machine

def Reachable (m : Machine) : Prop :=
  ∃ results, Run results m

/-- What no program can break. -/
structure Sound (m : Machine) : Prop where
  depth_le : m.depth ≤ maxDepth
  pc_le : m.pc.toNat ≤ 0x10fe
  target_le : ∀ target ∈ m.cells.toList, target.toNat ≤ Memory.size

/-- The machine `m` can go on as `next`. -/
structure Continues (m next : Machine) : Prop where
  sound : next.Sound
  status : next.status = m.status

/-- The machines differ in registers, memory, display and entropy alone. -/
structure SameControl (m next : Machine) : Prop where
  pc : next.pc = m.pc
  depth : next.depth = m.depth
  cells : next.cells = m.cells
  status : next.status = m.status

variable {m next : Machine}

theorem SameControl.continues (h : SameControl m next) (hm : m.Sound) : Continues m next where
  sound := ⟨h.depth ▸ hm.depth_le, h.pc ▸ hm.pc_le, h.cells ▸ hm.target_le⟩
  status := h.status

theorem SameControl.trans {last : Machine} (h : SameControl m next) (h' : SameControl next last) :
    SameControl m last :=
  ⟨h'.pc.trans h.pc, h'.depth.trans h.depth, h'.cells.trans h.cells, h'.status.trans h.status⟩

/-! ## Operations on the data -/

theorem sameControl_set (m : Machine) (x : Register) (b : Byte) : SameControl m (m.set x b) :=
  ⟨rfl, rfl, rfl, rfl⟩

theorem sameControl_setResult (m : Machine) (x : Register) (result : Byte × Option Byte) :
    SameControl m (m.setResult x result) := by
  rcases result with ⟨b, _ | flag⟩
  · exact sameControl_set m x b
  · exact (sameControl_set m x b).trans (sameControl_set _ flagRegister flag)

theorem sameControl_setFirst (m : Machine) (bytes : List Byte) :
    SameControl m (m.setFirst bytes) := by
  constructor <;> rw [setFirst]

theorem sameControl_write (m : Machine) (bytes : List Byte) : SameControl m (m.write bytes) :=
  ⟨rfl, rfl, rfl, rfl⟩

theorem sameControl_indexMoved (m : Machine) (x : Register) : SameControl m (m.indexMoved x) := by
  rw [indexMoved]
  split <;> exact ⟨rfl, rfl, rfl, rfl⟩

theorem sameControl_invertAll (m : Machine) (pixels : List (Nat × Nat)) :
    SameControl m (m.invertAll pixels) :=
  ⟨rfl, rfl, rfl, rfl⟩

theorem sameControl_load {program : List Byte} (h : m.load program = .ok next) :
    SameControl m next := by
  obtain ⟨-, rfl⟩ := load_eq_ok.mp h
  exact ⟨rfl, rfl, rfl, rfl⟩

theorem sameControl_afterGlyph {x : Register} (h : m.afterGlyph x = .ok next) :
    SameControl m next := by
  obtain ⟨-, rfl⟩ := check_eq_ok.mp h
  exact ⟨rfl, rfl, rfl, rfl⟩

theorem sameControl_afterDecimal {x : Register} (h : m.afterDecimal x = .ok next) :
    SameControl m next := by
  obtain ⟨-, rfl⟩ := check_eq_ok.mp h
  exact sameControl_write m _

theorem sameControl_afterStore {x : Register} (h : m.afterStore x = .ok next) :
    SameControl m next := by
  obtain ⟨-, rfl⟩ := check_eq_ok.mp h
  exact (sameControl_write m _).trans (sameControl_indexMoved _ x)

theorem sameControl_afterLoad {x : Register} (h : m.afterLoad x = .ok next) :
    SameControl m next := by
  obtain ⟨-, rfl⟩ := check_eq_ok.mp h
  exact (sameControl_setFirst m _).trans (sameControl_indexMoved _ x)

theorem sameControl_afterKey {x : Register} {key : Byte} (h : m.afterKey x key = .ok next) :
    SameControl m next := by
  obtain ⟨-, rfl⟩ := check_eq_ok.mp h
  exact sameControl_set m x key

/-! ## Operations on program counter and stack

The program counter is past the instruction, and so at most at the end of memory. -/

namespace Sound

theorem continues_goto (h : m.Sound) {target : Word} (htarget : target.toNat ≤ 0x10fe) :
    Continues m (m.goto target) :=
  ⟨⟨h.depth_le, htarget, h.target_le⟩, rfl⟩

theorem continues_passIf (h : m.Sound) (hpc : m.pc.toNat ≤ Memory.size) (condition : Bool) :
    Continues m (m.passIf condition) := by
  have hs : Memory.size = 4096 := rfl
  cases condition with
  | false => exact ⟨h, rfl⟩
  | true =>
    have hpass := toNat_pc_pass (m := m) (by omega)
    exact h.continues_goto (hpass.trans_le (by omega))

theorem continues_afterRet (h : m.Sound) (hnext : m.afterRet = .ok next) : Continues m next := by
  obtain ⟨-, rfl⟩ := check_eq_ok.mp hnext
  have hs : Memory.size = 4096 := rfl
  have hdepth := h.depth_le
  have hcell : m.depth - 1 < 16 := by
    rw [maxDepth] at hdepth
    omega
  have hmem : m.cells[m.depth - 1]?.getD 0 ∈ m.cells.toList := by
    rw [Vector.getElem?_eq_getElem hcell, Option.getD_some, Vector.mem_toList_iff]
    exact Vector.getElem_mem hcell
  have htarget := h.target_le _ hmem
  exact ⟨⟨by simp only [goto]; omega, by simp only [goto]; omega, h.target_le⟩, rfl⟩

theorem continues_afterCall {target : Address} (h : m.Sound) (hpc : m.pc.toNat ≤ Memory.size)
    (hnext : m.afterCall target = .ok next) : Continues m next := by
  obtain ⟨hfull, rfl⟩ := check_eq_ok.mp hnext
  have hdepth : m.depth + 1 ≤ maxDepth := Nat.lt_of_le_of_ne h.depth_le hfull
  have htarget := Word.toNat_ofAddress target
  refine ⟨⟨hdepth, by simp only [goto]; omega, ?_⟩, rfl⟩
  intro w hw
  simp only [goto, Vector.toList_setIfInBounds] at hw
  rcases List.mem_or_eq_of_mem_set hw with hold | rfl
  · exact h.target_le w hold
  · exact hpc

theorem continues_afterJump {target : Address} (h : m.Sound)
    (hnext : m.afterJump target = .ok next) : Continues m next := by
  obtain ⟨-, rfl⟩ := check_eq_ok.mp hnext
  have htarget := Word.toNat_ofAddress target
  exact h.continues_goto (by omega)

theorem continues_jumpOffset (h : m.Sound) (target : Address) (offset : Byte) :
    Continues m (m.goto (.ofNat (target.val + offset.toNat))) := by
  have hoffset := offset.toNat_lt
  refine h.continues_goto ?_
  rw [UInt16.toNat_ofNat']
  omega

/-! ## Instructions -/

theorem ensures_drawEffect {x y : Register} {height : Fin 16} {effect : Effect} (h : m.Sound)
    (heffect : m.drawEffect x y height = .ok effect) : effect.Ensures (Continues m) := by
  obtain ⟨-, rfl⟩ := check_eq_ok.mp heffect
  exact (sameControl_invertAll m _).continues h

theorem ensures_keyEffect {x : Register} {down : Bool} {effect : Effect} (h : m.Sound)
    (hpc : m.pc.toNat ≤ Memory.size) (heffect : m.keyEffect x down = .ok effect) :
    effect.Ensures (Continues m) := by
  rw [keyEffect] at heffect
  split at heffect <;> cases heffect
  exact fun answer => h.continues_passIf hpc (answer == down)

/-- After an instruction a sound machine goes on as a sound one, whatever the host answers. -/
theorem ensures_effectOf {i : Instruction} {effect : Effect} (h : m.Sound)
    (hpc : m.pc.toNat ≤ Memory.size) (heffect : m.effectOf i = .ok effect) :
    effect.Ensures (Continues m) := by
  cases i with
  | ret => exact Effect.ensures_of_map_quiet (fun _ => h.continues_afterRet) heffect
  | jump target => exact Effect.ensures_of_map_quiet (fun _ => h.continues_afterJump) heffect
  | call target => exact Effect.ensures_of_map_quiet (fun _ => h.continues_afterCall hpc) heffect
  | glyph x =>
    exact Effect.ensures_of_map_quiet (fun _ hn => (sameControl_afterGlyph hn).continues h) heffect
  | decimal x =>
    exact Effect.ensures_of_map_quiet (fun _ hn => (sameControl_afterDecimal hn).continues h)
      heffect
  | store x =>
    exact Effect.ensures_of_map_quiet (fun _ hn => (sameControl_afterStore hn).continues h) heffect
  | load x =>
    exact Effect.ensures_of_map_quiet (fun _ hn => (sameControl_afterLoad hn).continues h) heffect
  | draw x y height => exact h.ensures_drawEffect heffect
  | skipIfKey x | skipUnlessKey x => exact h.ensures_keyEffect hpc heffect
  | skipIfByte x k | skipUnlessByte x k | skipIfEqual x y | skipUnlessEqual x y =>
    cases heffect
    exact h.continues_passIf hpc _
  | jumpOffset target =>
    cases heffect
    exact h.continues_jumpOffset target _
  | setByte x k | addByte x k =>
    cases heffect
    exact (sameControl_set m x _).continues h
  | arith op x y =>
    cases heffect
    exact (sameControl_setResult m x _).continues h
  | readDelay x =>
    cases heffect
    exact fun value => (sameControl_set m x value).continues h
  | waitKey x =>
    cases heffect
    exact fun _ _ hnext => (sameControl_afterKey hnext).continues h
  | clearScreen | setIndex place | random x mask | setDelay x | setSound x | addIndex x =>
    cases heffect
    exact SameControl.continues ⟨rfl, rfl, rfl, rfl⟩ h

/-! ## Steps and runs -/

/-- A sound machine stays sound past an instruction that it can read. -/
theorem pass (h : m.Sound) (hreads : m.Reads) : m.pass.Sound ∧ m.pass.pc.toNat ≤ Memory.size := by
  have hs : Memory.size = 4096 := rfl
  have hpc := hreads.2
  have hpass := hreads.toNat_pc_pass
  exact ⟨(h.continues_goto (hpass.trans_le (by omega))).sound, by omega⟩

/-- The effect of the next instruction lets a sound machine go on as a sound one. -/
theorem ensures_effect {effect : Effect} (h : m.Sound) (heffect : m.effect = .ok effect) :
    effect.Ensures (Continues m.pass) := by
  obtain ⟨i, hfetch, hi⟩ := exists_fetches heffect
  obtain ⟨hpass, hpc⟩ := h.pass hfetch.1
  exact hpass.ensures_effectOf hpc hi

/-- The next machine is sound. It has the status of the one before, unless a fault halted it. -/
theorem turn {H : Type} [Host H] (h : m.Sound) (host : H) :
    (m.turn host).machine.Sound ∧
      (m.turn host).machine.status = ((m.turn host).fault.map Status.halted).getD m.status := by
  have hhalt (cause : Fault) : (m.halt cause).Sound := ⟨h.depth_le, h.pc_le, h.target_le⟩
  rw [Machine.turn]
  cases heffect : m.effect with
  | error cause => exact ⟨hhalt cause, rfl⟩
  | ok effect =>
    rw [Effect.attempt]
    rcases hperform : effect.perform host with ⟨cause | next, host'⟩
    · exact ⟨hhalt cause, rfl⟩
    · have hnext := (h.ensures_effect heffect).of_perform hperform
      exact ⟨hnext.sound, hnext.status⟩

/-- A step of a sound machine leads to a sound machine, whose status tells how the step ended. -/
theorem step {H : Type} [Host H] {host : H} {turn : Turn H} (h : m.Sound)
    (hstep : m.step host = .ok turn) :
    m.status = .running ∧ turn.machine.Sound ∧
      turn.machine.status = (turn.fault.map Status.halted).getD .running := by
  cases hstatus : m.status with
  | running =>
    rw [step_eq_turn hstatus h.depth_le] at hstep
    cases hstep
    exact ⟨rfl, hstatus ▸ h.turn host⟩
  | halted cause =>
    rw [step_of_halted hstatus] at hstep
    cases hstep

/-- A sound machine that runs can take a step on every host. -/
theorem exists_step {H : Type} [Host H] (h : m.Sound) (hstatus : m.status = .running) (host : H) :
    ∃ turn, m.step host = .ok turn :=
  ⟨_, step_eq_turn hstatus h.depth_le host⟩

end Sound

theorem sound_new (dialect : Dialect) (entropy : Entropy) : (new dialect entropy).Sound where
  depth_le := Nat.zero_le _
  pc_le := (by decide : (0x200 : Word).toNat ≤ 0x10fe)
  target_le target h := by
    have hcells : (new dialect entropy).cells.toList = List.replicate 16 0 := rfl
    rw [hcells] at h
    rw [List.eq_of_mem_replicate h]
    decide

theorem Run.sound {results : List (Option Fault)} (h : Run results m) : m.Sound := by
  induction h with
  | new dialect entropy => exact sound_new dialect entropy
  | load _ hload ih => exact ((sameControl_load hload).continues ih).sound
  | step _ hstep ih => exact (ih.step hstep).2.1

theorem Reachable.sound (h : m.Reachable) : m.Sound :=
  h.elim fun _ hrun => hrun.sound

/-- A program that fits boots, and its words are the next ones. -/
theorem exists_boot (dialect : Dialect) (entropy : Entropy) (program : List Byte)
    (h : program.length ≤ Memory.programRoom) :
    ∃ m, boot dialect entropy program = .ok m ∧ m.Reachable ∧ m.status = .running ∧
      m.depth = 0 ∧ m.index = 0 ∧ m.dialect = dialect ∧ m.pc.toNat = Memory.programBase ∧
      ∀ i (hi : i + 1 < program.length),
        m.memory.word (Memory.programBase + i) = Word.ofBytes program[i] program[i + 1] := by
  have hboot : boot dialect entropy program =
      .ok { new dialect entropy with memory := Memory.initial.put Memory.programBase program } :=
    load_of_fits h
  refine ⟨_, hboot, ⟨[], .load (.new dialect entropy) hboot⟩, rfl, rfl, rfl, rfl, rfl, ?_⟩
  intro i hi
  have hsize : Memory.programBase + Memory.programRoom = Memory.size := rfl
  exact Memory.word_put _ hi (by omega)

/-- The word at the program counter is that of an instruction. -/
theorem fetches_of_pc {a : Nat} {i : Instruction} (hpc : m.pc.toNat = a)
    (ha : 0x200 ≤ a ∧ a < 0xfff) (hword : m.memory.word a = i.encode) : m.Fetches i := by
  subst hpc
  exact ⟨ha, hword⟩

/-- The word zero is no instruction. -/
theorem turn_of_zero {H : Type} [Host H] {a : Nat} (hpc : m.pc.toNat = a)
    (ha : 0x200 ≤ a ∧ a < 0xfff) (hword : m.memory.word a = 0) (host : H) :
    m.turn host = ⟨m.halt .illegalInstruction, host, some .illegalInstruction⟩ := by
  subst hpc
  have hreads : m.Reads := ha
  have hzero : m.word = 0 := hword
  have heffect : m.effect = .error .illegalInstruction := by
    rw [effect, if_neg hreads.not_lt, if_neg hreads.not_le, hzero]
    rfl
  rw [turn, heffect]
  rfl

/-- A program of one instruction boots, and the instruction is the next one. -/
theorem boot_instruction (dialect : Dialect) (entropy : Entropy) (high low : Byte)
    {i : Instruction} (h : Word.ofBytes high low = i.encode) :
    ∃ m, boot dialect entropy [high, low] = .ok m ∧ m.Reachable ∧ m.status = .running ∧
      m.depth = 0 ∧ m.index = 0 ∧ m.Fetches i := by
  obtain ⟨m, hboot, hm, hstatus, hdepth, hindex, -, hpc, hwords⟩ :=
    exists_boot dialect entropy [high, low] (Nat.le_of_lt (show 2 < Memory.programRoom by decide))
  exact ⟨m, hboot, hm, hstatus, hdepth, hindex,
    fetches_of_pc hpc (by decide) ((hwords 0 Nat.one_lt_two).trans h)⟩

end Machine
end Chip8
