import Chip8.Proofs.Dialects
import Chip8.Proofs.Footprint
import Mathlib.Data.Set.Basic

/-!
# Memory that is not read

A step reads the two bytes at its program counter; a drawing instruction reads the rows of its
sprite that lie on the display, and a transfer to registers reads what it loads. The step of a
machine with another memory that agrees on those bytes has the same outcome and makes the same
calls, and what it writes is the same too. So a set of bytes that a run does not read can only
become smaller: the bytes that are written leave it.
-/
namespace Chip8

def Instruction.Consults (m : Machine) (a : Nat) : Instruction → Prop
  | draw _ y height => m.index.toNat ≤ a ∧ a < m.index.toNat + m.spriteHeight y height
  | load x => m.index.toNat ≤ a ∧ a ≤ m.index.toNat + x.val
  | _ => False

/-- Every machine that goes on from an effect is one that a map leaves alone, if the map leaves the
effect alone. -/
theorem Effect.ensures_of_map_eq {f : Machine → Machine} {effect : Effect}
    (h : effect.map f = effect) : effect.Ensures fun next => f next = next := by
  cases effect with
  | proceed notices next =>
    injection h
  | readDelay resume =>
    injection h with hresume
    exact congrFun hresume
  | testKey key resume =>
    injection h with _ hresume
    exact congrFun hresume
  | waitKey resume =>
    injection h with hresume
    intro key next hnext
    have hkey := congrFun hresume key
    rw [hnext] at hkey
    exact Except.ok.inj hkey

namespace Machine

def withMemory (memory : Memory) (m : Machine) : Machine :=
  { m with memory }

def stored (m : Machine) (memory : Memory) : Instruction → Memory
  | .decimal x => memory.put m.index.toNat (decimalDigits (m.reg x))
  | .store x => memory.put m.index.toNat (m.first x)
  | _ => memory

def Consults (m : Machine) (a : Nat) : Prop :=
  a = m.pc.toNat ∨ a = m.pc.toNat + 1 ∨ ∃ i, m.Fetches i ∧ i.Consults m a

/-- Whether the next instruction writes the byte at an address, if it raises no fault. -/
def Writes (m : Machine) (a : Nat) : Prop :=
  ∃ i, m.Fetches i ∧ i.Writes m.index.toNat a

/-- What the next instruction makes of a memory, if it raises no fault. -/
def memoryAfter (m : Machine) (memory : Memory) : Memory :=
  match Instruction.decode m.word with
  | some i => m.stored memory i
  | none => memory

/-- The machines are equal except for the bytes at some addresses. -/
structure EqualOff (addresses : Set Nat) (m m' : Machine) : Prop where
  rest : m' = m.withMemory m'.memory
  get : ∀ a, a ∉ addresses → m'.memory.get a = m.memory.get a

variable {m m' : Machine} {memory : Memory} {i : Instruction}

/-! ## Single instructions -/

theorem get_stored {a : Nat} (h : memory.get a = m.memory.get a ∨ i.Writes m.index.toNat a) :
    (m.stored memory i).get a = (m.stored m.memory i).get a := by
  cases i with
  | decimal x =>
    refine Memory.get_put_congr (h.imp_right ?_)
    rintro ⟨hle, hlt⟩
    exact ⟨hle, Nat.lt_succ_of_le hlt⟩
  | store x =>
    refine Memory.get_put_congr (h.imp_right ?_)
    rintro ⟨hle, hlt⟩
    rw [length_first]
    exact ⟨hle, Nat.lt_succ_of_le hlt⟩
  | _ => exact h.resolve_right fun hwrites => hwrites

theorem setResult_withMemory (m : Machine) (x : Register) (result : Byte × Option Byte) :
    (m.withMemory memory).setResult x result = (m.setResult x result).withMemory memory := by
  rcases result with ⟨b, _ | flag⟩ <;> rfl

theorem passIf_withMemory (m : Machine) (condition : Bool) :
    (m.withMemory memory).passIf condition = (m.passIf condition).withMemory memory := by
  cases condition <;> rfl

theorem indexMoved_withMemory (m : Machine) (x : Register) :
    (m.withMemory memory).indexMoved x = (m.indexMoved x).withMemory memory := by
  have hdialect : (m.withMemory memory).dialect = m.dialect := rfl
  rw [indexMoved, indexMoved, hdialect]
  split <;> rfl

/-- A sprite covers the same pixels if its rows on the display are the same. -/
theorem covered_withMemory {x y : Register} {height : Fin 16}
    (h : ∀ a, (Instruction.draw x y height).Consults m a → memory.get a = m.memory.get a) :
    (m.withMemory memory).covered x y height = m.covered x y height := by
  apply List.filter_congr
  rintro ⟨px, py⟩ hp
  have hpy := (Display.mem_places.mp hp).2
  have hcorner : (m.withMemory memory).spriteColumn x = m.spriteColumn x ∧
    (m.withMemory memory).spriteRow y = m.spriteRow y := ⟨rfl, rfl⟩
  rw [covers, covers, hcorner.1, hcorner.2, Bool.eq_iff_iff, Bool.and_eq_true, Bool.and_eq_true]
  refine and_congr_right fun hin => ?_
  obtain ⟨-, -, hle, hlt⟩ := of_decide_eq_true hin
  have hrow : (Instruction.draw x y height).Consults m (m.index.toNat + (py - m.spriteRow y)) := by
    refine ⟨Nat.le_add_right .., Nat.add_lt_add_left (Nat.lt_min.mpr ⟨?_, ?_⟩) _⟩
    · omega
    · exact Nat.sub_lt_sub_right hle hpy
  rw [← h _ hrow]
  rfl

/-- An instruction has the same effect on a machine whose memory agrees on what it reads. -/
theorem effectOf_withMemory (h : ∀ a, i.Consults m a → memory.get a = m.memory.get a) :
    (m.withMemory memory).effectOf i =
      (m.effectOf i).map (Effect.map (withMemory (m.stored memory i))) := by
  cases i with
  | clearScreen | setByte x k | addByte x k | setIndex place | jumpOffset target | random x mask
  | readDelay x | setDelay x | setSound x | addIndex x => rfl
  | skipIfByte x k | skipUnlessByte x k | skipIfEqual x y | skipUnlessEqual x y =>
    exact congrArg (fun next => Except.ok (Effect.quiet next)) (passIf_withMemory m _)
  | arith op x y =>
    exact congrArg (fun next => Except.ok (Effect.quiet next)) (setResult_withMemory m x _)
  | skipIfKey x | skipUnlessKey x =>
    have hreg : (m.withMemory memory).reg x = m.reg x := rfl
    simp only [effectOf, keyEffect, hreg, passIf_withMemory]
    split <;> rfl
  | waitKey x =>
    have hkey (key : Byte) :
        (m.withMemory memory).afterKey x key = (m.afterKey x key).map (withMemory memory) := by
      rw [afterKey, afterKey, map_check]
      rfl
    simp only [effectOf, hkey]
    rfl
  | ret | jump target | call target | glyph x | decimal x =>
    simp only [effectOf, afterRet, afterJump, afterCall, afterGlyph, afterDecimal, map_quiet_check]
    rfl
  | draw x y height =>
    rw [effectOf, effectOf, drawEffect, drawEffect, map_check, covered_withMemory h]
    rfl
  | store x =>
    rw [effectOf, effectOf, afterStore, afterStore, map_quiet_check, ← indexMoved_withMemory]
    rfl
  | load x =>
    have hslice : memory.slice m.index.toNat (x.val + 1) =
        m.memory.slice m.index.toNat (x.val + 1) :=
      Memory.slice_congr fun a hle hlt => h a ⟨hle, Nat.le_of_lt_succ hlt⟩
    rw [effectOf, effectOf, afterLoad, afterLoad, map_quiet_check, ← indexMoved_withMemory,
      ← hslice]
    rfl

/-! ## The next instruction -/

theorem consults_pass {a : Nat} : i.Consults m.pass a ↔ i.Consults m a := by
  cases i <;> exact Iff.rfl

theorem stored_pass : m.pass.stored memory i = m.stored memory i := by
  cases i <;> rfl

theorem word_withMemory (h : ∀ a, m.Consults a → memory.get a = m.memory.get a) :
    (m.withMemory memory).word = m.word :=
  Memory.word_congr (h _ (.inl rfl)) (h _ (.inr (.inl rfl)))

theorem fetches_withMemory (h : ∀ a, m.Consults a → memory.get a = m.memory.get a) :
    (m.withMemory memory).Fetches i ↔ m.Fetches i := by
  rw [Fetches, Fetches, word_withMemory h]
  rfl

theorem memoryAfter_eq (hfetch : m.Fetches i) (memory : Memory) :
    m.memoryAfter memory = m.stored memory i := by
  rw [memoryAfter, hfetch.decode_word]

theorem get_memoryAfter {a : Nat} (h : memory.get a = m.memory.get a ∨ m.Writes a) :
    (m.memoryAfter memory).get a = (m.memoryAfter m.memory).get a := by
  rcases h with hsame | ⟨i, hfetch, hwrites⟩
  · rw [memoryAfter, memoryAfter]
    split
    · exact get_stored (.inl hsame)
    · exact hsame
  · rw [memoryAfter_eq hfetch, memoryAfter_eq hfetch, get_stored (.inr hwrites)]

/-- The next instruction has the same effect on a machine whose memory agrees on what it reads. -/
theorem effect_withMemory (h : ∀ a, m.Consults a → memory.get a = m.memory.get a) :
    (m.withMemory memory).effect =
      m.effect.map (Effect.map (withMemory (m.memoryAfter memory))) := by
  refine effect_map rfl (word_withMemory h) fun i hfetch => ?_
  have hpass (a : Nat) (ha : i.Consults m.pass a) : memory.get a = m.pass.memory.get a :=
    h a (.inr (.inr ⟨i, hfetch, consults_pass.mp ha⟩))
  rw [memoryAfter_eq hfetch, ← stored_pass]
  exact effectOf_withMemory hpass

/-- What the next instruction makes of memory does not depend on the host. -/
theorem ensures_memoryAfter {effect : Effect} (h : m.effect = .ok effect) :
    effect.Ensures fun next => next.memory = m.memoryAfter m.memory := by
  have hself : m.effect = m.effect.map (Effect.map (withMemory (m.memoryAfter m.memory))) :=
    effect_withMemory fun _ _ => rfl
  rw [h] at hself
  refine (Effect.ensures_of_map_eq (Except.ok.inj hself).symm).mono fun next hnext => ?_
  rw [← hnext]
  rfl

/-! ## The step -/

section Step

variable {H : Type} [Host H]

theorem turn_withMemory (h : ∀ a, m.Consults a → memory.get a = m.memory.get a) (host : H) :
    ∃ memory', (m.withMemory memory).turn host =
        { m.turn host with machine := (m.turn host).machine.withMemory memory' } ∧
      ∀ a, memory.get a = m.memory.get a ∨ (m.turn host).fault = none ∧ m.Writes a →
        memory'.get a = (m.turn host).machine.memory.get a := by
  have heffect' := effect_withMemory h
  cases heffect : m.effect with
  | error cause =>
    rw [heffect] at heffect'
    rw [turn, turn, heffect, heffect']
    refine ⟨memory, rfl, ?_⟩
    rintro a (hsame | ⟨⟨⟩, -⟩)
    exact hsame
  | ok effect =>
    rw [heffect] at heffect'
    rw [turn, turn, heffect, heffect', Except.map, Effect.attempt, Effect.attempt,
      Effect.perform_map]
    rcases hperform : effect.perform host with ⟨cause | next, host'⟩
    · refine ⟨memory, rfl, ?_⟩
      rintro a (hsame | ⟨⟨⟩, -⟩)
      exact hsame
    · refine ⟨m.memoryAfter memory, rfl, ?_⟩
      intro a ha
      have hmemory : next.memory = m.memoryAfter m.memory :=
        (ensures_memoryAfter heffect).of_perform hperform
      change _ = next.memory.get a
      rw [hmemory]
      exact get_memoryAfter (ha.imp_right And.right)

/-- A machine whose stack is not too deep for its next instruction is so with another memory. -/
theorem Shallow.withMemory (hshallow : m.Shallow)
    (h : ∀ a, m.Consults a → memory.get a = m.memory.get a) : (m.withMemory memory).Shallow := by
  intro i hfetch
  exact hshallow i ((fetches_withMemory h).mp hfetch)

/-- A machine that takes no turn commits the same violation whatever else memory holds. -/
theorem violation_withMemory (h : ∀ a, m.Consults a → memory.get a = m.memory.get a)
    (hstuck : m.status = .running → ¬ m.Shallow) :
    ∃ cause, ∀ {H : Type} [Host H] (host : H),
      m.step host = .error cause ∧ (m.withMemory memory).step host = .error cause := by
  cases hstatus : m.status with
  | halted cause =>
    have hstatus' : (m.withMemory memory).status = .halted cause := hstatus
    exact ⟨.halted, fun host => ⟨step_of_halted hstatus host, step_of_halted hstatus' host⟩⟩
  | running =>
    have hdeep := hstuck hstatus
    rw [Shallow] at hdeep
    push Not at hdeep
    obtain ⟨i, hfetch, hnests, hdepth⟩ := hdeep
    obtain ⟨cause, hviolates⟩ := World.run_execute_of_deep hnests hdepth
    refine ⟨cause, fun host => ?_⟩
    obtain ⟨w, hrun⟩ := hviolates m.pass host rfl
    obtain ⟨w', hrun'⟩ := hviolates (m.withMemory memory).pass host rfl
    exact ⟨hfetch.step_of_violation hstatus hrun,
      ((fetches_withMemory h).mpr hfetch).step_of_violation hstatus hrun'⟩

end Step

end Machine

/-! ## Walks -/

variable {H : Type} [Host H]

def Leg.written (leg : Leg H) : Set Nat :=
  { a | leg.turn.fault = none ∧ leg.machine.Writes a }

/-- Two steps from equal hosts that can be told apart by the memories of their machines alone. -/
structure Leg.Echoes (leg leg' : Leg H) : Prop where
  source : leg'.machine = leg.machine.withMemory leg'.machine.memory
  host : leg'.host = leg.host
  calls : leg'.calls = leg.calls
  fault : leg'.turn.fault = leg.turn.fault
  target : leg'.turn.machine = leg.turn.machine.withMemory leg'.turn.machine.memory
  after : leg'.turn.host = leg.turn.host

namespace Machine

variable {m m' : Machine} {memory : Memory} {addresses : Set Nat}

/-- A step has the same result and the same calls for two machines that are equal except for the
bytes at some addresses, and leaves them equal except for those of these that it does not write. -/
structure StepsAlike (addresses : Set Nat) (m m' : Machine) (host : H) : Prop where
  calls : m'.calls host = m.calls host
  violation : ∀ cause, m.step host = .error cause → m'.step host = .error cause
  turn : ∀ turn, m.step host = .ok turn → ∃ machine,
    m'.step host = .ok ⟨machine, turn.host, turn.fault⟩ ∧
      EqualOff (addresses \ Leg.written ⟨m, host, turn⟩) turn.machine machine

/-- Two machines that commit the same violation on every host step alike. -/
theorem StepsAlike.of_violation {cause : Violation}
    (h : ∀ {H : Type} [Host H] (host : H), m.step host = .error cause ∧ m'.step host = .error cause)
    (host : H) : StepsAlike addresses m m' host := by
  obtain ⟨hstep, hstep'⟩ := h host
  obtain ⟨hjournal, hjournal'⟩ := h (⟨host, []⟩ : Journal H)
  refine ⟨?_, ?_, ?_⟩
  · rw [Machine.calls, Machine.calls, hjournal, hjournal']
  · intro own hown
    exact hstep'.trans (hstep.symm.trans hown)
  · intro turn hok
    rw [hstep] at hok
    cases hok

/-- A machine that takes its turn steps like one whose memory agrees on what the turn reads. -/
theorem Shallow.stepsAlike (hshallow : m.Shallow) (hstatus : m.status = .running)
    (hget : ∀ a, a ∉ addresses → memory.get a = m.memory.get a)
    (hsame : ∀ a, m.Consults a → memory.get a = m.memory.get a) (host : H) :
    StepsAlike addresses m (m.withMemory memory) host := by
  have hshallow' := hshallow.withMemory hsame
  have hstatus' : (m.withMemory memory).status = .running := hstatus
  have hstep := hshallow.step_eq_turn hstatus host
  have hstep' := hshallow'.step_eq_turn hstatus' host
  obtain ⟨memory', hturn, hwritten⟩ := turn_withMemory hsame host
  refine ⟨?_, ?_, ?_⟩
  · rw [hshallow.calls_eq hstatus, hshallow'.calls_eq hstatus', effect_withMemory hsame]
    cases m.effect with
    | error cause => rfl
    | ok effect => exact Effect.calls_map _ effect host
  · intro cause herror
    rw [hstep] at herror
    cases herror
  · intro turn hok
    rw [hstep] at hok
    cases hok
    refine ⟨(m.turn host).machine.withMemory memory', hstep'.trans (congrArg _ hturn), rfl, ?_⟩
    intro a ha
    apply hwritten a
    by_cases hmem : a ∈ addresses
    · exact .inr (by_contra fun hout => ha ⟨hmem, hout⟩)
    · exact .inl (hget a hmem)

/-- A step that does not read the bytes in which two machines differ is the same for both. -/
theorem EqualOff.stepsAlike (h : EqualOff addresses m m')
    (hunread : ∀ a ∈ addresses, ¬ m.Consults a) (host : H) : StepsAlike addresses m m' host := by
  obtain ⟨hrest, hget⟩ := h
  generalize m'.memory = memory at hrest hget
  subst hrest
  have hsame (a : Nat) (ha : m.Consults a) : memory.get a = m.memory.get a :=
    hget a fun hmem => hunread a hmem ha
  by_cases hturn : m.status = .running ∧ m.Shallow
  · exact hturn.2.stepsAlike hturn.1 hget hsame host
  · obtain ⟨cause, hviolates⟩ :=
      violation_withMemory hsame fun hstatus hshallow => hturn ⟨hstatus, hshallow⟩
    exact .of_violation hviolates host

/-- The addresses of a set that no step of a walk writes. -/
def unwritten (addresses : Set Nat) (legs : List (Leg H)) : Set Nat :=
  legs.foldl (fun rest leg => rest \ leg.written) addresses

/-- No step of a walk reads a byte of the set that no step before it writes. -/
def Unread (addresses : Set Nat) : List (Leg H) → Prop
  | [] => True
  | leg :: legs =>
    (∀ a ∈ addresses, ¬ leg.machine.Consults a) ∧ Unread (addresses \ leg.written) legs

/-- A walk that does not read some bytes can be taken whatever they are. -/
theorem EqualOff.walk {m₁ : Machine} {host host₁ : H} {legs : List (Leg H)}
    (h : EqualOff addresses m m') (hwalk : m.Walk host legs m₁ host₁)
    (hunread : Unread addresses legs) :
    ∃ legs' m₁', m'.Walk host legs' m₁' host₁ ∧ List.Forall₂ Leg.Echoes legs legs' ∧
      EqualOff (unwritten addresses legs) m₁ m₁' := by
  induction hwalk generalizing m' addresses with
  | nil m host => exact ⟨[], m', .nil .., .nil, h⟩
  | @cons m m₁ host host₁ turn legs hstep _ ih =>
    obtain ⟨hfirst, hrest⟩ := hunread
    have hsteps := h.stepsAlike hfirst host
    obtain ⟨machine, hstep', hequal⟩ := hsteps.turn turn hstep
    obtain ⟨legs', m₁', hwalk', hechoes, hend⟩ := ih hequal hrest
    have hecho : Leg.Echoes ⟨m, host, turn⟩ ⟨m', host, machine, turn.host, turn.fault⟩ :=
      ⟨h.rest, rfl, hsteps.calls, rfl, hequal.rest, rfl⟩
    exact ⟨_ :: legs', m₁', .cons hstep' hwalk', .cons hecho hechoes, hend⟩

/-- Two machines that are equal except for some bytes take the same step on the same host if the
step does not read these bytes, and afterwards they are equal except for those of them that it did
not write. Two walks are the same as long as no step reads a byte that is left. -/
theorem unread_irrelevant (h : EqualOff addresses m m') (host : H) :
    ((∀ a ∈ addresses, ¬ m.Consults a) → StepsAlike addresses m m' host) ∧
    ∀ {legs : List (Leg H)} {m₁ host₁}, m.Walk host legs m₁ host₁ → Unread addresses legs →
      ∃ legs' m₁', m'.Walk host legs' m₁' host₁ ∧ List.Forall₂ Leg.Echoes legs legs' ∧
        EqualOff (unwritten addresses legs) m₁ m₁' := by
  constructor
  · intro hunread
    exact h.stepsAlike hunread host
  · intro legs m₁ host₁ hwalk hunread
    exact h.walk hwalk hunread

/-- A program that stores a register over the first byte of the font notices neither what was there
nor what the second byte is. -/
theorem font_bytes_unread :
    ∃ (m m' : Machine) (turn turn' : Turn Recorder),
      boot .cosmac (.cycle []) [0xf0, 0x55] = .ok m ∧
        m' = m.withMemory (m.memory.put 0 [1, 2]) ∧ m.step ({} : Recorder) = .ok turn ∧
        m'.step ({} : Recorder) = .ok turn' ∧ turn.fault = none ∧ turn'.fault = none ∧
        turn'.machine.memory.get 0 = turn.machine.memory.get 0 := by
  obtain ⟨m, hboot, hm, hstatus, -, hindex, hfetch⟩ :=
    boot_instruction (i := .store (lastDigit 0)) .cosmac (.cycle []) 0xf0 0x55 (by decide)
  have hequal : EqualOff {a | a < 2} m (m.withMemory (m.memory.put 0 [1, 2])) := by
    refine ⟨rfl, fun a ha => Memory.get_put_of_outside (.inr ?_)⟩
    exact Nat.not_lt.mp ha
  have hunread : ∀ a ∈ {a | a < 2}, ¬ m.Consults a := by
    intro a ha hread
    have hpc := hfetch.1.1
    have hlt : a < 2 := ha
    rcases hread with heq | heq | ⟨i, hi, hconsults⟩
    · omega
    · omega
    · cases hfetch.unique hi
      exact hconsults
  obtain ⟨hsteps, -⟩ := unread_irrelevant hequal ({} : Recorder)
  have hstep := step_eq_turn hstatus hm.sound.depth_le ({} : Recorder)
  obtain ⟨machine, hstep', hafter⟩ := (hsteps hunread).turn _ hstep
  have hnone : (m.turn ({} : Recorder)).fault = none := by
    have hroom : ¬ Memory.size ≤ m.pass.index.toNat + (lastDigit 0).val := by
      change ¬ Memory.size ≤ m.index.toNat + (lastDigit 0).val
      rw [hindex]
      decide
    rw [turn_quiet (hfetch.effect_eq.trans (congrArg (Except.map Effect.quiet) (if_neg hroom)))]
  refine ⟨m, _, _, _, hboot, rfl, hstep, hstep', hnone, hnone, hafter.get 0 ?_⟩
  rintro ⟨-, hout⟩
  refine hout ⟨hnone, _, hfetch, ?_, Nat.zero_le _⟩
  rw [hindex]
  exact Nat.le_refl 0

end Machine
end Chip8
