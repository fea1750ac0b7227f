import Chip8.Proofs.Path
import Chip8.Proofs.Taxonomy
import Chip8.Proofs.Walk

/-!
# Code without jumps ends

An instruction that does not continue at an address of its own moves the program counter forward by
two or by four bytes, and an instruction is only read below the last byte of memory. So the way that
is left to the end of memory bounds the steps that can be taken before the next jump, call or
return, also if the code writes over itself. A machine that takes no such step halts.
-/
namespace Chip8

/-- The step carries out an instruction that does not continue at an address of its own. -/
def Stride.GoesOn (s : Stride) : Prop :=
  s.fault = none ∧ ∀ i, s.source.Fetches i → i.jumps = false

/-- A step that goes on starts where an instruction can be read and moves the program counter
forward. -/
theorem Stride.Taken.pc_of_goesOn {s : Stride} (h : s.Taken) (hsource : s.source.Sound)
    (hgoes : s.GoesOn) :
    s.source.pc.toNat < 0xfff ∧ s.source.pc.toNat + 2 ≤ s.target.pc.toNat := by
  obtain ⟨i, hfetch, hfootprint⟩ := h.exists_footprint hsource hgoes.1
  have hmoved := hfootprint.pc (hgoes.2 i hfetch)
  exact ⟨hfetch.1.2, by omega⟩

/-- A step on a host, without the host. -/
def Leg.stride {H : Type} (leg : Leg H) : Stride :=
  ⟨leg.machine, leg.turn.fault, leg.turn.machine⟩

namespace Machine

variable {m m' : Machine}

/-- Twice the number of steps that go on is no more than the bytes that were left. -/
theorem Path.two_mul_length_le {strides : List Stride} (h : Path m strides m') (hm : m.Sound)
    (hgoes : ∀ s ∈ strides, s.GoesOn) : 2 * strides.length ≤ 0x1000 - m.pc.toNat := by
  induction h with
  | nil => exact Nat.zero_le _
  | @cons s strides m' htaken _ ih =>
    obtain ⟨hfirst, hrest⟩ := List.forall_mem_cons.mp hgoes
    have hle := ih (htaken.sound hm) hrest
    have hpc := htaken.pc_of_goesOn hm hfirst
    rw [List.length_cons]
    omega

section Walk

variable {H : Type} [Host H] {host host' : H} {legs : List (Leg H)}

/-- A walk is a path that keeps to one host. -/
theorem Walk.path (h : m.Walk host legs m' host') : Path m (legs.map Leg.stride) m' := by
  induction h with
  | nil m host => exact .nil m
  | cons hstep _ ih => exact .cons_of_step hstep ih

/-- Every machine comes to a step that does not go on. -/
theorem exists_last_step (hm : m.Sound) (hstatus : m.status = .running) (host : H) :
    ∃ legs m' host', m.Walk host legs m' host' ∧ (∀ leg ∈ legs, leg.stride.GoesOn) ∧
      m'.Sound ∧ m'.status = .running ∧ m.pc.toNat ≤ m'.pc.toNat ∧
      ¬ (Leg.stride ⟨m', host', m'.turn host'⟩).GoesOn := by
  -- the bytes that are left bound the recursion
  induction hleft : 0x1000 - m.pc.toNat using Nat.strong_induction_on generalizing m host with
  | _ left ih =>
    by_cases hgoes : (Leg.stride ⟨m, host, m.turn host⟩).GoesOn
    · have hstep := step_eq_turn hstatus hm.depth_le host
      have hpc : m.pc.toNat < 0xfff ∧ m.pc.toNat + 2 ≤ (m.turn host).machine.pc.toNat :=
        (Stride.taken_of_step hstep).pc_of_goesOn hm hgoes
      obtain ⟨-, hsound, hrunning⟩ := hm.step hstep
      have hnone : (m.turn host).fault = none := hgoes.1
      rw [hnone] at hrunning
      obtain ⟨legs, m', host', hwalk, hall, hsound', hstatus', hle, hlast⟩ :=
        ih _ (by omega) hsound hrunning (m.turn host).host rfl
      exact ⟨_, m', host', .cons hstep hwalk, List.forall_mem_cons.mpr ⟨hgoes, hall⟩, hsound',
        hstatus', by omega, hlast⟩
    · exact ⟨[], m, host, .nil m host, List.forall_mem_nil _, hm, hstatus, Nat.le_refl _, hgoes⟩

/-- On its way on a host the machine carries out no jump, no call and no return. -/
def NeverJumps (m : Machine) (host : H) : Prop :=
  ∀ legs m' host' turn, m.Walk host legs m' host' → m'.step host' = .ok turn →
    turn.fault = none → ∀ i, m'.Fetches i → i.jumps = false

end Walk

/-- From the machine there are at most `limit` steps in a row that go on, on any hosts. If it never
jumps, the step after them at the latest halts it; that is the end of memory, unless a word was read
and failed. -/
structure EndsWithin (m : Machine) (limit : Nat) : Prop where
  length_le : ∀ {strides m'}, Path m strides m' → (∀ s ∈ strides, s.GoesOn) →
    strides.length ≤ limit
  halts : ∀ {H : Type} [Host H] (host : H), m.NeverJumps host →
    ∃ legs last host' turn cause, m.Walk host legs last host' ∧ legs.length ≤ limit ∧
      (∀ leg ∈ legs, leg.turn.fault = none) ∧ last.step host' = .ok turn ∧
      turn.fault = some cause ∧ turn.machine.status = .halted cause ∧
      (cause = .pcOverflow ↔ ¬ last.Reads)

/-- A sound machine in the program area takes at most one step for every two bytes that are left. -/
theorem Sound.endsWithin (hm : m.Sound) (hstatus : m.status = .running)
    (hpc : 0x200 ≤ m.pc.toNat) : EndsWithin m ((0x1000 - m.pc.toNat) / 2) := by
  have hbound {strides : List Stride} {m' : Machine} (hpath : Path m strides m')
      (hgoes : ∀ s ∈ strides, s.GoesOn) : strides.length ≤ (0x1000 - m.pc.toNat) / 2 := by
    have hle := hpath.two_mul_length_le hm hgoes
    omega
  refine ⟨hbound, fun host hnever => ?_⟩
  obtain ⟨legs, last, host', hwalk, hall, hsound, hrunning, hle, hlast⟩ :=
    exists_last_step hm hstatus host
  have hstep := step_eq_turn hrunning hsound.depth_le host'
  have hfaults : (last.turn host').fault ≠ none := fun hnone =>
    hlast ⟨hnone, hnever legs last host' _ hwalk hstep hnone⟩
  obtain ⟨cause, hcause⟩ := Option.ne_none_iff_exists'.mp hfaults
  have hlength := hbound hwalk.path (List.forall_mem_map.mpr hall)
  have hhalted := (hsound.step hstep).2.2
  rw [hcause] at hhalted
  refine ⟨legs, last, host', _, cause, hwalk, (List.length_map _).symm.trans_le hlength,
    fun leg hleg => (hall leg hleg).1, hstep, hcause, hhalted, ?_, ?_⟩
  · rintro rfl hreads
    exact hreads.not_le ((fault_turn_eq_some last host' _).mp hcause)
  · intro hreads
    have hover : 0xfff ≤ last.pc.toNat :=
      Nat.le_of_not_lt fun hlt => hreads ⟨hpc.trans hle, hlt⟩
    have hraised := (fault_turn_eq_some last host' .pcOverflow).mpr hover
    exact Option.some.inj (hcause.symm.trans hraised)

/-- In a row a machine takes at most one step that neither jumps nor calls nor returns for every two
bytes from its program counter to the end of memory. A machine with a fresh program that takes no
other step halts on step 1793 at the latest, at the end of memory unless a word failed. -/
theorem straight_code_ends :
    (∀ m : Machine, m.Reachable → m.status = .running → 0x200 ≤ m.pc.toNat →
        m.pc.toNat ≤ 0xffe → EndsWithin m ((0x1000 - m.pc.toNat) / 2)) ∧
      ∀ (dialect : Dialect) (entropy : Entropy) (program : List Byte) (m : Machine),
        boot dialect entropy program = .ok m → EndsWithin m 1792 := by
  constructor
  · intro m hm hstatus hlow _
    exact hm.sound.endsWithin hstatus hlow
  · intro dialect entropy program m hboot
    have hm : m.Reachable := ⟨[], .load (.new dialect entropy) hboot⟩
    have hcontrol := sameControl_load hboot
    have hpc : m.pc.toNat = 0x200 := by
      rw [hcontrol.pc]
      rfl
    have hends := hm.sound.endsWithin hcontrol.status hpc.ge
    rwa [hpc] at hends

/-- Every word that can be read is that of one instruction. -/
def Repeats (m : Machine) (i : Instruction) : Prop :=
  ∀ a, 0x200 ≤ a → a < 0xfff → m.memory.word a = i.encode

/-- A machine that repeats an instruction keeps doing so if the instruction writes nothing. -/
theorem Repeats.walk {i : Instruction} {H : Type} [Host H] {host host' : H} {legs : List (Leg H)}
    (h : m.Repeats i) (hm : m.Sound) (hwrites : ∀ index a, ¬ i.Writes index a)
    (hwalk : m.Walk host legs m' host') : m'.Repeats i := by
  induction hwalk with
  | nil => exact h
  | @cons m m' host host' turn legs hstep _ ih =>
    refine ih (fun a hlow hhigh => ?_) (hm.step hstep).2.1
    obtain ⟨cause, -, hhalted⟩ | ⟨hnone, -⟩ := (Stride.taken_of_step hstep).cases hm
    · have hmemory : turn.machine.memory = (m.halt cause).memory :=
        congrArg Machine.memory hhalted
      rw [hmemory]
      exact h a hlow hhigh
    · obtain ⟨j, hfetch, hfootprint⟩ := (Stride.taken_of_step hstep).exists_footprint hm hnone
      obtain rfl : j = i := by
        have hword := h m.pc.toNat hfetch.1.1 hfetch.1.2
        exact hfetch.unique ⟨hfetch.1, hword⟩
      have hsize : a + 1 < Memory.size := Nat.add_lt_add_right hhigh 1
      rw [← h a hlow hhigh]
      exact Memory.word_congr (hfootprint.memory a (Nat.lt_of_succ_lt hsize) (hwrites _ a))
        (hfootprint.memory (a + 1) hsize (hwrites _ _))

/-- A program that fills memory with one instruction runs to the end of memory. -/
theorem filled_memory_ends :
    ∃ (m last : Machine) (legs : List (Leg Recorder)) (host : Recorder) (turn : Turn Recorder),
      boot .cosmac (.cycle []) (List.replicate 3584 0x61) = .ok m ∧ m.Walk {} legs last host ∧
        legs.length ≤ 1792 ∧ last.step host = .ok turn ∧ turn.fault = some .pcOverflow := by
  let i : Instruction := .setByte (lastDigit 1) 0x61
  have hlength : (List.replicate 3584 (0x61 : Byte)).length = 3584 := List.length_replicate
  obtain ⟨m, hboot, hm, -, -, -, -, -, hwords⟩ :=
    exists_boot .cosmac (.cycle []) (List.replicate 3584 0x61) hlength.le
  have hrepeats : m.Repeats i := by
    intro a hlow hhigh
    obtain ⟨k, rfl⟩ := Nat.exists_eq_add_of_le hlow
    have hk : k + 1 < 3584 := by omega
    have hword := hwords k (hk.trans_eq hlength.symm)
    rw [List.getElem_replicate, List.getElem_replicate] at hword
    exact hword
  have hfetches {m' : Machine} (h : m'.Repeats i) (hreads : m'.Reads) : m'.Fetches i :=
    ⟨hreads, h _ hreads.1 hreads.2⟩
  have hwalks {legs : List (Leg Recorder)} {m' : Machine} {host : Recorder}
      (hwalk : m.Walk {} legs m' host) : m'.Repeats i :=
    hrepeats.walk hm.sound (fun _ _ h => h) hwalk
  have hnever : m.NeverJumps ({} : Recorder) := by
    intro legs m' host turn hwalk _ _ j hfetch
    rw [hfetch.unique (hfetches (hwalks hwalk) hfetch.1)]
    rfl
  obtain ⟨legs, last, host, turn, cause, hwalk, hle, -, hstep, hcause, -, hover⟩ :=
    (straight_code_ends.2 .cosmac (.cycle []) _ m hboot).halts ({} : Recorder) hnever
  refine ⟨m, last, legs, host, turn, hboot, hwalk, hle, hstep, ?_⟩
  rw [hcause, hover.mpr fun hreads => ?_]
  -- the instruction could be read, and it does not fail
  have hturn := (hwalk.sound hm.sound).turn_eq hstep
  rw [← hturn, turn_quiet (hfetches (hwalks hwalk) hreads).effect_eq] at hcause
  cases hcause

end Machine
end Chip8
