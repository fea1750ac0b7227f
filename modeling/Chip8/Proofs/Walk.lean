import Chip8.Proofs.Journal

/-!
# Walks on one host

A walk takes steps of a machine on one host, which keeps what it has learnt from one step to the
next. A machine and a host determine their walks, so that of two walks of equal length there is but
one.

Two hosts are alike if they give the machine the same answers, whatever they are made of. Then they
lead a machine the same way: through the same machines, with the same faults and the same calls.
Some hosts are alike only for a while, so that `Alike` counts the waits for a key that they have
answers for.
-/
namespace Chip8

/-- A step, by the machine and the host that take it and the turn that they take. -/
structure Leg (H : Type) where
  machine : Machine
  host : H
  turn : Turn H

def Leg.calls {H : Type} [Host H] (leg : Leg H) : List Call :=
  leg.machine.calls leg.host

namespace Machine

/-- Steps lead from a machine and a host to others. -/
inductive Walk {H : Type} [Host H] : Machine → H → List (Leg H) → Machine → H → Prop where
  | nil (m : Machine) (host : H) : Walk m host [] m host
  | cons {m m' : Machine} {host host' : H} {turn : Turn H} {legs : List (Leg H)} :
      m.step host = .ok turn → Walk turn.machine turn.host legs m' host' →
      Walk m host (⟨m, host, turn⟩ :: legs) m' host'

section Walk

variable {H : Type} [Host H] {m m' m'' : Machine} {host host' host'' : H} {turn : Turn H}
  {legs legs' : List (Leg H)}

/-- Only a machine that runs takes a step. -/
theorem running_of_step (h : m.step host = .ok turn) : m.status = .running := by
  cases hstatus : m.status with
  | running => rfl
  | halted cause =>
    rw [step_of_halted hstatus] at h
    cases h

/-- The step of a sound machine is its turn. -/
theorem Sound.turn_eq (hm : m.Sound) (h : m.step host = .ok turn) : m.turn host = turn :=
  Except.ok.inj ((step_eq_turn (hm.step h).1 hm.depth_le host).symm.trans h)

namespace Walk

theorem sound (h : Walk m host legs m' host') (hm : m.Sound) : m'.Sound := by
  induction h with
  | nil => exact hm
  | cons hstep _ ih => exact ih (hm.step hstep).2.1

/-- Walks of equal length from the same place are equal. -/
theorem unique (h : Walk m host legs m' host') (h' : Walk m host legs' m'' host'')
    (hlength : legs.length = legs'.length) : legs = legs' ∧ m' = m'' := by
  induction h generalizing legs' with
  | nil =>
    cases h' with
    | nil => exact ⟨rfl, rfl⟩
    | cons _ _ => cases hlength
  | cons hstep _ ih =>
    cases h' with
    | nil => cases hlength
    | cons hstep' hrest =>
      obtain rfl := Except.ok.inj (hstep.symm.trans hstep')
      obtain ⟨rfl, rfl⟩ := ih hrest (Nat.succ.inj hlength)
      exact ⟨rfl, rfl⟩

/-- A machine that a longer walk passes by still runs. -/
theorem running_of_lt (h : Walk m host legs m' host') (h' : Walk m host legs' m'' host'')
    (hlength : legs.length < legs'.length) : m'.status = .running := by
  induction h generalizing legs' with
  | nil =>
    cases h' with
    | nil => exact absurd hlength (Nat.lt_irrefl 0)
    | cons hstep _ => exact running_of_step hstep
  | cons hstep _ ih =>
    cases h' with
    | nil => exact absurd hlength (Nat.not_lt_zero _)
    | cons hstep' hrest =>
      obtain rfl := Except.ok.inj (hstep.symm.trans hstep')
      exact ih hrest (Nat.lt_of_succ_lt_succ hlength)

/-- There is but one walk to the end. -/
theorem unique_of_halted (h : Walk m host legs m' host') (h' : Walk m host legs' m'' host'')
    (hhalted : m'.status ≠ .running) (hhalted' : m''.status ≠ .running) :
    legs = legs' ∧ m' = m'' := by
  obtain hlt | heq | hgt := Nat.lt_trichotomy legs.length legs'.length
  · exact absurd (h.running_of_lt h' hlt) hhalted
  · exact h.unique h' heq
  · exact absurd (h'.running_of_lt h hgt) hhalted'

end Walk

end Walk

end Machine

/-! ## Waits for a key -/

def Instruction.waits : Instruction → Bool
  | waitKey _ => true
  | _ => false

def Effect.waits : Effect → Bool
  | waitKey _ => true
  | _ => false

namespace Machine

instance (m : Machine) : Decidable m.Reads :=
  inferInstanceAs (Decidable (_ ∧ _))

def waits (m : Machine) : Bool :=
  m.Reads && (Instruction.decode m.word).any Instruction.waits

variable {m : Machine}

theorem Fetches.waits_eq {i : Instruction} (h : m.Fetches i) : m.waits = i.waits := by
  rw [waits, h.decode_word, decide_eq_true h.1]
  rfl

/-- An instruction waits for a key if its effect does. -/
theorem waits_eq_effect (m : Machine) : m.waits = m.effect.toOption.any Effect.waits := by
  rw [Bool.eq_iff_iff]
  constructor
  · intro h
    rw [waits, Bool.and_eq_true, decide_eq_true_eq, Option.any_eq_true] at h
    obtain ⟨hreads, i, hdecode, hi⟩ := h
    have hfetch : m.Fetches i := ⟨hreads, (Instruction.encode_of_decode hdecode).symm⟩
    cases i with
    | waitKey x =>
      rw [hfetch.effect_eq]
      rfl
    | _ => cases hi
  · intro h
    cases heffect : m.effect with
    | error cause =>
      rw [heffect] at h
      cases h
    | ok effect =>
      rw [heffect] at h
      cases effect with
      | waitKey resume =>
        obtain ⟨i, hfetch, hi⟩ := exists_fetches heffect
        obtain ⟨x, rfl, -⟩ := effectOf_eq_waitKey hi
        exact hfetch.waits_eq
      | _ => cases h

end Machine

/-! ## Hosts that are alike -/

/-- Hosts in the relation `R n` give the same answers, as long as there are no more than `n` waits
for a key. -/
structure Alike {H H' : Type} [Host H] [Host H'] (R : Nat → H → H' → Prop) : Prop where
  notice : ∀ (notice : Notice) n host host', R n host host' →
    R n (notice.deliver host) (notice.deliver host')
  delay : ∀ n host host', R n host host' → (Host.delay host').1 = (Host.delay host).1 ∧
    R n (Host.delay host).2 (Host.delay host').2
  keyDown : ∀ (key : Key) n host host', R n host host' →
    (Host.keyDown key host').1 = (Host.keyDown key host).1 ∧
      R n (Host.keyDown key host).2 (Host.keyDown key host').2
  waitKey : ∀ n host host', R (n + 1) host host' →
    (Host.waitKey host').1 = (Host.waitKey host).1 ∧
      R n (Host.waitKey host).2 (Host.waitKey host').2

/-- The steps lead to the same machine, with the same fault and the same calls. -/
structure Leg.Matches {H H' : Type} [Host H] [Host H'] (leg : Leg H) (leg' : Leg H') : Prop where
  source : leg'.machine = leg.machine
  target : leg'.turn.machine = leg.turn.machine
  fault : leg'.turn.fault = leg.turn.fault
  calls : leg'.calls = leg.calls

namespace Alike

variable {H H' : Type} [Host H] [Host H'] {R : Nat → H → H' → Prop} {n : Nat} {host host₁ : H}
  {host' : H'} {m m' : Machine}

theorem foldl_deliver (hR : Alike R) (h : R n host host') (notices : List Notice) :
    R n (notices.foldl Notice.deliver host) (notices.foldl Notice.deliver host') := by
  induction notices generalizing host host' with
  | nil => exact h
  | cons notice notices ih => exact ih (hR.notice notice n host host' h)

/-- Alike hosts settle an effect alike. -/
theorem perform (hR : Alike R) (effect : Effect) (h : R (n + effect.waits.toNat) host host') :
    (effect.perform host').1 = (effect.perform host).1 ∧
      effect.calls host' = effect.calls host ∧
      R n (effect.perform host).2 (effect.perform host').2 := by
  cases effect with
  | proceed notices next => exact ⟨rfl, rfl, hR.foldl_deliver h notices⟩
  | readDelay resume =>
    obtain ⟨hanswer, hnext⟩ := hR.delay n host host' h
    refine ⟨?_, ?_, hnext⟩ <;> simp only [Effect.perform, Effect.calls, hanswer]
  | testKey key resume =>
    obtain ⟨hanswer, hnext⟩ := hR.keyDown key n host host' h
    refine ⟨?_, ?_, hnext⟩ <;> simp only [Effect.perform, Effect.calls, hanswer]
  | waitKey resume =>
    obtain ⟨hanswer, hnext⟩ := hR.waitKey n host host' h
    refine ⟨?_, ?_, hnext⟩ <;> simp only [Effect.perform, Effect.calls, hanswer]

/-- Alike hosts lead a machine to the same machine. -/
theorem step (hR : Alike R) (hm : m.Sound) {turn : Turn H} (hstep : m.step host = .ok turn)
    (h : R (n + m.waits.toNat) host host') :
    ∃ turn', m.step host' = .ok turn' ∧ Leg.Matches ⟨m, host, turn⟩ ⟨m, host', turn'⟩ ∧
      R n turn.host turn'.host := by
  have hstatus := (hm.step hstep).1
  obtain rfl := hm.turn_eq hstep
  refine ⟨m.turn host', Machine.step_eq_turn hstatus hm.depth_le host', ?_⟩
  have hcalls := Machine.calls_eq hstatus hm.depth_le host
  have hcalls' := Machine.calls_eq hstatus hm.depth_le host'
  rw [Machine.waits_eq_effect] at h
  cases heffect : m.effect with
  | error cause =>
    rw [heffect] at h hcalls hcalls'
    rw [Machine.turn, Machine.turn, heffect]
    exact ⟨⟨rfl, rfl, rfl, hcalls'.trans hcalls.symm⟩, h⟩
  | ok effect =>
    rw [heffect] at h hcalls hcalls'
    obtain ⟨houtcome, hsame, hnext⟩ := hR.perform effect h
    have hcalls'' : m.calls host' = m.calls host := hcalls'.trans (hsame.trans hcalls.symm)
    rw [Machine.turn, Machine.turn, heffect, Effect.attempt, Effect.attempt]
    revert houtcome hnext
    rcases effect.perform host with ⟨cause | next, host₁⟩ <;>
      rcases effect.perform host' with ⟨cause' | next', host₁'⟩ <;> rintro ⟨⟩ hnext
    all_goals exact ⟨⟨rfl, rfl, rfl, hcalls''⟩, hnext⟩

/-- Alike hosts lead a machine the same way, as long as they have answers left to its waits. -/
theorem walk (hR : Alike R) {legs : List (Leg H)} (h : m.Walk host legs m' host₁) (hm : m.Sound)
    (hrel : R (n + legs.countP (·.machine.waits)) host host') :
    ∃ legs' host₁', m.Walk host' legs' m' host₁' ∧ R n host₁ host₁' ∧
      List.Forall₂ (fun leg leg' => leg.Matches leg' ∧ ∃ n, R n leg.turn.host leg'.turn.host)
        legs legs' := by
  induction h generalizing host' with
  | nil => exact ⟨[], host', .nil .., hrel, .nil⟩
  | @cons m _ host _ turn legs hstep hrest ih =>
    have hcount : (⟨m, host, turn⟩ :: legs).countP (·.machine.waits) =
        legs.countP (·.machine.waits) + m.waits.toNat := by
      rw [List.countP_cons]
      cases m.waits <;> rfl
    rw [hcount, ← Nat.add_assoc] at hrel
    obtain ⟨turn', hstep', hmatches, hnext⟩ := hR.step hm hstep hrel
    obtain ⟨legs', host₁', hwalk, hend, hlegs⟩ := ih (hm.step hstep).2.1 hnext
    rw [← hmatches.target] at hwalk
    exact ⟨_, host₁', .cons hstep' hwalk, hend, .cons ⟨hmatches, _, hnext⟩ hlegs⟩

end Alike
end Chip8
