import Chip8.Proofs.Footprint

/-!
# Paths of a machine

A path leads from one machine to another, one step after the other. Each step may be taken on a host
of its own, so that nothing is assumed of how the answers of the hosts hang together.
-/
namespace Chip8

/-- A step, by the machines before and after it and the fault that it raised. -/
structure Stride where
  source : Machine
  fault : Option Fault
  target : Machine

namespace Stride

/-- There is a host on which the step is taken. -/
def Taken (s : Stride) : Prop :=
  ∃ (H : Type) (_ : Host H) (host : H) (turn : Turn H),
    s.source.step host = .ok turn ∧ turn.fault = s.fault ∧ turn.machine = s.target

variable {s : Stride}

theorem taken_of_step {m : Machine} {H : Type} [Host H] {host : H} {turn : Turn H}
    (h : m.step host = .ok turn) : Taken ⟨m, turn.fault, turn.machine⟩ :=
  ⟨H, _, host, turn, h, rfl, rfl⟩

theorem Taken.sound (h : s.Taken) (hsource : s.source.Sound) : s.target.Sound := by
  obtain ⟨H, _, host, turn, hstep, -, htarget⟩ := h
  exact htarget ▸ (hsource.step hstep).2.1

/-- A step halts the machine as it was, or it carries out the instruction that is fetched. -/
theorem Taken.cases (h : s.Taken) (hsource : s.source.Sound) :
    (∃ cause, s.fault = some cause ∧ s.target = s.source.halt cause) ∨
      s.fault = none ∧ ∃ i effect, s.source.Fetches i ∧ s.source.pass.effectOf i = .ok effect ∧
        ∀ p, effect.Ensures p → p s.target := by
  obtain ⟨H, _, host, turn, hstep, hfault, htarget⟩ := h
  obtain ⟨hstatus, -⟩ := hsource.step hstep
  rw [Machine.step_eq_turn hstatus hsource.depth_le] at hstep
  cases hstep
  rw [← hfault, ← htarget]
  obtain ⟨cause, -, hturn⟩ | ⟨x, -, -, hturn⟩ | ⟨effect, next, host', heffect, hperform, hturn⟩ :=
    s.source.turn_cases host
  · rw [hturn]
    exact .inl ⟨cause, rfl, rfl⟩
  · rw [hturn]
    exact .inl ⟨.badKey, rfl, rfl⟩
  · rw [hturn]
    obtain ⟨i, hfetch, hi⟩ := Machine.exists_fetches heffect
    exact .inr ⟨rfl, i, effect, hfetch, hi, fun p hp => hp.of_perform hperform⟩

/-- A step that raises no fault changes nothing but what its instruction may change. -/
theorem Taken.exists_footprint (h : s.Taken) (hsource : s.source.Sound) (hfault : s.fault = none) :
    ∃ i, s.source.Fetches i ∧ Machine.Footprint i s.source s.target := by
  obtain ⟨cause, hcause, -⟩ | ⟨-, i, effect, hfetch, heffect, hp⟩ := h.cases hsource
  · rw [hfault] at hcause
    cases hcause
  · exact ⟨i, hfetch, hp _ (Machine.ensures_footprint hfetch.1 heffect)⟩

/-- A step that is no jump and cannot skip leads to the next instruction. -/
theorem Taken.toNat_pc (h : s.Taken) (hsource : s.source.Sound) (hfault : s.fault = none)
    {i : Instruction} (hfetch : s.source.Fetches i) (hjumps : i.jumps = false)
    (hskips : i.skips = false) : s.target.pc.toNat = s.source.pc.toNat + 2 := by
  obtain ⟨j, hfetch', hfootprint⟩ := h.exists_footprint hsource hfault
  obtain rfl := hfetch.unique hfetch'
  obtain hmoved | ⟨hsome, -⟩ := hfootprint.pc hjumps
  · exact hmoved
  · cases hskips.symm.trans hsome

end Stride

namespace Machine

inductive Path : Machine → List Stride → Machine → Prop where
  | nil (m : Machine) : Path m [] m
  | cons {s : Stride} {strides : List Stride} {m : Machine} :
      s.Taken → Path s.target strides m → Path s.source (s :: strides) m

namespace Path

variable {m m' : Machine} {strides strides' : List Stride}

theorem cons_of_step {H : Type} [Host H] {host : H} {turn : Turn H} (hstep : m.step host = .ok turn)
    (h : Path turn.machine strides m') : Path m (⟨m, turn.fault, turn.machine⟩ :: strides) m' := by
  have htaken := Stride.taken_of_step hstep
  exact .cons htaken h

theorem sound (h : Path m strides m') (hm : m.Sound) : m'.Sound := by
  induction h with
  | nil => exact hm
  | cons htaken _ ih => exact ih (htaken.sound hm)

/-- A path passes by the machine between two parts of it. -/
theorem split (h : Path m (strides ++ strides') m') :
    ∃ middle, Path m strides middle ∧ Path middle strides' m' := by
  induction strides generalizing m with
  | nil => exact ⟨m, .nil m, h⟩
  | cons s strides ih =>
    cases h with
    | cons htaken hrest =>
      obtain ⟨middle, hfirst, hsecond⟩ := ih hrest
      exact ⟨middle, .cons htaken hfirst, hsecond⟩

end Path

end Machine
end Chip8
