import Chip8.Proofs.Walk
import Chip8.Recorder

/-!
# Where dialects differ

Two machines that differ in nothing but their dialects are led the same way by the same host, until
one of them carries out an instruction whose meaning is a matter of the dialect: a shift that reads
its first register here and its second one there, or a transfer of registers that moves the index
register here and leaves it there. `Machine.Departs` lists these instructions, and
`Leg.Parallel` says how far apart one of them brings the machines.
-/
namespace Chip8

def ArithOp.shifts : ArithOp → Bool
  | shiftRight | shiftLeft => true
  | _ => false

/-- The same effect, but for the machine that goes on. -/
def Effect.map (f : Machine → Machine) : Effect → Effect
  | proceed notices next => proceed notices (f next)
  | readDelay resume => readDelay fun value => f (resume value)
  | testKey key resume => testKey key fun down => f (resume down)
  | waitKey resume => waitKey fun key => (resume key).map f

def Machine.inDialect (d : Dialect) (m : Machine) : Machine :=
  { m with dialect := d }

def Turn.inDialect {H : Type} (d : Dialect) (turn : Turn H) : Turn H :=
  { turn with machine := turn.machine.inDialect d }

def Leg.inDialect {H : Type} (d : Dialect) (leg : Leg H) : Leg H :=
  ⟨leg.machine.inDialect d, leg.host, leg.turn.inDialect d⟩

namespace Machine

/-- Whether the machine carries out an instruction in another way than in the dialect `d`. -/
def Departs (d : Dialect) (m : Machine) : Instruction → Prop
  | .arith op x y =>
    op.shifts = true ∧ m.reg x ≠ m.reg y ∧ m.dialect.shiftsSecond ≠ d.shiftsSecond
  | .store _ | .load _ => m.dialect.advancesIndex ≠ d.advancesIndex
  | _ => False

variable {d : Dialect} {m : Machine} {i : Instruction}

/-! ## Single instructions -/

theorem map_check {α β : Type} {condition : Prop} [Decidable condition] {cause : Fault} {a : α}
    (f : α → β) :
    (if condition then Except.error cause else Except.ok a).map f =
      if condition then Except.error cause else Except.ok (f a) := by
  split <;> rfl

theorem map_quiet_check {condition : Prop} [Decidable condition] {cause : Fault} {next : Machine}
    (f : Machine → Machine) :
    ((if condition then Except.error cause else Except.ok next).map Effect.quiet).map
        (Effect.map f) =
      (if condition then Except.error cause else Except.ok (f next)).map Effect.quiet := by
  split <;> rfl

theorem setResult_inDialect (m : Machine) (x : Register) (result : Byte × Option Byte) :
    (m.inDialect d).setResult x result = (m.setResult x result).inDialect d := by
  rcases result with ⟨b, _ | flag⟩ <;> rfl

theorem passIf_inDialect (m : Machine) (condition : Bool) :
    (m.inDialect d).passIf condition = (m.passIf condition).inDialect d := by
  cases condition <;> rfl

theorem indexMoved_of_advances (h : m.dialect.advancesIndex = true) (x : Register) :
    m.indexMoved x = { m with index := .ofNat (m.index.toNat + (x.val + 1)) } :=
  if_pos h

theorem indexMoved_of_stays (h : m.dialect.advancesIndex = false) (x : Register) :
    m.indexMoved x = m :=
  if_neg (Bool.eq_false_iff.mp h)

theorem indexMoved_inDialect (x : Register) (h : m.dialect.advancesIndex = d.advancesIndex) :
    (m.inDialect d).indexMoved x = (m.indexMoved x).inDialect d := by
  rw [indexMoved, indexMoved, inDialect, h]
  split <;> rfl

/-- Only shifts look at the value that a dialect chooses. -/
theorem eval_of_not_shifts {op : ArithOp} (h : op.shifts = false) (a b s s' : Byte) :
    op.eval a b s = op.eval a b s' := by
  cases op with
  | shiftRight | shiftLeft => cases h
  | _ => rfl

theorem afterArith_inDialect {op : ArithOp} {x y : Register}
    (h : ¬ m.Departs d (.arith op x y)) :
    (m.inDialect d).afterArith op x y = (m.afterArith op x y).inDialect d := by
  rw [afterArith, afterArith, ← setResult_inDialect]
  apply congrArg
  change op.eval (m.reg x) (m.reg y) (if d.shiftsSecond then m.reg y else m.reg x) = _
  cases hop : op.shifts with
  | false => exact eval_of_not_shifts hop ..
  | true =>
    apply congrArg
    by_contra hne
    refine h ⟨hop, fun hxy => hne ?_, fun hd => hne ?_⟩
    · rw [hxy, ite_self, ite_self]
    · rw [hd]

/-- A transfer of registers that moves the index register in both dialects or in none, or that does
not take place. -/
theorem map_transfer {condition : Prop} [Decidable condition] {cause : Fault} {next : Machine}
    {x : Register}
    (h : next.dialect.advancesIndex ≠ d.advancesIndex → ∃ own,
      (if condition then Except.error cause else Except.ok (next.indexMoved x)).map Effect.quiet =
        .error own) :
    ((if condition then Except.error cause else Except.ok (next.indexMoved x)).map Effect.quiet).map
        (Effect.map (inDialect d)) =
      (if condition then Except.error cause
        else Except.ok ((next.inDialect d).indexMoved x)).map Effect.quiet := by
  by_cases hcondition : condition
  · rw [if_pos hcondition, if_pos hcondition]
    rfl
  · have hsame : next.dialect.advancesIndex = d.advancesIndex := by
      by_contra hne
      obtain ⟨own, hown⟩ := h hne
      rw [if_neg hcondition] at hown
      cases hown
    rw [if_neg hcondition, if_neg hcondition, indexMoved_inDialect x hsame]
    rfl

/-- An instruction that does not depart, or that fails, has the same effect in both dialects. -/
theorem effectOf_inDialect (h : m.Departs d i → ∃ cause, m.effectOf i = .error cause) :
    (m.inDialect d).effectOf i = (m.effectOf i).map (Effect.map (inDialect d)) := by
  cases i with
  | clearScreen | setByte x k | addByte x k | setIndex place | jumpOffset target | random x mask
  | readDelay x | setDelay x | setSound x | addIndex x => rfl
  | skipIfByte x k | skipUnlessByte x k | skipIfEqual x y | skipUnlessEqual x y =>
    exact congrArg (fun next => Except.ok (Effect.quiet next)) (passIf_inDialect m _)
  | arith op x y =>
    have hop : ¬ m.Departs d (.arith op x y) := by
      intro hdeparts
      obtain ⟨cause, herror⟩ := h hdeparts
      cases herror
    exact congrArg (fun next => Except.ok (Effect.quiet next)) (afterArith_inDialect hop)
  | skipIfKey x | skipUnlessKey x =>
    simp only [effectOf, keyEffect]
    have hreg : (m.inDialect d).reg x = m.reg x := rfl
    simp only [hreg, passIf_inDialect]
    split <;> rfl
  | waitKey x =>
    have hkey (key : Byte) :
        (m.inDialect d).afterKey x key = (m.afterKey x key).map (inDialect d) := by
      rw [afterKey, afterKey, map_check]
      rfl
    simp only [effectOf, hkey]
    rfl
  | ret | jump target | call target | glyph x | decimal x =>
    simp only [effectOf, afterRet, afterJump, afterCall, afterGlyph, afterDecimal, map_quiet_check]
    rfl
  | draw x y height =>
    rw [effectOf, effectOf, drawEffect, drawEffect, map_check]
    rfl
  | store x =>
    rw [effectOf, effectOf, afterStore, afterStore, map_transfer fun hne => h hne]
    rfl
  | load x =>
    rw [effectOf, effectOf, afterLoad, afterLoad, map_transfer fun hne => h hne]
    rfl

/-- The next instruction has the same effect up to a map, if every instruction that can be fetched
has. -/
theorem effect_map {m' : Machine} {f : Machine → Machine} (hpc : m'.pc = m.pc)
    (hword : m'.word = m.word)
    (h : ∀ i, m.Fetches i → m'.pass.effectOf i = (m.pass.effectOf i).map (Effect.map f)) :
    m'.effect = m.effect.map (Effect.map f) := by
  rw [effect, effect, hpc, hword]
  split
  · rfl
  split
  · rfl
  · next hlow hhigh =>
    cases hdecode : Instruction.decode m.word with
    | none => rfl
    | some i =>
      have hreads : m.Reads := ⟨Nat.not_lt.mp hlow, Nat.not_le.mp hhigh⟩
      exact h i ⟨hreads, (Instruction.encode_of_decode hdecode).symm⟩

/-- A machine that does not depart, or that fails, finds the same effect in both dialects. -/
theorem effect_inDialect
    (h : ∀ i, m.Fetches i → m.Departs d i → ∃ cause, m.effect = .error cause) :
    (m.inDialect d).effect = m.effect.map (Effect.map (inDialect d)) := by
  refine effect_map rfl rfl fun i hfetch => ?_
  have hpass : m.pass.Departs d i → ∃ cause, m.pass.effectOf i = .error cause := by
    intro hdeparts
    rw [← hfetch.effect_eq]
    exact h i hfetch hdeparts
  exact effectOf_inDialect hpass

end Machine

/-! ## Single steps -/

section Step

variable {H : Type} [Host H] {d : Dialect} {m : Machine}

theorem Effect.perform_map (f : Machine → Machine) (effect : Effect) (host : H) :
    (effect.map f).perform host =
      ((effect.perform host).1.map f, (effect.perform host).2) := by
  cases effect <;> rfl

theorem Effect.calls_map (f : Machine → Machine) (effect : Effect) (host : H) :
    (effect.map f).calls host = effect.calls host := by
  cases effect <;> rfl

/-- The step succeeds, and the dialect `d` takes it another way. -/
def Leg.Departs (d : Dialect) (leg : Leg H) : Prop :=
  leg.turn.fault = none ∧ ∃ i, leg.machine.Fetches i ∧ leg.machine.Departs d i

namespace Machine

/-- An instruction that departs makes no call, and it fails in both dialects or in none. -/
theorem Departs.effectOf_cases {i : Instruction} (h : m.Departs d i) :
    (∃ cause, m.effectOf i = .error cause) ∨
      ∃ next next', m.effectOf i = .ok (.quiet next) ∧
        (m.inDialect d).effectOf i = .ok (.quiet next') := by
  cases i with
  | arith op x y => exact .inr ⟨_, _, rfl, rfl⟩
  | store x | load x =>
    by_cases hover : Memory.size ≤ m.index.toNat + x.val
    · exact .inl ⟨.indexOverflow, congrArg (Except.map Effect.quiet) (if_pos hover)⟩
    · exact .inr ⟨_, _, congrArg (Except.map Effect.quiet) (if_neg hover),
        congrArg (Except.map Effect.quiet) (if_neg hover)⟩
  | _ => exact h.elim

/-- The next instruction has the same effect in both dialects, or it departs and makes no call. -/
theorem effect_cases_inDialect (d : Dialect) (m : Machine) :
    (m.inDialect d).effect = m.effect.map (Effect.map (inDialect d)) ∨
      ∃ i next next', m.Fetches i ∧ m.Departs d i ∧ m.effect = .ok (.quiet next) ∧
        (m.inDialect d).effect = .ok (.quiet next') := by
  by_cases h : ∀ i, m.Fetches i → m.Departs d i → ∃ cause, m.effect = .error cause
  · exact .inl (effect_inDialect h)
  · push Not at h
    obtain ⟨i, hfetch, hdeparts, hok⟩ := h
    have hfetch' : (m.inDialect d).Fetches i := hfetch
    -- the instruction is carried out past the program counter, which is none of its concern here
    have hpass : m.pass.Departs d i := hdeparts
    obtain ⟨cause, herror⟩ | ⟨next, next', hnext, hnext'⟩ := hpass.effectOf_cases
    · exact absurd (hfetch.effect_eq.trans herror) (hok cause)
    · exact .inr ⟨i, next, next', hfetch, hdeparts, hfetch.effect_eq.trans hnext,
        hfetch'.effect_eq.trans hnext'⟩

/-! ## Steps that depart -/

/-- Both results of a shift go to the same two registers. -/
theorem set_set_set_set (m : Machine) (x y : Register) (a b a' b' : Byte) :
    (((m.set x a).set y b).set x a').set y b' = (m.set x a').set y b' := by
  have hv : (((m.v.setIfInBounds x.val a).setIfInBounds y.val b).setIfInBounds x.val
      a').setIfInBounds y.val b' = (m.v.setIfInBounds x.val a').setIfInBounds y.val b' := by
    ext r hr
    simp only [Vector.getElem_setIfInBounds]
    split <;> simp_all
  exact congrArg (fun v => { m with v }) hv

theorem afterArith_of_shifts {op : ArithOp} (h : op.shifts = true) (m : Machine) (x y : Register) :
    ∃ a b, m.afterArith op x y = (m.set x a).set flagRegister b := by
  cases op with
  | shiftRight | shiftLeft => exact ⟨_, _, rfl⟩
  | _ => cases h

/-- A shift leaves the machines apart in its register and in the flag at most. -/
theorem turn_shift {op : ArithOp} {x y : Register} (h : m.Fetches (.arith op x y))
    (hop : op.shifts = true) (d : Dialect) (host : H) :
    ∃ a b, ((m.inDialect d).turn host).machine =
      (((m.turn host).machine.inDialect d).set x a).set flagRegister b := by
  have h' : (m.inDialect d).Fetches (.arith op x y) := h
  obtain ⟨a, b, hown⟩ := afterArith_of_shifts hop m.pass x y
  obtain ⟨a', b', hother⟩ := afterArith_of_shifts hop (m.inDialect d).pass x y
  refine ⟨a', b', ?_⟩
  rw [turn_quiet h.effect_eq, turn_quiet h'.effect_eq, hown, hother]
  exact (set_set_set_set (m.inDialect d).pass x flagRegister a b a' b').symm

/-- A transfer of registers is the same in both dialects, up to where the index register goes. -/
theorem exists_transfer {x : Register} (h : m.Fetches (.store x) ∨ m.Fetches (.load x)) :
    ∃ next : Machine, next.index = m.index ∧ next.dialect = m.dialect ∧ ∀ d,
      (m.inDialect d).effect =
        (if Memory.size ≤ m.index.toNat + x.val then Except.error .indexOverflow
          else Except.ok ((next.inDialect d).indexMoved x)).map .quiet := by
  rcases h with h | h
  · refine ⟨m.pass.write (m.pass.first x), rfl, rfl, fun d => ?_⟩
    have h' : (m.inDialect d).Fetches (.store x) := h
    rw [h'.effect_eq]
    rfl
  · refine ⟨m.pass.setFirst (m.memory.slice m.index.toNat (x.val + 1)), rfl, rfl, fun d => ?_⟩
    have h' : (m.inDialect d).Fetches (.load x) := h
    rw [h'.effect_eq]
    rfl

/-- Where the dialects differ, one of them leaves the index register behind the other. -/
theorem indexMoved_apart {x : Register} (hroom : m.index.toNat + x.val < Memory.size)
    (h : m.dialect.advancesIndex ≠ d.advancesIndex) :
    ∃ index, (m.inDialect d).indexMoved x = { m.indexMoved x with dialect := d, index } ∧
      if d.advancesIndex then index.toNat = (m.indexMoved x).index.toNat + (x.val + 1)
      else (m.indexMoved x).index.toNat = index.toNat + (x.val + 1) := by
  have hmoved : (UInt16.ofNat (m.index.toNat + (x.val + 1))).toNat =
      m.index.toNat + (x.val + 1) := by
    have hs : Memory.size = 4096 := rfl
    rw [UInt16.toNat_ofNat']
    omega
  cases hown : m.dialect.advancesIndex with
  | true =>
    have hother : d.advancesIndex = false := by simpa [hown] using h.symm
    have hstays : (m.inDialect d).indexMoved x = m.inDialect d := indexMoved_of_stays hother x
    rw [hstays, indexMoved_of_advances hown]
    exact ⟨m.index, rfl, by simpa [hother] using hmoved⟩
  | false =>
    have hother : d.advancesIndex = true := by simpa [hown] using h.symm
    have hmoves : (m.inDialect d).indexMoved x =
        { m.inDialect d with index := .ofNat (m.index.toNat + (x.val + 1)) } :=
      indexMoved_of_advances hother x
    rw [hmoves, indexMoved_of_stays hown]
    exact ⟨_, rfl, by simpa [hother] using hmoved⟩

/-- A transfer that takes place leaves the machines apart in the index register. -/
theorem turn_transfer {x : Register} (h : m.Fetches (.store x) ∨ m.Fetches (.load x)) {host : H}
    (hnone : (m.turn host).fault = none) (hne : m.dialect.advancesIndex ≠ d.advancesIndex) :
    ∃ index, ((m.inDialect d).turn host).machine =
        { (m.turn host).machine with dialect := d, index } ∧
      if d.advancesIndex then
        index.toNat = (m.turn host).machine.index.toNat + (x.val + 1)
      else (m.turn host).machine.index.toNat = index.toNat + (x.val + 1) := by
  obtain ⟨next, hindex, hdialect, heffect⟩ := exists_transfer h
  have hown : m.effect =
      (if Memory.size ≤ m.index.toNat + x.val then Except.error .indexOverflow
        else Except.ok (next.indexMoved x)).map .quiet := by
    have hsame : next.inDialect m.dialect = next := by
      rw [← hdialect]
      rfl
    rw [← hsame]
    exact heffect m.dialect
  have hother := heffect d
  by_cases hover : Memory.size ≤ m.index.toNat + x.val
  · rw [turn, hown, if_pos hover] at hnone
    cases hnone
  · rw [if_neg hover] at hown hother
    rw [turn_quiet hown, turn_quiet hother]
    rw [← hindex] at hover
    rw [← hdialect] at hne
    exact indexMoved_apart (Nat.lt_of_not_le hover) hne

end Machine

/-- Two steps on the same host, by machines that differ in their dialects alone, the second of which
is `d`. -/
structure Leg.Parallel (d : Dialect) (leg leg' : Leg H) : Prop where
  host : leg'.turn.host = leg.turn.host
  fault : leg'.turn.fault = leg.turn.fault
  calls : leg'.calls = leg.calls
  same : ¬ leg.Departs d → leg'.turn.machine = leg.turn.machine.inDialect d
  /-- A transfer of `x + 1` registers moves one of the two index registers that far. -/
  transfer : ∀ x, leg.machine.Fetches (.store x) ∨ leg.machine.Fetches (.load x) →
    leg.turn.fault = none → leg.machine.dialect.advancesIndex ≠ d.advancesIndex →
    ∃ index, leg'.turn.machine = { leg.turn.machine with dialect := d, index } ∧
      if d.advancesIndex then index.toNat = leg.turn.machine.index.toNat + (x.val + 1)
      else leg.turn.machine.index.toNat = index.toNat + (x.val + 1)
  /-- A shift has its result and its flag for itself. -/
  shift : ∀ op x y, leg.machine.Fetches (.arith op x y) → op.shifts = true →
    ∃ a b, leg'.turn.machine = ((leg.turn.machine.inDialect d).set x a).set flagRegister b

namespace Machine

theorem parallel_turn (hstatus : m.status = .running) (hdepth : m.depth ≤ maxDepth) (d : Dialect)
    (host : H) :
    Leg.Parallel d ⟨m, host, m.turn host⟩ ⟨m.inDialect d, host, (m.inDialect d).turn host⟩ := by
  have hcalls := calls_eq hstatus hdepth host
  have hcalls' := calls_eq (m := m.inDialect d) hstatus hdepth host
  obtain hsame | ⟨i, next, next', hfetch, hdeparts, hown, hother⟩ := effect_cases_inDialect d m
  · have hturn : (m.inDialect d).turn host = (m.turn host).inDialect d := by
      rw [turn, turn, hsame]
      cases m.effect with
      | error cause => rfl
      | ok effect =>
        rw [Except.map, Effect.attempt, Effect.attempt, Effect.perform_map]
        rcases effect.perform host with ⟨_ | _, host'⟩ <;> rfl
    have hcallsSame : (m.inDialect d).calls host = m.calls host := by
      rw [hcalls, hcalls', hsame]
      cases m.effect with
      | error cause => rfl
      | ok effect => exact Effect.calls_map _ effect host
    exact
      { host := (congrArg Turn.host hturn :)
        fault := (congrArg Turn.fault hturn :)
        calls := hcallsSame
        same := fun _ => (congrArg Turn.machine hturn :)
        transfer := fun _ hfetch hnone hne => turn_transfer hfetch hnone hne
        shift := fun _ _ _ hfetch hop => turn_shift hfetch hop d host }
  · have hturn := turn_quiet hown host
    have hturn' := turn_quiet hother host
    rw [hown] at hcalls
    rw [hother] at hcalls'
    exact
      { host := by rw [hturn, hturn']
        fault := by rw [hturn, hturn']
        calls := hcalls'.trans hcalls.symm
        same := fun h => absurd ⟨congrArg Turn.fault hturn, i, hfetch, hdeparts⟩ h
        transfer := fun _ hfetch hnone hne => turn_transfer hfetch hnone hne
        shift := fun _ _ _ hfetch hop => turn_shift hfetch hop d host }

/-- The machine in another dialect takes a step when the machine does, and in parallel. -/
theorem exists_parallel (hm : m.Sound) {host : H} {turn : Turn H} (hstep : m.step host = .ok turn)
    (d : Dialect) :
    ∃ turn', (m.inDialect d).step host = .ok turn' ∧
      Leg.Parallel d ⟨m, host, turn⟩ ⟨m.inDialect d, host, turn'⟩ := by
  have hstatus := (hm.step hstep).1
  obtain rfl := hm.turn_eq hstep
  exact ⟨(m.inDialect d).turn host, step_eq_turn (m := m.inDialect d) hstatus hm.depth_le host,
    parallel_turn hstatus hm.depth_le d host⟩

/-! ## Walks -/

/-- A walk on which no step departs is the same in both dialects. -/
theorem Walk.inDialect {m₁ : Machine} {host host₁ : H} {legs : List (Leg H)}
    (h : m.Walk host legs m₁ host₁) (hm : m.Sound) (hsame : ∀ leg ∈ legs, ¬ leg.Departs d) :
    (m.inDialect d).Walk host (legs.map (Leg.inDialect d)) (m₁.inDialect d) host₁ ∧
      ∀ leg ∈ legs, (leg.inDialect d).calls = leg.calls := by
  induction h with
  | nil => exact ⟨.nil .., List.forall_mem_nil _⟩
  | @cons m _ host _ turn legs hstep _ ih =>
    obtain ⟨hfirst, hrest⟩ := List.forall_mem_cons.mp hsame
    obtain ⟨⟨machine, host', fault⟩, hstep', hparallel⟩ := exists_parallel hm hstep d
    obtain ⟨hwalk, hcalls⟩ := ih (hm.step hstep).2.1 hrest
    obtain rfl : machine = turn.machine.inDialect d := hparallel.same hfirst
    obtain rfl : host' = turn.host := hparallel.host
    obtain rfl : fault = turn.fault := hparallel.fault
    exact ⟨.cons hstep' hwalk, List.forall_mem_cons.mpr ⟨hparallel.calls, hcalls⟩⟩

/-- A walk on which no step departs is the same in both dialects, with the same calls. A step after
it is the same again, unless it is the first that departs. Then a transfer of registers leaves the
two machines apart in the index register alone, by the number of registers, and a shift leaves them
apart in its register and in the flag at most. -/
theorem dialects_agree {m₁ : Machine} {host host₁ : H} {legs : List (Leg H)} (hm : m.Reachable)
    (d : Dialect) (h : m.Walk host legs m₁ host₁) (hsame : ∀ leg ∈ legs, ¬ leg.Departs d) :
    (m.inDialect d).Walk host (legs.map (Leg.inDialect d)) (m₁.inDialect d) host₁ ∧
      (∀ leg ∈ legs, (leg.inDialect d).calls = leg.calls) ∧
      (m₁.status = .running → ∃ turn turn', m₁.step host₁ = .ok turn ∧
        (m₁.inDialect d).step host₁ = .ok turn' ∧
        Leg.Parallel d ⟨m₁, host₁, turn⟩ ⟨m₁.inDialect d, host₁, turn'⟩) := by
  obtain ⟨hwalk, hcalls⟩ := h.inDialect hm.sound hsame
  refine ⟨hwalk, hcalls, fun hstatus => ?_⟩
  obtain ⟨turn, hstep⟩ := (h.sound hm.sound).exists_step hstatus host₁
  obtain ⟨turn', hstep', hparallel⟩ := exists_parallel (h.sound hm.sound) hstep d
  exact ⟨turn, turn', hstep, hstep', hparallel⟩

/-- A program that sets a register and then stores two of them: the first step is the same in both
dialects, and the second one leaves the index registers two apart. -/
theorem store_apart :
    ∃ (m m₁ : Machine) (leg : Leg Recorder) (turn turn' : Turn Recorder),
      boot .cosmac (.cycle []) [0x60, 0x05, 0xf1, 0x55] = .ok m ∧
        m.Walk ({} : Recorder) [leg] m₁ {} ∧ ¬ leg.Departs .superChip ∧
        m₁.step ({} : Recorder) = .ok turn ∧
        (m₁.inDialect .superChip).step ({} : Recorder) = .ok turn' ∧
        turn.machine.index.toNat = turn'.machine.index.toNat + 2 := by
  obtain ⟨m, hboot, hm, hstatus, hdepth, hindex, hdialect, hpc, hwords⟩ :=
    exists_boot .cosmac (.cycle []) [0x60, 0x05, 0xf1, 0x55]
      (Nat.le_of_lt (show 4 < Memory.programRoom by decide))
  have hset : m.Fetches (.setByte (lastDigit 0) 5) :=
    fetches_of_pc hpc (by decide) (hwords 0 (by simp))
  let m₁ := m.pass.set (lastDigit 0) 5
  have hstore : m₁.Fetches (.store (lastDigit 1)) :=
    fetches_of_pc (hpc ▸ hset.1.toNat_pc_pass) (by decide) (hwords 2 (by simp))
  have hstep : m.step ({} : Recorder) = .ok ⟨m₁, {}, none⟩ := by
    rw [step_eq_turn hstatus hm.sound.depth_le, turn_quiet hset.effect_eq]
  have hcalm : ¬ Leg.Departs .superChip ⟨m, ({} : Recorder), ⟨m₁, {}, none⟩⟩ := by
    rintro ⟨-, i, hfetch, hdeparts⟩
    cases hfetch.unique hset
    exact hdeparts
  have hwalk : m.Walk ({} : Recorder) [⟨m, {}, ⟨m₁, {}, none⟩⟩] m₁ {} := .cons hstep (.nil ..)
  obtain ⟨-, -, hnext⟩ :=
    dialects_agree hm .superChip hwalk (List.forall_mem_singleton.mpr hcalm)
  obtain ⟨turn, turn', hturn, hturn', hparallel⟩ := hnext hstatus
  have hnone : turn.fault = none := by
    have hroom : ¬ Memory.size ≤ m₁.pass.index.toNat + (lastDigit 1).val := by
      change ¬ Memory.size ≤ m.index.toNat + (lastDigit 1).val
      rw [hindex]
      decide
    have heffect := hstore.effect_eq.trans (congrArg (Except.map Effect.quiet) (if_neg hroom))
    rw [step_eq_turn (m := m₁) hstatus hm.sound.depth_le, turn_quiet heffect] at hturn
    cases hturn
    rfl
  have hne : m₁.dialect.advancesIndex ≠ Dialect.superChip.advancesIndex := by
    change m.dialect.advancesIndex ≠ _
    rw [hdialect]
    decide
  obtain ⟨index, hmachine, hindexes⟩ := hparallel.transfer _ (.inl hstore) hnone hne
  refine ⟨m, m₁, _, turn, turn', hboot, hwalk, hcalm, hturn, hturn', ?_⟩
  rw [(hmachine : turn'.machine = _)]
  exact hindexes

end Machine

end Step
end Chip8
