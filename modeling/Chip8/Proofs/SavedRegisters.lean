import Chip8.Proofs.Path
import Chip8.Proofs.Unread

/-!
# Registers kept in memory

Storing the first registers and loading them again gives them back, whatever the steps in between do
to registers, stack and display, as long as they do not write where the registers are kept and the
index register points there again. The other way round, registers that were just loaded write back
what memory holds already.
-/
namespace Chip8

namespace Memory

/-- Memories with the same bytes are equal. -/
theorem ext_get {m m' : Memory} (h : ∀ a < size, m'.get a = m.get a) : m' = m := by
  obtain ⟨bytes⟩ := m
  obtain ⟨bytes'⟩ := m'
  congr 1
  ext a ha
  have hget := h a ha
  rw [get, get, Vector.getElem?_eq_getElem ha, Vector.getElem?_eq_getElem ha] at hget
  exact congrArg UInt8.toNat hget

theorem getElem?_slice (m : Memory) {a n i : Nat} (h : i < n) :
    (m.slice a n)[i]? = some (m.get (a + i)) := by
  rw [slice, List.getElem?_map, List.getElem?_range h, Option.map_some]

end Memory

namespace Machine

variable {m m' next : Machine} {x : Register}

theorem getElem?_first (m : Machine) {r : Register} (h : r ≤ x) :
    (m.first x)[r.val]? = some (m.reg r) := by
  have hlt : r.val < x.val + 1 := Nat.lt_succ_of_le h
  rw [first, List.getElem?_take_of_lt hlt, Vector.getElem?_toList,
    Vector.getElem?_eq_getElem r.isLt]
  rfl

/-! ## The index register -/

/-- Where the index register points after a transfer of registers zero to `x`. -/
def indexAfter (m : Machine) (x : Register) : Nat :=
  if m.dialect.advancesIndex then m.index.toNat + x.val + 1 else m.index.toNat

theorem indexAfter_of_stays (h : m.dialect.advancesIndex = false) :
    m.indexAfter x = m.index.toNat := by
  rw [indexAfter, h, if_neg Bool.false_ne_true]

theorem toNat_indexMoved (h : m.index.toNat + x.val ≤ 4095) :
    (m.indexMoved x).index.toNat = m.indexAfter x := by
  rw [indexMoved, indexAfter]
  split
  · change (UInt16.ofNat (m.index.toNat + (x.val + 1))).toNat = _
    rw [UInt16.toNat_ofNat']
    omega
  · rfl

theorem memory_indexMoved (m : Machine) (x : Register) : (m.indexMoved x).memory = m.memory := by
  rw [indexMoved]
  split <;> rfl

theorem reg_indexMoved (m : Machine) (x r : Register) : (m.indexMoved x).reg r = m.reg r := by
  rw [indexMoved]
  split <;> rfl

theorem index_setFirst (m : Machine) (bytes : List Byte) :
    (m.setFirst bytes).index = m.index := by
  rw [setFirst]

theorem memory_setFirst (m : Machine) (bytes : List Byte) :
    (m.setFirst bytes).memory = m.memory := by
  rw [setFirst]

theorem indexAfter_setFirst (m : Machine) (bytes : List Byte) (x : Register) :
    (m.setFirst bytes).indexAfter x = m.indexAfter x := by
  rw [setFirst]
  rfl

/-! ## Storing and loading -/

/-- The machine `next` is `m` with registers zero to `x` stored at the index register. -/
structure Stores (x : Register) (m next : Machine) : Prop where
  inside : ∀ r ≤ x, next.memory.get (m.index.toNat + r.val) = m.reg r
  outside : ∀ a, a < m.index.toNat ∨ m.index.toNat + x.val < a →
    next.memory.get a = m.memory.get a
  index : next.index.toNat = m.indexAfter x

/-- The machine `next` is `m` with registers zero to `x` loaded from the index register. -/
structure Loads (x : Register) (m next : Machine) : Prop where
  inside : ∀ r ≤ x, next.reg r = m.memory.get (m.index.toNat + r.val)
  outside : ∀ r, x < r → next.reg r = m.reg r
  memory : next.memory = m.memory
  index : next.index.toNat = m.indexAfter x

theorem stores_write (hroom : m.index.toNat + x.val ≤ 4095) :
    Stores x m ((m.write (m.first x)).indexMoved x) where
  inside r hr := by
    have hsize : m.index.toNat + r.val < Memory.size := by
      have hle : r.val ≤ x.val := hr
      have hs : Memory.size = 4096 := rfl
      omega
    rw [memory_indexMoved]
    change (m.memory.put m.index.toNat (m.first x)).get (m.index.toNat + r.val) = m.reg r
    rw [Memory.get_put _ _ _ _ hsize, if_pos (Nat.le_add_right ..), Nat.add_sub_cancel_left,
      m.getElem?_first hr, Option.getD_some]
  outside a ha := by
    rw [memory_indexMoved]
    refine Memory.get_put_of_outside (ha.imp_right ?_)
    rw [length_first]
    exact id
  index := toNat_indexMoved (m := m.write (m.first x)) hroom

theorem loads_setFirst (hroom : m.index.toNat + x.val ≤ 4095) :
    Loads x m ((m.setFirst (m.memory.slice m.index.toNat (x.val + 1))).indexMoved x) where
  inside r hr := by
    have hlt : r.val < x.val + 1 := Nat.lt_succ_of_le hr
    rw [reg_indexMoved, reg_setFirst, Memory.getElem?_slice _ hlt, Option.getD_some]
  outside r hr := by
    have hpast : (m.memory.slice m.index.toNat (x.val + 1)).length ≤ r.val := by
      rw [Memory.length_slice]
      exact hr
    rw [reg_indexMoved, reg_setFirst, List.getElem?_eq_none hpast, Option.getD_none]
  memory := by rw [memory_indexMoved, memory_setFirst]
  index := by
    rw [toNat_indexMoved, indexAfter_setFirst]
    rw [index_setFirst]
    exact hroom

section Step

variable {H : Type} [Host H]

theorem not_size_le (hroom : m.index.toNat + x.val ≤ 4095) :
    ¬ Memory.size ≤ m.pass.index.toNat + x.val :=
  Nat.not_le.mpr (Nat.lt_succ_of_le hroom)

/-- A machine that has room for the registers stores them. -/
theorem Sound.exists_store (hm : m.Sound) (hstatus : m.status = .running)
    (hfetch : m.Fetches (.store x)) (hroom : m.index.toNat + x.val ≤ 4095) (host : H) :
    ∃ turn, m.step host = .ok turn ∧ turn.fault = none ∧ Stores x m turn.machine := by
  have heffect : m.effect = .ok (.quiet ((m.pass.write (m.pass.first x)).indexMoved x)) := by
    rw [hfetch.effect_eq, effectOf, afterStore, if_neg (not_size_le hroom)]
    rfl
  refine ⟨_, step_eq_turn hstatus hm.depth_le host, ?_⟩
  rw [turn_quiet heffect]
  have hstores := stores_write (m := m.pass) hroom
  exact ⟨rfl, hstores.inside, hstores.outside, hstores.index⟩

/-- A machine loads the registers from a place that lies in memory. -/
theorem Sound.exists_load (hm : m.Sound) (hstatus : m.status = .running)
    (hfetch : m.Fetches (.load x)) (hroom : m.index.toNat + x.val ≤ 4095) (host : H) :
    ∃ turn, m.step host = .ok turn ∧ turn.fault = none ∧ Loads x m turn.machine := by
  have heffect : m.effect = .ok (.quiet
      ((m.pass.setFirst (m.pass.memory.slice m.pass.index.toNat (x.val + 1))).indexMoved x)) := by
    rw [hfetch.effect_eq, effectOf, afterLoad, if_neg (not_size_le hroom)]
    rfl
  refine ⟨_, step_eq_turn hstatus hm.depth_le host, ?_⟩
  rw [turn_quiet heffect]
  have hloads := loads_setFirst (m := m.pass) hroom
  exact ⟨rfl, hloads.inside, hloads.outside, hloads.memory, hloads.index⟩

end Step

end Machine

/-! ## The steps in between -/

namespace Stride

/-- The step raises no fault and writes no byte of a window. -/
def Spares (first last : Nat) (s : Stride) : Prop :=
  s.fault = none ∧ ∀ a, first ≤ a → a ≤ last → ¬ s.source.Writes a

/-- The step carries out an instruction that changes none of registers zero to `x`. -/
def Retains (x : Register) (s : Stride) : Prop :=
  ∀ i, s.source.Fetches i → ∀ r ≤ x, i.changes r = false

variable {s : Stride} {first last : Nat} {x : Register}

theorem Taken.status_eq (h : s.Taken) (hsource : s.source.Sound) (hfault : s.fault = none) :
    s.target.status = .running := by
  obtain ⟨H, _, host, turn, hstep, hturn, htarget⟩ := h
  have hstatus := (hsource.step hstep).2.2
  rw [hturn, hfault] at hstatus
  exact htarget ▸ hstatus

theorem Taken.get_of_spares (h : s.Taken) (hsource : s.source.Sound) (hspares : s.Spares first last)
    {a : Nat} (ha : a < Memory.size) (hfirst : first ≤ a) (hlast : a ≤ last) :
    s.target.memory.get a = s.source.memory.get a := by
  obtain ⟨i, hfetch, hfootprint⟩ := h.exists_footprint hsource hspares.1
  exact hfootprint.memory a ha fun hwrites => hspares.2 a hfirst hlast ⟨i, hfetch, hwrites⟩

end Stride

namespace Machine.Path

open Stride

variable {m m' : Machine} {strides : List Stride} {first last : Nat} {x : Register}

/-- Steps that raise no fault leave the machine running, in the dialect that it has. -/
theorem status_eq (h : Path m strides m') (hm : m.Sound) (hstatus : m.status = .running)
    (hfault : ∀ s ∈ strides, s.fault = none) :
    m'.status = .running ∧ m'.dialect = m.dialect := by
  induction h with
  | nil => exact ⟨hstatus, rfl⟩
  | cons htaken _ ih =>
    obtain ⟨hnone, hrest⟩ := List.forall_mem_cons.mp hfault
    obtain ⟨i, -, hfootprint⟩ := htaken.exists_footprint hm hnone
    obtain ⟨hrunning, hdialect⟩ := ih (htaken.sound hm) (htaken.status_eq hm hnone) hrest
    exact ⟨hrunning, hdialect.trans hfootprint.dialect⟩

theorem get_of_spares (h : Path m strides m') (hm : m.Sound)
    (hspares : ∀ s ∈ strides, s.Spares first last) {a : Nat} (ha : a < Memory.size)
    (hfirst : first ≤ a) (hlast : a ≤ last) : m'.memory.get a = m.memory.get a := by
  induction h with
  | nil => rfl
  | cons htaken _ ih =>
    obtain ⟨hnext, hrest⟩ := List.forall_mem_cons.mp hspares
    rw [ih (htaken.sound hm) hrest, htaken.get_of_spares hm hnext ha hfirst hlast]

theorem reg_of_retains (h : Path m strides m') (hm : m.Sound)
    (hfault : ∀ s ∈ strides, s.fault = none) (hretains : ∀ s ∈ strides, s.Retains x)
    {r : Register} (hr : r ≤ x) : m'.reg r = m.reg r := by
  induction h with
  | nil => rfl
  | cons htaken _ ih =>
    obtain ⟨hnone, hfaultRest⟩ := List.forall_mem_cons.mp hfault
    obtain ⟨hnext, hrest⟩ := List.forall_mem_cons.mp hretains
    obtain ⟨i, hfetch, hfootprint⟩ := htaken.exists_footprint hm hnone
    rw [ih (htaken.sound hm) hfaultRest hrest, hfootprint.reg r (hnext i hfetch r hr)]

end Machine.Path

namespace Machine

variable {m m' stored loaded : Machine} {x : Register}

theorem indexAfter_congr (hindex : m'.index = m.index) (hdialect : m'.dialect = m.dialect) :
    m'.indexAfter x = m.indexAfter x := by
  rw [indexAfter, indexAfter, hindex, hdialect]

/-- What was stored is loaded, if the bytes that hold it are as they were. -/
theorem Stores.reg_of_loads (h : Stores x m stored) (hload : Loads x m' loaded)
    (hindex : m'.index = m.index)
    (hkept : ∀ a, m.index.toNat ≤ a → a ≤ m.index.toNat + x.val →
      m'.memory.get a = stored.memory.get a) {r : Register} (hr : r ≤ x) :
    loaded.reg r = m.reg r := by
  rw [hload.inside r hr, hindex, hkept _ (Nat.le_add_right ..) (Nat.add_le_add_left hr _),
    h.inside r hr]

/-- What was loaded is what memory holds, so that storing it changes nothing. -/
theorem Loads.memory_of_stores (h : Loads x m loaded) (hstore : Stores x m' stored)
    (hindex : m'.index = m.index) (hmemory : m'.memory = m.memory)
    (hregs : ∀ r ≤ x, m'.reg r = loaded.reg r) : stored.memory = m.memory := by
  refine Memory.ext_get fun a _ => ?_
  by_cases hinside : m.index.toNat ≤ a ∧ a ≤ m.index.toNat + x.val
  · obtain ⟨k, rfl⟩ := Nat.exists_eq_add_of_le hinside.1
    have hk : k ≤ x.val := Nat.le_of_add_le_add_left hinside.2
    let r : Register := ⟨k, hk.trans_lt x.isLt⟩
    have hreg := hstore.inside r hk
    rw [hindex] at hreg
    rw [hreg, hregs r hk, h.inside r hk]
  · have hout : a < m'.index.toNat ∨ m'.index.toNat + x.val < a := by
      rw [hindex]
      omega
    rw [hstore.outside a hout, hmemory]

section After

variable {strides : List Stride} {H : Type} [Host H]

/-- Stored registers are loaded again after steps that do not write where they are. -/
theorem Stores.exists_load_back (h : Stores x m stored) (hroom : m.index.toNat + x.val ≤ 4095)
    (hstored : stored.Sound) (hgoes : stored.status = .running ∧ stored.dialect = m.dialect)
    (hpath : Path stored strides m')
    (hspares : ∀ s ∈ strides, s.Spares m.index.toNat (m.index.toNat + x.val))
    (hfetch : m'.Fetches (.load x)) (hindex : m'.index = m.index) (host : H) :
    ∃ loaded, m'.step host = .ok loaded ∧ loaded.fault = none ∧
      (∀ r ≤ x, loaded.machine.reg r = m.reg r) ∧
      (∀ r, x < r → loaded.machine.reg r = m'.reg r) ∧
      loaded.machine.index.toNat = m.indexAfter x := by
  obtain ⟨hstatus, hdialect⟩ := hpath.status_eq hstored hgoes.1 fun s hs => (hspares s hs).1
  obtain ⟨loaded, hstep, hnone, hloads⟩ :=
    (hpath.sound hstored).exists_load hstatus hfetch (hindex ▸ hroom) host
  refine ⟨loaded, hstep, hnone, fun r hr => ?_, hloads.outside,
    hloads.index.trans (indexAfter_congr hindex (hdialect.trans hgoes.2))⟩
  refine h.reg_of_loads hloads hindex (fun a hfirst hlast => ?_) hr
  exact hpath.get_of_spares hstored hspares (Nat.lt_succ_of_le (hlast.trans hroom)) hfirst hlast

/-- Loaded registers are stored again in the same place after steps that leave memory and registers
alone; the index register may also be set back from outside. -/
theorem Loads.exists_store_back (h : Loads x m loaded) (hroom : m.index.toNat + x.val ≤ 4095)
    (hloaded : loaded.Sound) (hgoes : loaded.status = .running ∧ loaded.dialect = m.dialect)
    (hpath : Path loaded strides m') (hquiet : ∀ s ∈ strides, s.Spares 0 4095 ∧ s.Retains x)
    (hfetch : Fetches { m' with index := m.index } (.store x)) (host : H) :
    ∃ stored, step { m' with index := m.index } host = .ok stored ∧ stored.fault = none ∧
      stored.machine.memory = m.memory ∧ stored.machine.index.toNat = m.indexAfter x := by
  have hfault : ∀ s ∈ strides, s.fault = none := fun s hs => (hquiet s hs).1.1
  obtain ⟨hstatus, hdialect⟩ := hpath.status_eq hloaded hgoes.1 hfault
  have hback : Sound { m' with index := m.index } := by
    have hlast := hpath.sound hloaded
    exact ⟨hlast.depth_le, hlast.pc_le, hlast.target_le⟩
  obtain ⟨stored, hstep, hnone, hstores⟩ := hback.exists_store hstatus hfetch hroom host
  have hmemory : m'.memory = m.memory := Memory.ext_get fun a ha => by
    rw [hpath.get_of_spares hloaded (fun s hs => (hquiet s hs).1) ha (Nat.zero_le a)
      (Nat.le_of_lt_succ ha), h.memory]
  refine ⟨stored, hstep, hnone, ?_,
    hstores.index.trans (indexAfter_congr rfl (hdialect.trans hgoes.2))⟩
  refine h.memory_of_stores hstores rfl hmemory fun r hr => ?_
  exact hpath.reg_of_retains hloaded hfault (fun s hs => (hquiet s hs).2) hr

end After

/-- Registers that are stored come back when they are loaded from the same place, if no step in
between writes there; the registers above them stay as they are. Registers that are loaded and then
stored in the same place, with nothing written and none of them changed in between, leave memory as
it was. There the index register may also be set back from outside. -/
theorem registers_come_back (hm : m.Reachable) (hstatus : m.status = .running) (x : Register)
    (hroom : m.index.toNat + x.val ≤ 4095) {H : Type} [Host H] (host : H) :
    (m.Fetches (.store x) →
      ∃ stored, m.step host = .ok stored ∧ stored.fault = none ∧ Stores x m stored.machine ∧
        ∀ strides m', Path stored.machine strides m' →
          (∀ s ∈ strides, s.Spares m.index.toNat (m.index.toNat + x.val)) →
          m'.Fetches (.load x) → m'.index = m.index → ∀ {H' : Type} [Host H'] (host' : H'),
            ∃ loaded, m'.step host' = .ok loaded ∧ loaded.fault = none ∧
              (∀ r ≤ x, loaded.machine.reg r = m.reg r) ∧
              (∀ r, x < r → loaded.machine.reg r = m'.reg r) ∧
              loaded.machine.index.toNat = m.indexAfter x) ∧
    (m.Fetches (.load x) →
      ∃ loaded, m.step host = .ok loaded ∧ loaded.fault = none ∧ Loads x m loaded.machine ∧
        ∀ strides m', Path loaded.machine strides m' →
          (∀ s ∈ strides, s.Spares 0 4095 ∧ s.Retains x) →
          ∀ back : Machine, back = { m' with index := m.index } → back.Fetches (.store x) →
            ∀ {H' : Type} [Host H'] (host' : H'),
              ∃ stored, back.step host' = .ok stored ∧ stored.fault = none ∧
                stored.machine.memory = m.memory ∧
                stored.machine.index.toNat = m.indexAfter x) := by
  -- the step itself is a path, so that it leaves the machine running in its dialect
  have hgoes {turn : Turn H} (hstep : m.step host = .ok turn) (hnone : turn.fault = none) :=
    (Path.cons_of_step hstep (.nil _)).status_eq hm.sound hstatus
      (List.forall_mem_singleton.mpr hnone)
  constructor
  · intro hfetch
    obtain ⟨stored, hstep, hnone, hstores⟩ := hm.sound.exists_store hstatus hfetch hroom host
    refine ⟨stored, hstep, hnone, hstores, ?_⟩
    intro strides m' hpath hspares hload hindex H' _ host'
    exact hstores.exists_load_back hroom (hm.sound.step hstep).2.1 (hgoes hstep hnone) hpath hspares
      hload hindex host'
  · intro hfetch
    obtain ⟨loaded, hstep, hnone, hloads⟩ := hm.sound.exists_load hstatus hfetch hroom host
    refine ⟨loaded, hstep, hnone, hloads, ?_⟩
    rintro strides m' hpath hquiet _ rfl hstore H' _ host'
    exact hloads.exists_store_back hroom (hm.sound.step hstep).2.1 (hgoes hstep hnone) hpath hquiet
      hstore host'

/-- A program that stores a register over the font, clears it and loads it, and then stores it once
more. -/
theorem register_kept_in_font :
    ∃ (m m' : Machine) (stored loaded again : Turn Recorder),
      (∃ m₀, boot .superChip (.cycle [])
          [0x60, 0x2a, 0xf0, 0x55, 0x60, 0x00, 0xf0, 0x65, 0xf0, 0x55] = .ok m₀ ∧
        m₀.step ({} : Recorder) = .ok ⟨m, {}, none⟩) ∧
      m.reg (lastDigit 0) = 0x2a ∧ m.step {} = .ok stored ∧
      stored.machine.memory.get 0 = 0x2a ∧
      stored.machine.step ({} : Recorder) = .ok ⟨m', {}, none⟩ ∧ m'.reg (lastDigit 0) = 0 ∧
      m'.step {} = .ok loaded ∧ loaded.machine.reg (lastDigit 0) = 0x2a ∧
      loaded.machine.step {} = .ok again ∧ again.fault = none ∧
      again.machine.memory = m'.memory := by
  obtain ⟨m₀, hboot, ⟨results, hrun⟩, hstatus, -, hindex, hdialect, hpc, hwords⟩ :=
    exists_boot .superChip (.cycle [])
      [0x60, 0x2a, 0xf0, 0x55, 0x60, 0x00, 0xf0, 0x65, 0xf0, 0x55] (by decide)
  let x := lastDigit 0
  have hset : m₀.Fetches (.setByte x 0x2a) :=
    fetches_of_pc hpc (by decide) (hwords 0 (by decide))
  let m : Machine := m₀.pass.set x 0x2a
  have hstep₀ : m₀.step ({} : Recorder) = .ok ⟨m, {}, none⟩ := by
    rw [step_eq_turn hstatus hrun.sound.depth_le, turn_quiet hset.effect_eq]
  have hm : m.Reachable := ⟨_, hrun.step hstep₀⟩
  have hpc₁ : m.pc.toNat = 0x202 := hset.1.toNat_pc_pass.trans (congrArg (· + 2) hpc)
  have hreg : m.reg x = 0x2a := (m₀.pass.reg_set x 0x2a x).trans (if_pos rfl)
  have hx : x.val = 0 := by decide
  have hzero : m.index.toNat = 0 := congrArg UInt16.toNat hindex
  have hroom : m.index.toNat + x.val ≤ 4095 := by omega
  have hstore : m.Fetches (.store x) := fetches_of_pc hpc₁ (by decide) (hwords 2 (by decide))
  obtain ⟨stored, hstep₁, hnone₁, hstores, hback⟩ :=
    (registers_come_back hm hstatus x hroom ({} : Recorder)).1 hstore
  have htaken₁ := Stride.taken_of_step hstep₁
  have hrunning₁ := htaken₁.status_eq hm.sound hnone₁
  have hpc₂ : stored.machine.pc.toNat = 0x204 :=
    (htaken₁.toNat_pc hm.sound hnone₁ hstore rfl rfl).trans (congrArg (· + 2) hpc₁)
  -- the program lies above the byte that was written
  have hword {a : Nat} (ha : 0 < a) : stored.machine.memory.word a = m₀.memory.word a :=
    Memory.word_congr (hstores.outside a (.inr (by omega)))
      (hstores.outside (a + 1) (.inr (by omega)))
  have hclear : stored.machine.Fetches (.setByte x 0) :=
    fetches_of_pc hpc₂ (by decide) ((hword (by decide)).trans (hwords 4 (by decide)))
  let m' : Machine := stored.machine.pass.set x 0
  have hstep₂ : stored.machine.step ({} : Recorder) = .ok ⟨m', {}, none⟩ := by
    rw [step_eq_turn hrunning₁ (htaken₁.sound hm.sound).depth_le, turn_quiet hclear.effect_eq]
  have hm' : m'.Reachable := ⟨_, ((hrun.step hstep₀).step hstep₁).step hstep₂⟩
  have hpc₃ : m'.pc.toNat = 0x206 := hclear.1.toNat_pc_pass.trans (congrArg (· + 2) hpc₂)
  have hload : m'.Fetches (.load x) :=
    fetches_of_pc hpc₃ (by decide) ((hword (by decide)).trans (hwords 6 (by decide)))
  -- this dialect leaves the index register where it is
  have hdialect' : m.dialect.advancesIndex = false := congrArg Dialect.advancesIndex hdialect
  have hindex' : m'.index = m.index :=
    UInt16.toNat_inj.mp (hstores.index.trans (indexAfter_of_stays hdialect'))
  have hspares : Stride.Spares m.index.toNat (m.index.toNat + x.val)
      ⟨stored.machine, none, m'⟩ := by
    refine ⟨rfl, ?_⟩
    rintro a - - ⟨i, hi, hwrites⟩
    cases hclear.unique hi
    exact hwrites
  obtain ⟨loaded, hstep₃, hnone₃, hlow, -, -⟩ :=
    hback _ m' (.cons_of_step hstep₂ (.nil m')) (List.forall_mem_singleton.mpr hspares) hload
      hindex' ({} : Recorder)
  -- the load is also the first of the two steps of the converse
  obtain ⟨hrunning₂, hdialect₂⟩ :=
    (Path.cons_of_step hstep₁ (.cons_of_step hstep₂ (.nil m'))).status_eq hm.sound hstatus
      (List.forall_mem_cons.mpr ⟨hnone₁, List.forall_mem_singleton.mpr rfl⟩)
  obtain ⟨loaded', hstep₃', -, hloads, hagain⟩ :=
    (registers_come_back hm' hrunning₂ x (hindex' ▸ hroom) ({} : Recorder)).2 hload
  obtain rfl : loaded = loaded' := Except.ok.inj (hstep₃.symm.trans hstep₃')
  have hpc₄ : loaded.machine.pc.toNat = 0x208 :=
    ((Stride.taken_of_step hstep₃).toNat_pc hm'.sound hnone₃ hload rfl rfl).trans
      (congrArg (· + 2) hpc₃)
  have hindex'' : loaded.machine.index = m'.index :=
    UInt16.toNat_inj.mp (hloads.index.trans (indexAfter_of_stays (hdialect₂ ▸ hdialect')))
  have hback : loaded.machine = { loaded.machine with index := m'.index } := by
    rw [← hindex'']
  have hrestore : loaded.machine.Fetches (.store x) := by
    refine fetches_of_pc hpc₄ (by decide) ?_
    rw [hloads.memory]
    exact (hword (by decide)).trans (hwords 8 (by decide))
  obtain ⟨again, hstep₄, hnone₄, hmemory, -⟩ :=
    hagain [] loaded.machine (.nil _) (List.forall_mem_nil _) loaded.machine hback hrestore
      ({} : Recorder)
  refine ⟨m, m', stored, loaded, again, ⟨m₀, hboot, hstep₀⟩, hreg, hstep₁, ?_, hstep₂,
    (stored.machine.pass.reg_set x 0 x).trans (if_pos rfl), hstep₃,
    (hlow x (Fin.le_refl x)).trans hreg, hstep₄, hnone₄, hmemory⟩
  have hbyte := hstores.inside x (Fin.le_refl x)
  rwa [hzero, hx, hreg] at hbyte

end Machine
end Chip8
