import Chip8.Proofs.Operation

/-!
# Loading programs

A program that fits is copied to where programs start, and nothing else of the machine changes,
whether it runs or has halted. A program that does not fit is refused before a byte moves. So after
several programs have been loaded, each byte is that of the last one that fitted and reached it.
-/
namespace Chip8.Machine

variable {m next : Machine} {program : List Byte} {programs : List (List Byte)} {j : Nat}

theorem load_eq_ok : m.load program = .ok next ↔ program.length ≤ Memory.programRoom ∧
    { m with memory := m.memory.put Memory.programBase program } = next := by
  rw [load]
  split
  · next hfits => exact ⟨fun h => ⟨hfits, Except.ok.inj h⟩, fun h => congrArg Except.ok h.2⟩
  · next hlong =>
    constructor
    · intro h
      cases h
    · exact fun h => absurd h.1 hlong

theorem load_of_fits (h : program.length ≤ Memory.programRoom) :
    m.load program = .ok { m with memory := m.memory.put Memory.programBase program } :=
  load_eq_ok.mpr ⟨h, rfl⟩

theorem load_of_long (h : Memory.programRoom < program.length) :
    m.load program = .error ⟨program.length, Memory.programRoom⟩ :=
  (m.load_eq_error_iff program _).mpr ⟨h, rfl⟩

/-- Load a program in place: refuse it, or copy it into its window of memory. -/
def install (program : List Byte) : Exec Machine (Except Oversize Unit) := do
  if Memory.programRoom < program.length then
    return .error ⟨program.length, Memory.programRoom⟩
  else
    writeWindow Memory.programBase program
    return .ok ()

def reloaded (m : Machine) (program : List Byte) : Machine :=
  (m.load program).toOption.getD m

/-- Loading in place does what `load` says. The copy stays within memory. -/
theorem run_install (m : Machine) (program : List Byte) :
    (install program).run m = .ok ((m.load program).map fun _ => ()) (m.reloaded program) := by
  rw [install, reloaded]
  split
  · next hlong =>
    rw [load_of_long hlong]
    rfl
  · next hfits =>
    have hwindow : Memory.Holds Memory.programBase program.length :=
      Nat.add_le_of_le_sub' (by decide) (Nat.not_lt.mp hfits)
    rw [load_of_fits (Nat.not_lt.mp hfits), EStateM.run_bind, run_writeWindow hwindow]
    rfl

/-! ## One program -/

/-- The machine `next` is `m` with a program where programs start. -/
structure Loaded (m : Machine) (program : List Byte) (next : Machine) : Prop where
  bytes : ∀ j (hj : j < program.length), next.memory.get (Memory.programBase + j) = program[j]
  around : ∀ a, a < Memory.programBase ∨ Memory.programBase + program.length ≤ a →
    next.memory.get a = m.memory.get a
  others : next = { m with memory := next.memory }

theorem loaded_of_load (h : m.load program = .ok next) : m.Loaded program next := by
  obtain ⟨hfits, rfl⟩ := load_eq_ok.mp h
  refine ⟨fun j hj => ?_, fun a hout => Memory.get_put_of_outside hout, rfl⟩
  have hroom : Memory.programBase + j < Memory.size := by
    have hsize : Memory.programBase + Memory.programRoom = Memory.size := rfl
    omega
  rw [Memory.get_put _ _ _ _ hroom, if_pos (Nat.le_add_right ..), Nat.add_sub_cancel_left,
    List.getElem?_eq_getElem hj, Option.getD_some]

/-! ## Several programs -/

/-- The byte that loading a program brings to a place, if it fits and reaches so far. -/
def broughtBy (program : List Byte) (j : Nat) : Option Byte :=
  if program.length ≤ Memory.programRoom then program[j]? else none

/-- The byte that the last of some programs brings to a place that brings one there at all. -/
def lastBrought (programs : List (List Byte)) (j : Nat) : Option Byte :=
  programs.reverse.findSome? fun program => broughtBy program j

/-- The machine `last` is `m` after several programs were loaded or refused, the oldest first. -/
structure LoadedAll (m : Machine) (programs : List (List Byte)) (last : Machine) : Prop where
  bytes : ∀ j, last.memory.get (Memory.programBase + j) =
    (lastBrought programs j).getD (m.memory.get (Memory.programBase + j))
  below : ∀ a < Memory.programBase, last.memory.get a = m.memory.get a
  others : last = { m with memory := last.memory }

theorem lastBrought_cons (program : List Byte) (programs : List (List Byte)) (j : Nat) :
    lastBrought (program :: programs) j = (lastBrought programs j).or (broughtBy program j) := by
  rw [lastBrought, List.reverse_cons, List.findSome?_append, List.findSome?_singleton, lastBrought]

theorem get_reloaded (m : Machine) (program : List Byte) (j : Nat) :
    (m.reloaded program).memory.get (Memory.programBase + j) =
      (broughtBy program j).getD (m.memory.get (Memory.programBase + j)) := by
  rw [reloaded, broughtBy]
  split
  · next hfits =>
    have hloaded := loaded_of_load (load_of_fits (m := m) hfits)
    rw [load_of_fits hfits]
    obtain hj | hj := Nat.lt_or_ge j program.length
    · rw [List.getElem?_eq_getElem hj]
      exact hloaded.bytes j hj
    · rw [List.getElem?_eq_none hj]
      exact hloaded.around _ (.inr (Nat.add_le_add_left hj _))
  · next hlong =>
    rw [load_of_long (Nat.not_le.mp hlong)]
    rfl

/-- A load changes nothing but bytes from the start of programs on. -/
theorem reloaded_eq (m : Machine) (program : List Byte) :
    m.reloaded program = { m with memory := (m.reloaded program).memory } ∧
      ∀ a < Memory.programBase, (m.reloaded program).memory.get a = m.memory.get a := by
  rw [reloaded]
  cases hload : m.load program with
  | error e => exact ⟨rfl, fun _ _ => rfl⟩
  | ok next =>
    have hloaded := loaded_of_load hload
    exact ⟨hloaded.others, fun a ha => hloaded.around a (.inl ha)⟩

theorem loadedAll (m : Machine) (programs : List (List Byte)) :
    m.LoadedAll programs (programs.foldl reloaded m) := by
  induction programs generalizing m with
  | nil => exact ⟨fun _ => rfl, fun _ _ => rfl, rfl⟩
  | cons program programs ih =>
    have hlater := ih (m.reloaded program)
    obtain ⟨hothers, hbelow⟩ := m.reloaded_eq program
    refine ⟨fun j => ?_, fun a ha => (hlater.below a ha).trans (hbelow a ha), ?_⟩
    · rw [List.foldl_cons, hlater.bytes, get_reloaded, lastBrought_cons, Option.getD_or]
    · rw [List.foldl_cons, hlater.others, hothers]

/-- A program of more than 3584 bytes is refused and changes nothing; any other is loaded byte by
byte, and nothing else changes. After several programs, each byte is that of the last one which
fitted and reached so far, or the byte that was there before. -/
theorem loading_exact (m : Machine) :
    (∀ program : List Byte,
      (3584 < program.length ∧ m.load program = .error ⟨program.length, 3584⟩ ∧
          (install program).run m = .ok (.error ⟨program.length, 3584⟩) m) ∨
        (program.length ≤ 3584 ∧ ∃ next, m.load program = .ok next ∧
          (install program).run m = .ok (.ok ()) next ∧ m.Loaded program next)) ∧
      ∀ programs : List (List Byte), m.LoadedAll programs (programs.foldl reloaded m) := by
  refine ⟨fun program => ?_, m.loadedAll⟩
  rw [run_install, reloaded]
  obtain hlong | hfits := Nat.lt_or_ge Memory.programRoom program.length
  · rw [load_of_long hlong]
    exact .inl ⟨hlong, rfl, rfl⟩
  · have hload := load_of_fits (m := m) hfits
    rw [hload]
    exact .inr ⟨hfits, _, rfl, rfl, loaded_of_load hload⟩

/-- A short program leaves the end of a longer one behind. -/
example : (List.range 4).map (lastBrought [[1, 2, 3], [4]]) = [some 4, some 2, some 3, none] := by
  decide

end Chip8.Machine
