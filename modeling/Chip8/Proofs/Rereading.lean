import Chip8.Machine.Snapshot
import Mathlib.Data.List.Basic

/-!
# Reading a snapshot back

The text of a snapshot consists of rows, and no row has a line break in it. A row tells by how it
begins what it is about, and its numbers either have a fixed number of digits or are the last thing
in the row. So the snapshot can be read back from its text, although rows may be missing and the
number of return addresses is nowhere written.
-/
namespace Chip8.Snapshot

/-! ## Rows -/

def faultRow (fault : Fault) : String :=
  s!"Runtime error: {fault.tag} ({fault.message})"

def instructionRow (word : Word) : String :=
  s!"Instruction: {Hex.fixed 4 word.toNat}"

def stackRow (n : Nat) (target : Word) : String :=
  s!"\tSTACK[{n}]: {Hex.fixed 4 target.toNat}"

/-- The rows behind the one with the registers. -/
def lowerRows (s : Snapshot) : List String :=
  (s.instruction.map instructionRow).toList ++ s.stack.mapIdx stackRow

def rows (s : Snapshot) : List String :=
  (s.fault.map faultRow).toList ++ s.registerLine :: s.lowerRows

/-- A row behind a line break. -/
def broken (row : String) : List Char :=
  '\n' :: row.toList

theorem intercalate_cons (row : String) (rows : List String) :
    ['\n'].intercalate ((row :: rows).map String.toList) = row.toList ++ rows.flatMap broken := by
  induction rows generalizing row with
  | nil => exact List.intercalate_singleton.trans (List.append_nil _).symm
  | cons next rows ih =>
    rw [List.map_cons, List.map_cons, List.intercalate_cons_cons, ← List.map_cons, ih,
      List.flatMap_cons, broken, List.append_assoc]
    rfl

theorem toList_instructionLine (word : Option Word) :
    (instructionLine word).toList = (word.map instructionRow).toList.flatMap broken := by
  cases word with
  | none => rfl
  | some word =>
    have hlabel : "\nInstruction: ".toList = '\n' :: "Instruction: ".toList := by decide
    change ("\nInstruction: " ++ Hex.fixed 4 word.toNat).toList =
      '\n' :: ("Instruction: " ++ Hex.fixed 4 word.toNat).toList ++ []
    simp only [String.toList_append, hlabel, List.cons_append, List.append_nil]

theorem toList_stackLine (n : Nat) (target : Word) :
    (stackLine n target).toList = broken (stackRow n target) := by
  have hlabel : "\n\tSTACK[".toList = '\n' :: "\tSTACK[".toList := by decide
  change ("\n\tSTACK[" ++ toString n ++ "]: " ++ Hex.fixed 4 target.toNat).toList =
    '\n' :: ("\tSTACK[" ++ toString n ++ "]: " ++ Hex.fixed 4 target.toNat).toList
  simp only [String.toList_append, hlabel, List.cons_append]

theorem toList_faultLine (fault : Fault) :
    (faultLine (some fault)).toList = (faultRow fault).toList ++ ['\n'] := by
  have hend : ")\n".toList = ")".toList ++ ['\n'] := by decide
  change ("Runtime error: " ++ fault.tag ++ " (" ++ fault.message ++ ")\n").toList =
    ("Runtime error: " ++ fault.tag ++ " (" ++ fault.message ++ ")").toList ++ ['\n']
  simp only [String.toList_append, hend, List.append_assoc]

/-- The text of a snapshot is its rows with line breaks between them. -/
theorem toList_text (s : Snapshot) :
    s.text.toList = ['\n'].intercalate (s.rows.map String.toList) := by
  have hstack : (String.join (s.stack.mapIdx stackLine)).toList =
      (s.stack.mapIdx stackRow).flatMap broken := by
    simp only [String.toList_join, List.mapIdx_eq_zipIdx_map, List.flatMap_map, toList_stackLine]
  have hrest : s.text.toList = (faultLine s.fault).toList ++
      (s.registerLine.toList ++ s.lowerRows.flatMap broken) := by
    simp only [text, String.toList_append, hstack, toList_instructionLine, lowerRows,
      List.flatMap_append, List.append_assoc]
  rw [hrest, rows]
  cases s.fault with
  | none =>
    have hempty : (faultLine none).toList = [] := rfl
    rw [hempty, List.nil_append, Option.map_none, Option.toList_none, List.nil_append,
      intercalate_cons]
  | some fault =>
    rw [Option.map_some, Option.toList_some, List.singleton_append, intercalate_cons,
      toList_faultLine, List.flatMap_cons, broken, List.append_assoc, List.singleton_append,
      List.cons_append]

/-! ## No row has a line break -/

theorem toList_faultRow (fault : Fault) :
    (faultRow fault).toList = "Runtime error: ".toList ++ (fault.tag.toList ++
      (" (".toList ++ (fault.message.toList ++ ")".toList))) := by
  change ("Runtime error: " ++ fault.tag ++ " (" ++ fault.message ++ ")").toList = _
  simp only [String.toList_append, List.append_assoc]

theorem toList_registerLine (s : Snapshot) :
    s.registerLine.toList = "PC = ".toList ++ (Hex.fixedDigits 4 s.pc.toNat ++
      (", I = ".toList ++ (Hex.fixedDigits 4 s.index.toNat ++
        (", SP = ".toList ++ Hex.digits s.depth)))) := by
  change ("PC = " ++ Hex.fixed 4 s.pc.toNat ++ ", I = " ++ Hex.fixed 4 s.index.toNat ++ ", SP = " ++
    Hex.text s.depth).toList = _
  simp only [String.toList_append, Hex.fixed, Hex.text, String.toList_ofList, List.append_assoc]

theorem toList_instructionRow (word : Word) :
    (instructionRow word).toList = "Instruction: ".toList ++ Hex.fixedDigits 4 word.toNat := by
  change ("Instruction: " ++ Hex.fixed 4 word.toNat).toList = _
  rw [String.toList_append, Hex.fixed, String.toList_ofList (l := Hex.fixedDigits 4 word.toNat)]

theorem toList_stackRow (n : Nat) (target : Word) :
    (stackRow n target).toList = "\tSTACK[".toList ++ (Nat.toDigits 10 n ++
      ("]: ".toList ++ Hex.fixedDigits 4 target.toNat)) := by
  change ("\tSTACK[" ++ toString n ++ "]: " ++ Hex.fixed 4 target.toNat).toList = _
  simp only [String.toList_append, Hex.fixed, String.toList_ofList, Nat.toString_eq_repr,
    Nat.toList_repr, List.append_assoc]

theorem break_not_mem_fixedDigits (n : Nat) : '\n' ∉ Hex.fixedDigits 4 n := fun h =>
  absurd (Hex.isAlphanum_of_mem_fixedDigits h) (by decide)

theorem break_not_mem_digits (n : Nat) : '\n' ∉ Hex.digits n := fun h =>
  absurd (Hex.isAlphanum_of_mem_digits h) (by decide)

theorem break_not_mem_faultRow (fault : Fault) : '\n' ∉ (faultRow fault).toList := by
  have hlabel : '\n' ∉ "Runtime error: ".toList ∧ '\n' ∉ " (".toList ∧ '\n' ∉ ")".toList := by
    decide
  have htag : '\n' ∉ fault.tag.toList := fun h => absurd (Fault.isUpper_of_mem_tag h) (by decide)
  have hmessage : '\n' ∉ fault.message.toList := fun h =>
    absurd (Fault.isLower_of_mem_message h) (by decide)
  rw [toList_faultRow]
  simp only [List.mem_append, htag, hmessage, hlabel, or_self, not_false_eq_true]

theorem break_not_mem_rows {s : Snapshot} {row : String} (h : row ∈ s.rows) :
    '\n' ∉ row.toList := by
  simp only [rows, lowerRows, List.mem_append, List.mem_cons, Option.mem_toList,
    Option.map_eq_some_iff, List.mem_mapIdx] at h
  obtain ⟨fault, -, rfl⟩ | rfl | ⟨word, -, rfl⟩ | ⟨n, -, rfl⟩ := h
  · exact break_not_mem_faultRow fault
  · rw [toList_registerLine]
    have hlabel : '\n' ∉ "PC = ".toList ∧ '\n' ∉ ", I = ".toList ∧ '\n' ∉ ", SP = ".toList := by
      decide
    simp only [List.mem_append, break_not_mem_fixedDigits, break_not_mem_digits, hlabel, or_self,
      not_false_eq_true]
  · have hlabel : '\n' ∉ "Instruction: ".toList := by decide
    rw [toList_instructionRow, List.mem_append]
    exact not_or.mpr ⟨hlabel, break_not_mem_fixedDigits _⟩
  · have hlabel : '\n' ∉ "\tSTACK[".toList ∧ '\n' ∉ "]: ".toList := by decide
    have hplace : '\n' ∉ Nat.toDigits 10 n := fun hmem =>
      absurd (Nat.isDigit_of_mem_toDigits (by decide) (by decide) hmem) (by decide)
    rw [toList_stackRow]
    simp only [List.mem_append, break_not_mem_fixedDigits, hplace, hlabel, or_self,
      not_false_eq_true]

/-- The rows are what lies between the line breaks of the text. -/
theorem splitOn_text (s : Snapshot) : s.text.toList.splitOn '\n' = s.rows.map String.toList := by
  rw [toList_text]
  refine List.splitOn_intercalate '\n' ?_ ?_
  · intro row hrow
    obtain ⟨text, htext, rfl⟩ := List.mem_map.mp hrow
    exact break_not_mem_rows htext
  · simp [rows]

/-! ## Reading rows -/

def behind (label : String) (row : List Char) : Option (List Char) :=
  label.toList.isPrefixOf? row

/-- A word in four digits. -/
def readWord (cs : List Char) : Option Word :=
  (Hex.ofDigits? cs).map .ofNat

def readFault (row : List Char) : Option Fault := do
  let rest ← behind "Runtime error: " row
  Fault.ofTag? (.ofList (rest.takeWhile (· ≠ ' ')))

/-- Program counter, index register and depth of the stack. -/
def readRegisters (row : List Char) : Option (Word × Word × Nat) := do
  let rest ← behind "PC = " row
  let pc ← readWord (rest.take 4)
  let rest ← behind ", I = " (rest.drop 4)
  let index ← readWord (rest.take 4)
  let rest ← behind ", SP = " (rest.drop 4)
  let depth ← Hex.ofDigits? rest
  return (pc, index, depth)

def readInstruction (row : List Char) : Option Word := do
  let rest ← behind "Instruction: " row
  readWord rest

def readTarget (row : List Char) : Option Word := do
  let rest ← behind "\tSTACK[" row
  let rest ← behind "]: " (rest.dropWhile (· ≠ ']'))
  readWord rest

theorem behind_append (label : String) (rest : List Char) :
    behind label (label.toList ++ rest) = some rest :=
  List.isPrefixOf?_eq_some_iff_append_eq.mpr rfl

theorem readWord_fixedDigits (w : Word) : readWord (Hex.fixedDigits 4 w.toNat) = some w := by
  rw [readWord, Hex.ofDigits?_fixedDigits_four w.toNat_lt, Option.map_some, UInt16.ofNat_toNat]

theorem readFault_faultRow (fault : Fault) : readFault (faultRow fault).toList = some fault := by
  have htag : ' ' ∉ fault.tag.toList := fun h => absurd (Fault.isUpper_of_mem_tag h) (by decide)
  have hpos : ∀ c ∈ fault.tag.toList, decide (c ≠ ' ') = true := fun c hc =>
    decide_eq_true fun hblank => htag (hblank ▸ hc)
  have hread (rest : List Char) :
      (fault.tag.toList ++ (" (".toList ++ rest)).takeWhile (· ≠ ' ') = fault.tag.toList := by
    rw [List.takeWhile_append_of_pos hpos]
    exact List.append_nil _
  rw [toList_faultRow, readFault, behind_append, Option.bind_eq_bind, Option.bind_some, hread,
    String.ofList_toList, Fault.ofTag?_tag]

theorem readFault_registerLine (s : Snapshot) : readFault s.registerLine.toList = none := by
  rw [toList_registerLine]
  rfl

theorem readRegisters_registerLine (s : Snapshot) :
    readRegisters s.registerLine.toList = some (s.pc, s.index, s.depth) := by
  have hlength (n : Nat) : (Hex.fixedDigits 4 n).length = 4 := Hex.length_fixedDigits 4 n
  rw [toList_registerLine, readRegisters]
  simp only [behind_append, List.take_left' (hlength _), List.drop_left' (hlength _),
    readWord_fixedDigits, Hex.ofDigits?_digits, Option.bind_eq_bind, Option.bind_some,
    Option.pure_def]

theorem readInstruction_instructionRow (word : Word) :
    readInstruction (instructionRow word).toList = some word := by
  rw [toList_instructionRow, readInstruction, behind_append, Option.bind_eq_bind, Option.bind_some,
    readWord_fixedDigits]

theorem readInstruction_stackRow (n : Nat) (target : Word) :
    readInstruction (stackRow n target).toList = none := by
  rw [toList_stackRow]
  rfl

theorem readTarget_stackRow (n : Nat) (target : Word) :
    readTarget (stackRow n target).toList = some target := by
  have hplace : ∀ c ∈ Nat.toDigits 10 n, decide (c ≠ ']') = true := by
    refine fun c hc => decide_eq_true ?_
    rintro rfl
    exact absurd (Nat.isDigit_of_mem_toDigits (by decide) (by decide) hc) (by decide)
  have hskip : (Nat.toDigits 10 n ++ ("]: ".toList ++ Hex.fixedDigits 4 target.toNat)).dropWhile
      (· ≠ ']') = "]: ".toList ++ Hex.fixedDigits 4 target.toNat := by
    rw [List.dropWhile_append_of_pos hplace]
    rfl
  rw [toList_stackRow, readTarget, behind_append, Option.bind_eq_bind, Option.bind_some, hskip,
    behind_append, Option.bind_some, readWord_fixedDigits]

/-! ## Reading a text -/

/-- Read the first row if it is of the right kind, and give the rows behind it. -/
def optionalRow {α : Type} (read : List Char → Option α) :
    List (List Char) → Option α × List (List Char)
  | [] => (none, [])
  | row :: rest =>
    match read row with
    | some a => (some a, rest)
    | none => (none, row :: rest)

def ofRows? (rows : List (List Char)) : Option Snapshot := do
  let (fault, rows) := optionalRow readFault rows
  let (pc, index, depth) ← readRegisters (rows.headD [])
  let (instruction, rows) := optionalRow readInstruction rows.tail
  let stack ← rows.mapM readTarget
  return { fault, pc, index, depth, instruction, stack }

def ofText? (text : String) : Option Snapshot :=
  ofRows? (text.toList.splitOn '\n')

/-- A row that may be missing is found if it is there, as long as the row behind it is of another
kind. -/
theorem optionalRow_append {α : Type} {read : List Char → Option α} {row : α → String}
    (hread : ∀ a, read (row a).toList = some a) {rest : List String}
    (hrest : ∀ next ∈ rest.head?, read next.toList = none) (a : Option α) :
    optionalRow read (((a.map row).toList ++ rest).map String.toList) =
      (a, rest.map String.toList) := by
  cases a with
  | some a =>
    rw [Option.map_some, Option.toList_some, List.singleton_append, List.map_cons, optionalRow,
      hread]
  | none =>
    rw [Option.map_none, Option.toList_none, List.nil_append]
    cases rest with
    | nil => rfl
    | cons next rest => rw [List.map_cons, optionalRow, hrest next rfl]

/-- Numbered rows are read in order, whatever the numbers are. -/
theorem mapM_readTarget {row : Nat → Word → String}
    (hread : ∀ n target, readTarget (row n target).toList = some target) (targets : List Word) :
    ((targets.mapIdx row).map String.toList).mapM readTarget = some targets := by
  induction targets generalizing row with
  | nil => rfl
  | cons target targets ih =>
    rw [List.mapIdx_cons, List.map_cons, List.mapM_cons, hread, ih fun n => hread (n + 1)]
    rfl

theorem ofRows?_rows (s : Snapshot) : ofRows? (s.rows.map String.toList) = some s := by
  have hfault : optionalRow readFault (s.rows.map String.toList) =
      (s.fault, (s.registerLine :: s.lowerRows).map String.toList) := by
    refine optionalRow_append readFault_faultRow ?_ s.fault
    rintro _ ⟨⟩
    exact readFault_registerLine s
  have hinstruction : optionalRow readInstruction (s.lowerRows.map String.toList) =
      (s.instruction, (s.stack.mapIdx stackRow).map String.toList) := by
    refine optionalRow_append readInstruction_instructionRow ?_ s.instruction
    intro next hnext
    obtain ⟨n, -, rfl⟩ := List.mem_mapIdx.mp (List.mem_of_mem_head? hnext)
    exact readInstruction_stackRow n _
  simp only [ofRows?, hfault, List.map_cons, List.headD_cons, List.tail_cons, hinstruction,
    readRegisters_registerLine, mapM_readTarget readTarget_stackRow, Option.bind_eq_bind,
    Option.bind_some, Option.pure_def]

theorem ofText?_text (s : Snapshot) : ofText? s.text = some s := by
  rw [ofText?, splitOn_text, ofRows?_rows]

example : ofText? "PC = 0202, I = 0000, SP = 1\nInstruction: 2202\n\tSTACK[0]: 0202" =
    some ⟨none, 0x202, 0, 1, some 0x2202, [0x202]⟩ := by
  cbv

/-- A text loses nothing: different snapshots have different texts, and each snapshot is read back
from its own. -/
theorem text_injective : Function.Injective text ∧ ∀ s : Snapshot, ofText? s.text = some s := by
  refine ⟨fun s s' htext => ?_, ofText?_text⟩
  apply Option.some.inj
  rw [← ofText?_text s, htext, ofText?_text s']

end Chip8.Snapshot
