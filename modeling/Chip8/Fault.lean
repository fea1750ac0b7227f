/-!
# Faults

A fault halts a machine for good. Each one has an upper-case tag for reports and a sentence for
people. Two of them arise before an instruction has been read.
-/
namespace Chip8

/-- The reasons for which a machine halts. -/
inductive Fault where
  /-- The program counter is below the program area. -/
  | pcUnderflow
  /-- The program counter leaves no room for an instruction. -/
  | pcOverflow
  /-- A call with a full stack. -/
  | stackOverflow
  /-- A return with an empty stack. -/
  | stackUnderflow
  /-- A jump onto itself. -/
  | infiniteLoop
  /-- A word that names no instruction. -/
  | illegalInstruction
  /-- A glyph for something that is no hexadecimal digit. -/
  | illegalDigit
  /-- The index register leads past the end of memory. -/
  | indexOverflow
  /-- A key number that the keypad does not have. -/
  | badKey
deriving DecidableEq, Repr

namespace Fault

def all : List Fault :=
  [pcUnderflow, pcOverflow, stackOverflow, stackUnderflow, infiniteLoop, illegalInstruction,
    illegalDigit, indexOverflow, badKey]

/-- The short upper-case form that reports print. -/
def tag : Fault → String
  | pcUnderflow => "PC_UNDERFLOW"
  | pcOverflow => "PC_OVERFLOW"
  | stackOverflow => "STACK_OVERFLOW"
  | stackUnderflow => "STACK_UNDERFLOW"
  | infiniteLoop => "INFINITE_LOOP"
  | illegalInstruction => "ILLEGAL_INSTRUCTION"
  | illegalDigit => "ILLEGAL_DIGIT"
  | indexOverflow => "INDEX_OVERFLOW"
  | badKey => "BAD_KEY"

def message : Fault → String
  | pcUnderflow => "program counter below the program area"
  | pcOverflow => "program counter past the end of memory"
  | stackOverflow => "call stack overflow"
  | stackUnderflow => "return with an empty call stack"
  | infiniteLoop => "jump to itself (infinite loop)"
  | illegalInstruction => "illegal instruction"
  | illegalDigit => "font glyph out of range"
  | indexOverflow => "index register access past the end of memory"
  | badKey => "key out of range"

/-- Whether the fault arises before an instruction has been read, so that there is none to show. -/
def precedesFetch : Fault → Bool
  | pcUnderflow | pcOverflow => true
  | _ => false

def ofTag? (text : String) : Option Fault :=
  all.find? (·.tag == text)

@[simp] theorem ofTag?_tag (f : Fault) : ofTag? f.tag = some f := by
  cases f <;> decide

/-- A tag is written in capitals and underscores. -/
theorem isUpper_of_mem_tag {f : Fault} {c : Char} (h : c ∈ f.tag.toList) :
    (c.isUpper || c == '_') = true := by
  have hall : f.tag.toList.all (fun c => c.isUpper || c == '_') = true := by cases f <;> decide
  exact List.all_eq_true.mp hall c h

/-- A sentence is written in small letters, blanks and parentheses. -/
theorem isLower_of_mem_message {f : Fault} {c : Char} (h : c ∈ f.message.toList) :
    (c.isLower || [' ', '(', ')'].contains c) = true := by
  have hall : f.message.toList.all (fun c => c.isLower || [' ', '(', ')'].contains c) = true := by
    cases f <;> decide
  exact List.all_eq_true.mp hall c h

end Fault
end Chip8
