import Chip8.Host
import Chip8.Instruction.Coding
import Chip8.Machine.Operation

/-!
# Carrying out instructions

A world is a machine and its host. Instructions act on both in place: most on the machine alone, and
some make requests of the host in between. Every check that can fail comes before the first change.
-/
namespace Chip8

structure World (H : Type) where
  machine : Machine
  host : H

namespace World

variable {H α : Type}

def onMachine (x : Exec Machine α) : Exec (World H) α := fun w =>
  match x.run w.machine with
  | .ok a machine => .ok a { w with machine }
  | .error stop machine => .error stop { w with machine }

instance : MonadLift (Exec Machine) (Exec (World H)) where
  monadLift := onMachine

def tell (request : H → H) : Exec (World H) Unit :=
  modify fun w => { w with host := request w.host }

def ask (request : H → α × H) : Exec (World H) α :=
  modifyGet fun w =>
    let (answer, host) := request w.host
    (answer, { w with host })

variable [Host H]

/-- Ask whether the key with a given number is down; the keypad has no keys from sixteen on. -/
def askKey (key : Byte) : Exec (World H) Bool :=
  if h : key.toNat < 16 then ask (Host.keyDown ⟨key.toNat, h⟩)
  else throw (.violation (.outOfRange 16 key.toNat))

/-! ## Drawing -/

/-- Invert a pixel and report it; the flag tells when it was lit. -/
def invert (x y : Nat) : Exec (World H) Unit := do
  let lit ← Machine.invertPixel x y
  tell (Host.plot ⟨x, y, lit⟩)
  if !lit then onMachine (modify (·.set flagRegister 1))

/-- Draw some bits of the byte `bits`, counted from the left, when its first one is at column `x` of
row `y`; the right edge ends the row. -/
def drawBits (x y : Nat) (bits : Byte) : List Nat → Exec (World H) Unit
  | [] => pure ()
  | i :: is => do
    if Display.width ≤ x + i then return
    if bits &&& (0x80 >>> UInt8.ofNat i) != 0 then invert (x + i) y
    drawBits x y bits is

/-- Draw some rows of the sprite at `start`, when its upper left corner is at column `x` of row
`y`. -/
def drawRows (x y start : Nat) : List Nat → Exec (World H) Unit
  | [] => pure ()
  | i :: is => do
    let bits ← Machine.peek (start + i)
    drawBits x (y + i) bits (List.range 8)
    drawRows x y start is

/-- Draw the sprite at the index register. Its corner wraps around the display, and its rows below
the display are never read. -/
def draw (x y : Register) (height : Fin 16) : Exec (World H) Unit := do
  let m := (← get).machine
  let column := m.coordinate x % Display.width
  let row := m.coordinate y % Display.height
  let start := m.index.toNat
  Exec.require (row ≤ Display.height) .underflow
  let rows := min height.val (Display.height - row)
  if 0 < rows ∧ Memory.size < start + rows then Exec.fault .indexOverflow
  else
    onMachine (modify (·.set flagRegister 0))
    drawRows column row start (List.range rows)

/-! ## Keys -/

/-- Pass over the next instruction if the key named by a register is down, or if it is up. -/
def skipIfKey (x : Register) (down : Bool) : Exec (World H) Unit := do
  let key := (← get).machine.reg x
  if 16 ≤ key.toNat then Exec.fault .badKey
  else
    let answer ← askKey key
    Machine.skipIf (answer == down)

def waitKey (x : Register) : Exec (World H) Unit := do
  let key ← ask Host.waitKey
  if 16 ≤ key.toNat then Exec.fault .badKey
  else onMachine (modify (·.set x key))

/-! ## Instructions -/

/-- Carry out an instruction; the program counter is already past it. -/
def execute : Instruction → Exec (World H) Unit
  | .clearScreen => do
    onMachine (modify fun m => { m with display := .dark })
    tell Host.clear
  | .ret => Machine.ret
  | .jump target => Machine.jump target
  | .call target => Machine.call target
  | .skipIfByte x k => do Machine.skipIf ((← get).machine.reg x == k)
  | .skipUnlessByte x k => do Machine.skipIf ((← get).machine.reg x != k)
  | .skipIfEqual x y => do
    let m := (← get).machine
    Machine.skipIf (m.reg x == m.reg y)
  | .skipUnlessEqual x y => do
    let m := (← get).machine
    Machine.skipIf (m.reg x != m.reg y)
  | .setByte x k => onMachine (modify (·.set x k))
  | .addByte x k => onMachine (modify fun m => m.set x (m.reg x + k))
  | .arith op x y => Machine.arith op x y
  | .setIndex place => onMachine (modify fun m => { m with index := .ofAddress place })
  | .jumpOffset target => Machine.jumpOffset target
  | .random x mask => Machine.random x mask
  | .draw x y height => draw x y height
  | .skipIfKey x => skipIfKey x true
  | .skipUnlessKey x => skipIfKey x false
  | .readDelay x => do
    let value ← ask Host.delay
    onMachine (modify (·.set x value))
  | .waitKey x => waitKey x
  | .setDelay x => do
    let value := (← get).machine.reg x
    tell (Host.setDelay value)
  | .setSound x => do
    let value := (← get).machine.reg x
    tell (Host.setSound value)
  | .addIndex x => Machine.addIndex x
  | .glyph x => Machine.glyph x
  | .decimal x => Machine.decimal x
  | .store x => Machine.storeRegisters x
  | .load x => Machine.loadRegisters x

end World
end Chip8
