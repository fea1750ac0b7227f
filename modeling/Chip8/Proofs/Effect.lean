import Chip8.Machine.Step

/-!
# The effect of an instruction

Instructions act on a machine and its host in place. Here the effect of the next instruction is a
value: a fault, or the machine that follows together with what the host is told, or a question to
the host and the machine that follows each answer. `Machine.turn` settles it on a host. An effect
has no way to leave the domain of an operation, and a fault has no way to change a machine, so that
`step = turn` says both of the steps that run.
-/
namespace Chip8

/-- What a machine tells its host without waiting for an answer. -/
inductive Notice where
  | clear
  | plot (dot : Dot)
  | setDelay (value : Byte)
  | setSound (value : Byte)
deriving DecidableEq, Repr

def Notice.deliver {H : Type} [Host H] (host : H) : Notice → H
  | clear => Host.clear host
  | plot dot => Host.plot dot host
  | setDelay value => Host.setDelay value host
  | setSound value => Host.setSound value host

inductive Effect where
  /-- The host is told something, and the machine goes on. -/
  | proceed (notices : List Notice) (next : Machine)
  /-- The delay timer has to be read. -/
  | readDelay (resume : Byte → Machine)
  /-- The state of a key has to be read. -/
  | testKey (key : Key) (resume : Bool → Machine)
  /-- The program waits for a key. -/
  | waitKey (resume : Byte → Except Fault Machine)

namespace Effect

variable {H : Type} [Host H]

/-- An effect on the machine alone. -/
def quiet (next : Machine) : Effect :=
  proceed [] next

/-- Put what an instruction asks for to the host. -/
def perform (host : H) : Effect → Except Fault Machine × H
  | proceed notices next => (.ok next, notices.foldl Notice.deliver host)
  | readDelay resume => (.ok (resume (Host.delay host).1), (Host.delay host).2)
  | testKey key resume => (.ok (resume (Host.keyDown key host).1), (Host.keyDown key host).2)
  | waitKey resume => (resume (Host.waitKey host).1, (Host.waitKey host).2)

/-- Put an effect to the host, if there is one. -/
def attempt (host : H) : Except Fault Effect → Except Fault Machine × H
  | .ok effect => effect.perform host
  | .error cause => (.error cause, host)

end Effect

def Display.invert (d : Display) (pixels : List (Nat × Nat)) : Display :=
  .ofFn fun x y => d.lit x y ^^ decide ((x, y) ∈ pixels)

namespace Machine

/-! ## Single instructions

The machine `m` is the one whose program counter is already past the instruction. -/

/-- The machine with its program counter past the next instruction. -/
def pass (m : Machine) : Machine :=
  m.goto (m.pc + 2)

/-- The machine past the next instruction, if the condition holds. -/
def passIf (m : Machine) (condition : Bool) : Machine :=
  if condition then m.pass else m

def afterRet (m : Machine) : Except Fault Machine :=
  if m.depth = 0 then .error .stackUnderflow
  else .ok ({ m with depth := m.depth - 1 }.goto (m.cells[m.depth - 1]?.getD 0))

/-- Jump to an address, but not onto the jump itself. -/
def afterJump (m : Machine) (target : Address) : Except Fault Machine :=
  if target.val + 2 = m.pc.toNat then .error .infiniteLoop
  else .ok (m.goto (.ofAddress target))

def afterCall (m : Machine) (target : Address) : Except Fault Machine :=
  if m.depth = maxDepth then .error .stackOverflow
  else
    .ok ({ m with cells := m.cells.setIfInBounds m.depth m.pc, depth := m.depth + 1 }.goto
      (.ofAddress target))

def afterArith (m : Machine) (op : ArithOp) (x y : Register) : Machine :=
  let shifted := if m.dialect.shiftsSecond then m.reg y else m.reg x
  m.setResult x (op.eval (m.reg x) (m.reg y) shifted)

def afterGlyph (m : Machine) (x : Register) : Except Fault Machine :=
  if 16 ≤ (m.reg x).toNat then .error .illegalDigit
  else .ok { m with index := .ofNat ((m.reg x).toNat * glyphRows) }

def write (m : Machine) (bytes : List Byte) : Machine :=
  { m with memory := m.memory.put m.index.toNat bytes }

/-- The decimal digits of a byte: hundreds, tens and ones. -/
def decimalDigits (b : Byte) : List Byte :=
  [b / 100, b / 10 % 10, b % 10]

def afterDecimal (m : Machine) (x : Register) : Except Fault Machine :=
  if Memory.size ≤ m.index.toNat + 2 then .error .indexOverflow
  else .ok (m.write (decimalDigits (m.reg x)))

/-- The index register past a window of registers, in the dialects that leave it there. -/
def indexMoved (m : Machine) (x : Register) : Machine :=
  if m.dialect.advancesIndex then { m with index := .ofNat (m.index.toNat + (x.val + 1)) } else m

def afterStore (m : Machine) (x : Register) : Except Fault Machine :=
  if Memory.size ≤ m.index.toNat + x.val then .error .indexOverflow
  else .ok ((m.write (m.first x)).indexMoved x)

def afterLoad (m : Machine) (x : Register) : Except Fault Machine :=
  if Memory.size ≤ m.index.toNat + x.val then .error .indexOverflow
  else .ok ((m.setFirst (m.memory.slice m.index.toNat (x.val + 1))).indexMoved x)

/-! ## Sprites -/

/-- The column of a sprite's left edge; it wraps around the display. -/
def spriteColumn (m : Machine) (x : Register) : Nat :=
  m.coordinate x % Display.width

/-- The row of a sprite's upper edge; it wraps around the display. -/
def spriteRow (m : Machine) (y : Register) : Nat :=
  m.coordinate y % Display.height

/-- The rows of a sprite that lie on the display. -/
def spriteHeight (m : Machine) (y : Register) (height : Fin 16) : Nat :=
  min height.val (Display.height - m.spriteRow y)

/-- Whether the sprite at the index register has a bit set for a pixel. -/
def covers (m : Machine) (x y : Register) (height : Fin 16) (px py : Nat) : Bool :=
  decide (m.spriteColumn x ≤ px ∧ px < m.spriteColumn x + 8 ∧
    m.spriteRow y ≤ py ∧ py < m.spriteRow y + height.val) &&
  (m.memory.get (m.index.toNat + (py - m.spriteRow y))).toNat.testBit (7 - (px - m.spriteColumn x))

/-- The pixels of the display that a sprite covers, row by row and from left to right. -/
def covered (m : Machine) (x y : Register) (height : Fin 16) : List (Nat × Nat) :=
  Display.places.filter fun p => m.covers x y height p.1 p.2

/-- The machine with some pixels inverted; the flag tells whether a lit one was among them. -/
def invertAll (m : Machine) (pixels : List (Nat × Nat)) : Machine :=
  { m with display := m.display.invert pixels }.set flagRegister
    (flagOf (pixels.any fun p => m.display.lit p.1 p.2))

/-- The report on pixels that are inverted. -/
def reports (m : Machine) (pixels : List (Nat × Nat)) : List Notice :=
  pixels.map fun p => .plot ⟨p.1, p.2, !m.display.lit p.1 p.2⟩

def drawEffect (m : Machine) (x y : Register) (height : Fin 16) : Except Fault Effect :=
  if 0 < m.spriteHeight y height ∧ Memory.size < m.index.toNat + m.spriteHeight y height then
    .error .indexOverflow
  else .ok (.proceed (m.reports (m.covered x y height)) (m.invertAll (m.covered x y height)))

/-! ## Keys -/

/-- Pass over the next instruction if a key is down, or if it is up. -/
def keyEffect (m : Machine) (x : Register) (down : Bool) : Except Fault Effect :=
  if h : (m.reg x).toNat < 16 then
    .ok (.testKey ⟨(m.reg x).toNat, h⟩ fun answer => m.passIf (answer == down))
  else .error .badKey

def afterKey (m : Machine) (x : Register) (key : Byte) : Except Fault Machine :=
  if 16 ≤ key.toNat then .error .badKey else .ok (m.set x key)

/-! ## Instructions -/

/-- The effect of an instruction when the program counter is past it. -/
def effectOf (m : Machine) : Instruction → Except Fault Effect
  | .clearScreen => .ok (.proceed [.clear] { m with display := .dark })
  | .ret => m.afterRet.map .quiet
  | .jump target => (m.afterJump target).map .quiet
  | .call target => (m.afterCall target).map .quiet
  | .skipIfByte x k => .ok (.quiet (m.passIf (m.reg x == k)))
  | .skipUnlessByte x k => .ok (.quiet (m.passIf (m.reg x != k)))
  | .skipIfEqual x y => .ok (.quiet (m.passIf (m.reg x == m.reg y)))
  | .skipUnlessEqual x y => .ok (.quiet (m.passIf (m.reg x != m.reg y)))
  | .setByte x k => .ok (.quiet (m.set x k))
  | .addByte x k => .ok (.quiet (m.set x (m.reg x + k)))
  | .arith op x y => .ok (.quiet (m.afterArith op x y))
  | .setIndex place => .ok (.quiet { m with index := .ofAddress place })
  | .jumpOffset target =>
    .ok (.quiet (m.goto (.ofNat (target.val + (m.reg offsetRegister).toNat))))
  | .random x mask =>
    .ok (.quiet ({ m with entropy := m.entropy.tail }.set x (m.entropy.head &&& mask)))
  | .draw x y height => m.drawEffect x y height
  | .skipIfKey x => m.keyEffect x true
  | .skipUnlessKey x => m.keyEffect x false
  | .readDelay x => .ok (.readDelay fun value => m.set x value)
  | .waitKey x => .ok (.waitKey fun key => m.afterKey x key)
  | .setDelay x => .ok (.proceed [.setDelay (m.reg x)] m)
  | .setSound x => .ok (.proceed [.setSound (m.reg x)] m)
  | .addIndex x => .ok (.quiet { m with index := m.index + (m.reg x).toUInt16 })
  | .glyph x => (m.afterGlyph x).map .quiet
  | .decimal x => (m.afterDecimal x).map .quiet
  | .store x => (m.afterStore x).map .quiet
  | .load x => (m.afterLoad x).map .quiet

def word (m : Machine) : Word :=
  m.memory.word m.pc.toNat

/-- The program counter is in the program area and leaves room for a word. -/
def Reads (m : Machine) : Prop :=
  0x200 ≤ m.pc.toNat ∧ m.pc.toNat < 0xfff

/-- The next word is that of an instruction. -/
def Fetches (m : Machine) (i : Instruction) : Prop :=
  m.Reads ∧ m.word = i.encode

def effect (m : Machine) : Except Fault Effect :=
  if m.pc.toNat < Memory.programBase then .error .pcUnderflow
  else if Memory.size - 1 ≤ m.pc.toNat then .error .pcOverflow
  else
    match Instruction.decode m.word with
    | none => .error .illegalInstruction
    | some instruction => m.pass.effectOf instruction

variable {H : Type} [Host H]

/-- The turn that a machine takes when it goes on with an outcome, or halts as it was. -/
def turnOf (m : Machine) : Except Fault Machine × H → Turn H
  | (.ok next, host) => ⟨next, host, none⟩
  | (.error cause, host) => ⟨m.halt cause, host, some cause⟩

/-- The next instruction, settled on a host. -/
def turn (m : Machine) (host : H) : Turn H :=
  m.turnOf (Effect.attempt host m.effect)

end Machine
end Chip8
