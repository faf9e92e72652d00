import Phosphor.Instruction
import Phosphor.Machine

namespace Phosphor

def Arithmetic.result : Arithmetic → UInt8 → UInt8 → UInt8
  | .copy, _, b => b
  | .or, a, b => a ||| b
  | .and, a, b => a &&& b
  | .xor, a, b => a ^^^ b
  | .add, a, b => a + b
  | .sub, a, b => a - b
  | .shiftRight, a, _ => a >>> 1
  | .subFrom, a, b => b - a
  | .shiftLeft, a, _ => a <<< 1

/-- A carry, the absence of a borrow, or the bit shifted out. -/
def Arithmetic.flag? : Arithmetic → UInt8 → UInt8 → Option Bool
  | .add, a, b => some (decide (256 ≤ a.toNat + b.toNat))
  | .sub, a, b => some (decide (b ≤ a))
  | .shiftRight, a, _ => some (decide (a % 2 = 1))
  | .subFrom, a, b => some (decide (a ≤ b))
  | .shiftLeft, a, _ => some (decide (128 ≤ a))
  | _, _, _ => none

namespace Machine

def skipIf (m : Machine) (condition : Bool) : Machine :=
  if condition then { m with pc := m.pc + 2 } else m

/-- A register above fifteen names no key, and counts as up. -/
def keyHeld (m : Machine) (x : Nibble) : Bool :=
  match Nibble.ofByte? (m.register x) with
  | some key => m.keypad.isDown key
  | none => false

/-- The flag is written before the result, so the result stays when both go
to the same register. -/
def calculate (m : Machine) (x y : Nibble) (op : Arithmetic) : Machine :=
  let a := m.register x
  let b := m.register y
  let m := match op.flag? a b with
    | some flag => m.setFlag flag
    | none => m
  m.setRegister x (op.result a b)

/-- Sprite rows past the end of memory are not drawn. -/
def drawSprite (m : Machine) (x y height : Nibble) : Machine :=
  let rows := Bytes.read m.memory m.index.toNat height.val
  let drawn := m.display.draw (m.register x).toNat (m.register y).toNat rows
  { m with display := drawn.1 }.setFlag drawn.2

def addToIndex (m : Machine) (x : Nibble) : Machine :=
  let sum := m.index.toNat + (m.register x).toNat
  { m with index := UInt16.ofNat sum }.setFlag (decide (65536 ≤ sum))

def drawRandom (m : Machine) (x : Nibble) (mask : UInt8) : Machine :=
  let drawn := m.random.next
  { m with random := drawn.2 }.setRegister x (drawn.1 &&& mask)

def decimalDigits (value : UInt8) : List UInt8 := [value / 100, value / 10 % 10, value % 10]

def checkBlock (m : Machine) (x : Nibble) (after : Machine) : Except Fault Machine :=
  if m.index.toNat + x.val < Memory.size then .ok after
  else .error (.outOfBounds (m.index.toNat + x.val))

/-- The effect of an instruction, with the program counter already past it. -/
def execute (m : Machine) : Instruction → Except Fault Machine
  | .idle => .ok m
  | .clearScreen => .ok { m with display := m.display.clear }
  | .ret =>
    match m.stack with
    | [] => .error .stackUnderflow
    | address :: stack => .ok { m with pc := address, stack := stack }
  | .jump target => .ok { m with pc := Address.toWord target }
  | .jumpPlusV0 base => .ok { m with pc := Address.toWord base + (m.register 0).toUInt16 }
  | .call target => .ok { m with pc := Address.toWord target, stack := m.pc :: m.stack }
  | .skipEqual x value => .ok (m.skipIf (m.register x == value))
  | .skipNotEqual x value => .ok (m.skipIf (m.register x != value))
  | .skipSame x y => .ok (m.skipIf (m.register x == m.register y))
  | .skipDifferent x y => .ok (m.skipIf (m.register x != m.register y))
  | .setRegister x value => .ok (m.setRegister x value)
  | .addImmediate x value => .ok (m.setRegister x (m.register x + value))
  | .arithmetic x y op => .ok (m.calculate x y op)
  | .random x mask => .ok (m.drawRandom x mask)
  | .setIndex value => .ok { m with index := Address.toWord value }
  | .addIndex x => .ok (m.addToIndex x)
  | .draw x y height => .ok (m.drawSprite x y height)
  | .skipIfDown x => .ok (m.skipIf (m.keyHeld x))
  | .skipIfUp x => .ok (m.skipIf (!m.keyHeld x))
  | .awaitKey x => .ok { m with keypad := m.keypad.await x }
  | .readDelay x => .ok (m.setRegister x m.delayTimer)
  | .setDelay x => .ok { m with delayTimer := m.register x }
  | .setSound x => .ok { m with soundTimer := m.register x }
  | .glyph x =>
    .ok { m with index := UInt16.ofNat (Font.start + (m.register x).toNat * Font.glyphHeight) }
  | .decimal x =>
    .ok { m with memory := Bytes.write m.memory m.index.toNat (decimalDigits (m.register x)) }
  | .storeRegisters x =>
    m.checkBlock x
      { m with memory := Bytes.write m.memory m.index.toNat (Bytes.read m.registers 0 (x.val + 1)) }
  | .loadRegisters x =>
    m.checkBlock x
      { m with
        registers := Bytes.write m.registers 0 (Bytes.read m.memory m.index.toNat (x.val + 1)) }
  | .unknown _ => .ok m

end Machine

end Phosphor
