import Phosphor.Machine.Step
import Phosphor.Strict.Picture

namespace Phosphor

namespace Instruction

def ofFields (w : Word) (lead : Nat) (x y n : Nibble) (value : UInt8) : Instruction :=
  match lead with
  | 0x0 => decodeSystem w
  | 0x1 => .jump (Word.address w)
  | 0x2 => .call (Word.address w)
  | 0x3 => .skipEqual x value
  | 0x4 => .skipNotEqual x value
  | 0x5 => if n = 0 then .skipSame x y else .unknown w
  | 0x6 => .setRegister x value
  | 0x7 => .addImmediate x value
  | 0x8 => decodeArithmetic w x y
  | 0x9 => if n = 0 then .skipDifferent x y else .unknown w
  | 0xA => .setIndex (Word.address w)
  | 0xB => .jumpPlusV0 (Word.address w)
  | 0xC => .random x value
  | 0xD => .draw x y n
  | 0xE => decodeKey w x
  | _ => decodeTransfer w x

def strictDecode (w : Word) : Strict Instruction := do
  let lead ← Strict.narrow 8 ((w.toNat &&& 0xF000) >>> 12)
  let x ← Strict.nibble (← Strict.narrow 8 ((w.toNat &&& 0x0F00) >>> 8))
  let y ← Strict.nibble (← Strict.narrow 8 ((w.toNat &&& 0x00F0) >>> 4))
  let n ← Strict.nibble (← Strict.narrow 8 (w.toNat &&& 0x000F))
  let value ← Strict.narrow 8 (w.toNat &&& 0x00FF)
  return ofFields w lead x y n (UInt8.ofNat value)

end Instruction

namespace Machine

def strictRegister (m : Machine) (x : Nibble) : Strict UInt8 := Strict.entry m.registers x.val

def strictSetRegister (m : Machine) (x : Nibble) (value : UInt8) : Strict Machine := do
  let registers ← Strict.replace m.registers x.val value
  return { m with registers }

def strictSetFlag (m : Machine) (flag : Bool) : Strict Machine :=
  m.strictSetRegister flagRegister (if flag then 1 else 0)

def strictReset (m : Machine) : Strict Machine := do
  let stop ← Strict.add 64 Font.start Font.bytes.length
  let memory ← Strict.copy (Vector.replicate 4096 0) Font.start stop Font.bytes
  let pc ← Strict.narrow 16 Memory.programStart
  return { m with
    memory
    display := Framebuffer.dark
    pc := UInt16.ofNat pc
    index := 0
    registers := Vector.replicate 16 0
    stack := []
    delayTimer := 0
    soundTimer := 0
    keypad := Keypad.released }

def strictLoad (m : Machine) (program : List UInt8) : Strict (Except Fault Machine) := do
  if program.length > Memory.capacity then
    return .error (.programTooLarge ⟨program.length, Memory.capacity⟩)
  else
    let m ← m.strictReset
    let stop ← Strict.add 64 Memory.programStart program.length
    let memory ← Strict.copy m.memory Memory.programStart stop program
    return .ok { m with memory }

def strictPress (m : Machine) (key : Nibble) : Strict Machine := do
  let down ← Strict.replace m.keypad.down key.val true
  let pending := m.keypad.pending
  let m := { m with keypad := ⟨down, none⟩ }
  match pending with
  | some x => m.strictSetRegister x key.toByte
  | none => return m

def strictRelease (m : Machine) (key : Nibble) : Strict Machine := do
  let down ← Strict.replace m.keypad.down key.val false
  return { m with keypad := { m.keypad with down } }

def strictWordAt (m : Machine) (address : Nat) : Strict (Except Fault Word) := do
  let stop ← Strict.add 64 address 2
  if stop ≤ Memory.size then
    let high ← Strict.entry m.memory address
    let low ← Strict.entry m.memory (address + 1)
    return .ok (Word.ofBytes high low)
  else return .error (.outOfBounds address)

/-- Where a block of bytes at the index register ends. The address to report is computed
whether it is needed or not. -/
def strictBlockEnd (m : Machine) (count : Nat) : Strict (Except Fault Nat) := do
  let stop ← Strict.add 64 m.index.toNat count
  let last ← Strict.add 64 m.index.toNat (count - 1)
  return if stop ≤ Memory.size then .ok stop else .error (.outOfBounds last)

def strictStoreRegisters (m : Machine) (x : Nibble) : Strict (Except Fault Machine) := do
  let count ← Strict.add 64 x.val 1
  match ← m.strictBlockEnd count with
  | .error fault => return .error fault
  | .ok stop =>
    let bytes ← Strict.slice m.registers 0 count
    let memory ← Strict.copy m.memory m.index.toNat stop bytes
    return .ok { m with memory }

def strictLoadRegisters (m : Machine) (x : Nibble) : Strict (Except Fault Machine) := do
  let count ← Strict.add 64 x.val 1
  match ← m.strictBlockEnd count with
  | .error fault => return .error fault
  | .ok stop =>
    let bytes ← Strict.slice m.memory m.index.toNat stop
    let buffer ← Strict.copy (Vector.replicate 16 0) 0 count bytes
    let block ← Strict.slice buffer 0 count
    let registers ← Strict.copy m.registers 0 count block
    return .ok { m with registers }

def strictKeyHeld (m : Machine) (x : Nibble) : Strict Bool := do
  match Nibble.ofByte? (← m.strictRegister x) with
  | some key => Strict.entry m.keypad.down key.val
  | none => return false

def strictCalculate (m : Machine) (x y : Nibble) (op : Arithmetic) : Strict Machine := do
  let a ← m.strictRegister x
  let b ← m.strictRegister y
  let m ← match op.flag? a b with
    | some flag => m.strictSetFlag flag
    | none => pure m
  m.strictSetRegister x (op.result a b)

def strictDrawSprite (m : Machine) (x y height : Nibble) : Strict Machine := do
  let left ← m.strictRegister x
  let top ← m.strictRegister y
  let start := min m.index.toNat Memory.size
  let stop := min (← Strict.add 64 start height.val) Memory.size
  let rows ← Strict.slice m.memory start stop
  let drawn ← m.display.strictDraw left.toNat top.toNat rows
  { m with display := drawn.1 }.strictSetFlag drawn.2

def strictGlyph (m : Machine) (x : Nibble) : Strict Machine := do
  let digit ← m.strictRegister x
  let offset ← Strict.mul 64 digit.toNat Font.glyphHeight
  let address ← Strict.narrow 16 (← Strict.add 64 Font.start offset)
  return { m with index := UInt16.ofNat address }

/-- The effect of an instruction. Those that only go through total operations are carried out
as they are. -/
def strictExecute (m : Machine) : Instruction → Strict (Except Fault Machine)
  | .jumpPlusV0 base => do
    let offset ← m.strictRegister 0
    return .ok { m with pc := Address.toWord base + offset.toUInt16 }
  | .skipEqual x value => do
    let a ← m.strictRegister x
    return .ok (m.skipIf (a == value))
  | .skipNotEqual x value => do
    let a ← m.strictRegister x
    return .ok (m.skipIf (a != value))
  | .skipSame x y => do
    let a ← m.strictRegister x
    let b ← m.strictRegister y
    return .ok (m.skipIf (a == b))
  | .skipDifferent x y => do
    let a ← m.strictRegister x
    let b ← m.strictRegister y
    return .ok (m.skipIf (a != b))
  | .setRegister x value => return .ok (← m.strictSetRegister x value)
  | .addImmediate x value => do
    let a ← m.strictRegister x
    return .ok (← m.strictSetRegister x (a + value))
  | .arithmetic x y op => return .ok (← m.strictCalculate x y op)
  | .random x mask => do
    let drawn := m.random.next
    return .ok (← { m with random := drawn.2 }.strictSetRegister x (drawn.1 &&& mask))
  | .addIndex x => do
    let a ← m.strictRegister x
    let sum := m.index.toNat + a.toNat
    return .ok (← { m with index := UInt16.ofNat sum }.strictSetFlag (decide (65536 ≤ sum)))
  | .draw x y height => return .ok (← m.strictDrawSprite x y height)
  | .skipIfDown x => do
    let held ← m.strictKeyHeld x
    return .ok (m.skipIf held)
  | .skipIfUp x => do
    let held ← m.strictKeyHeld x
    return .ok (m.skipIf (!held))
  | .readDelay x => return .ok (← m.strictSetRegister x m.delayTimer)
  | .setDelay x => do
    let a ← m.strictRegister x
    return .ok { m with delayTimer := a }
  | .setSound x => do
    let a ← m.strictRegister x
    return .ok { m with soundTimer := a }
  | .glyph x => return .ok (← m.strictGlyph x)
  | .decimal x => do
    let a ← m.strictRegister x
    return .ok { m with memory := Bytes.write m.memory m.index.toNat (decimalDigits a) }
  | .storeRegisters x => m.strictStoreRegisters x
  | .loadRegisters x => m.strictLoadRegisters x
  | i => return m.execute i

def strictStep (m : Machine) : Strict (Machine × Except Fault Outcome) := do
  match m.keypad.pending with
  | some _ => return (m, .ok .suspended)
  | none =>
    match ← m.strictWordAt m.pc.toNat with
    | .error fault => return (m, .error fault)
    | .ok word =>
      let i ← Instruction.strictDecode word
      match ← m.advance.strictExecute i with
      | .error fault => return (m.advance, .error fault)
      | .ok after => return (after, .ok i.outcome)

end Machine

end Phosphor
