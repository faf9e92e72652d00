import Phosphor.Instruction

namespace Phosphor

def Arithmetic.ofCode? : Nat → Option Arithmetic
  | 0x0 => some .copy
  | 0x1 => some .or
  | 0x2 => some .and
  | 0x3 => some .xor
  | 0x4 => some .add
  | 0x5 => some .sub
  | 0x6 => some .shiftRight
  | 0x7 => some .subFrom
  | 0xE => some .shiftLeft
  | _ => none

namespace Instruction

def decodeSystem (w : Word) : Instruction :=
  if w = 0x0000 then .idle
  else if w = 0x00E0 then .clearScreen
  else if w = 0x00EE then .ret
  else .unknown w

def decodeKey (w : Word) (x : Nibble) : Instruction :=
  match w.toNat % 256 with
  | 0x9E => .skipIfDown x
  | 0xA1 => .skipIfUp x
  | _ => .unknown w

def decodeTransfer (w : Word) (x : Nibble) : Instruction :=
  match w.toNat % 256 with
  | 0x07 => .readDelay x
  | 0x0A => .awaitKey x
  | 0x15 => .setDelay x
  | 0x18 => .setSound x
  | 0x1E => .addIndex x
  | 0x29 => .glyph x
  | 0x33 => .decimal x
  | 0x55 => .storeRegisters x
  | 0x65 => .loadRegisters x
  | _ => .unknown w

def decodeArithmetic (w : Word) (x y : Nibble) : Instruction :=
  match Arithmetic.ofCode? (w.toNat % 16) with
  | some op => .arithmetic x y op
  | none => .unknown w

def decode (w : Word) : Instruction :=
  let x := Word.nibble w 2
  let y := Word.nibble w 1
  let n := Word.nibble w 0
  let value := Word.low w
  let address := Word.address w
  match w.toNat / 4096 with
  | 0x0 => decodeSystem w
  | 0x1 => .jump address
  | 0x2 => .call address
  | 0x3 => .skipEqual x value
  | 0x4 => .skipNotEqual x value
  | 0x5 => if n = 0 then .skipSame x y else .unknown w
  | 0x6 => .setRegister x value
  | 0x7 => .addImmediate x value
  | 0x8 => decodeArithmetic w x y
  | 0x9 => if n = 0 then .skipDifferent x y else .unknown w
  | 0xA => .setIndex address
  | 0xB => .jumpPlusV0 address
  | 0xC => .random x value
  | 0xD => .draw x y n
  | 0xE => decodeKey w x
  | _ => decodeTransfer w x

theorem decode_unknown {w u : Word} (h : decode w = .unknown u) : u = w := by
  simp only [decode, decodeSystem, decodeKey, decodeTransfer, decodeArithmetic] at h
  repeat' split at h
  all_goals simp_all

end Instruction

end Phosphor
