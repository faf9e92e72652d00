import Phosphor.Hex
import Phosphor.Instruction.Decode

namespace Phosphor

inductive Operand
  | register (x : Nibble)
  | byte (value : UInt8)
  | address (a : Address)
  | height (n : Nibble)
  | index
  | memory
  | delayTimer
  | soundTimer
  | key
  | font
  | decimal
  deriving DecidableEq, Repr

def Operand.text : Operand → String
  | .register x => "V" ++ Hex.text 1 x.val
  | .byte value => Hex.text 2 value.toNat
  | .address a => Hex.text 3 a.val
  | .height n => Hex.text 1 n.val
  | .index => "I"
  | .memory => "[I]"
  | .delayTimer => "DT"
  | .soundTimer => "ST"
  | .key => "K"
  | .font => "F"
  | .decimal => "B"

/-- An instruction as an assembler writes it: a name and its operands. -/
structure Mnemonic where
  name : String
  operands : List Operand
  deriving DecidableEq, Repr

def Mnemonic.text (m : Mnemonic) : String :=
  match m.operands with
  | [] => m.name
  | operands => m.name ++ " " ++ ", ".intercalate (operands.map Operand.text)

/-- Shifts read one register only, so their second operand is not written. -/
def Arithmetic.mnemonic (op : Arithmetic) (x y : Nibble) : Mnemonic :=
  match op with
  | .copy => ⟨"LD", [.register x, .register y]⟩
  | .or => ⟨"OR", [.register x, .register y]⟩
  | .and => ⟨"AND", [.register x, .register y]⟩
  | .xor => ⟨"XOR", [.register x, .register y]⟩
  | .add => ⟨"ADD", [.register x, .register y]⟩
  | .sub => ⟨"SUB", [.register x, .register y]⟩
  | .shiftRight => ⟨"SHR", [.register x]⟩
  | .subFrom => ⟨"SUBN", [.register x, .register y]⟩
  | .shiftLeft => ⟨"SHL", [.register x]⟩

namespace Instruction

def mnemonic? : Instruction → Option Mnemonic
  | .idle => some ⟨"NOP", []⟩
  | .clearScreen => some ⟨"CLS", []⟩
  | .ret => some ⟨"RET", []⟩
  | .jump a => some ⟨"JP", [.address a]⟩
  | .jumpPlusV0 a => some ⟨"JP", [.register 0, .address a]⟩
  | .call a => some ⟨"CALL", [.address a]⟩
  | .skipEqual x v => some ⟨"SE", [.register x, .byte v]⟩
  | .skipNotEqual x v => some ⟨"SNE", [.register x, .byte v]⟩
  | .skipSame x y => some ⟨"SE", [.register x, .register y]⟩
  | .skipDifferent x y => some ⟨"SNE", [.register x, .register y]⟩
  | .setRegister x v => some ⟨"LD", [.register x, .byte v]⟩
  | .addImmediate x v => some ⟨"ADD", [.register x, .byte v]⟩
  | .arithmetic x y op => some (op.mnemonic x y)
  | .random x v => some ⟨"RND", [.register x, .byte v]⟩
  | .setIndex a => some ⟨"LD", [.index, .address a]⟩
  | .addIndex x => some ⟨"ADD", [.index, .register x]⟩
  | .draw x y n => some ⟨"DRW", [.register x, .register y, .height n]⟩
  | .skipIfDown x => some ⟨"SKP", [.register x]⟩
  | .skipIfUp x => some ⟨"SKNP", [.register x]⟩
  | .awaitKey x => some ⟨"LD", [.register x, .key]⟩
  | .readDelay x => some ⟨"LD", [.register x, .delayTimer]⟩
  | .setDelay x => some ⟨"LD", [.delayTimer, .register x]⟩
  | .setSound x => some ⟨"LD", [.soundTimer, .register x]⟩
  | .glyph x => some ⟨"LD", [.font, .register x]⟩
  | .decimal x => some ⟨"LD", [.decimal, .register x]⟩
  | .storeRegisters x => some ⟨"LD", [.memory, .register x]⟩
  | .loadRegisters x => some ⟨"LD", [.register x, .memory]⟩
  | .unknown _ => none

/-- The assembly text, empty for a word that is no instruction. -/
def text (i : Instruction) : String := (i.mnemonic?.map Mnemonic.text).getD ""

theorem mnemonic?_eq_none {i : Instruction} : i.mnemonic? = none ↔ ∃ w, i = .unknown w := by
  cases i <;> simp [mnemonic?]

end Instruction

def disassemble (w : Word) : String := (Instruction.decode w).text

end Phosphor
