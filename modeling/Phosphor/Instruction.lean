import Phosphor.Word

namespace Phosphor

inductive Arithmetic
  | copy
  | or
  | and
  | xor
  | add
  | sub
  | shiftRight
  | subFrom
  | shiftLeft
  deriving DecidableEq, Repr

/-- An instruction with its operands. Words outside the instruction set are
kept as they are. -/
inductive Instruction
  | idle
  | clearScreen
  | ret
  | jump (target : Address)
  | jumpPlusV0 (base : Address)
  | call (target : Address)
  | skipEqual (x : Nibble) (value : UInt8)
  | skipNotEqual (x : Nibble) (value : UInt8)
  | skipSame (x y : Nibble)
  | skipDifferent (x y : Nibble)
  | setRegister (x : Nibble) (value : UInt8)
  | addImmediate (x : Nibble) (value : UInt8)
  | arithmetic (x y : Nibble) (op : Arithmetic)
  | random (x : Nibble) (mask : UInt8)
  | setIndex (value : Address)
  | addIndex (x : Nibble)
  | draw (x y height : Nibble)
  | skipIfDown (x : Nibble)
  | skipIfUp (x : Nibble)
  | awaitKey (x : Nibble)
  | readDelay (x : Nibble)
  | setDelay (x : Nibble)
  | setSound (x : Nibble)
  | glyph (x : Nibble)
  | decimal (x : Nibble)
  | storeRegisters (x : Nibble)
  | loadRegisters (x : Nibble)
  | unknown (word : Word)
  deriving DecidableEq, Repr

end Phosphor
