namespace Phosphor

/-- A four-bit number: it names a register, a key, or a sprite height. -/
abbrev Nibble := Fin 16

/-- One proof for all literals of a nibble. -/
instance (priority := high) neZero_sixteen : @NeZero Nat Zero.ofOfNat0 16 := ⟨by decide⟩

namespace Nibble

theorem lt_sixteen (k : Nibble) : k.val < 16 := k.isLt

def ofByte? (b : UInt8) : Option Nibble :=
  if h : b.toNat < 16 then some ⟨b.toNat, h⟩ else none

def toByte (k : Nibble) : UInt8 := UInt8.ofNat k.val

end Nibble

end Phosphor
