import Phosphor.Nibble

namespace Phosphor

/-- A sixteen-bit instruction word. -/
abbrev Word := UInt16

/-- A twelve-bit address, as instructions carry it. -/
abbrev Address := Fin 4096

namespace Word

/-- The four-bit field at a position, counted from the least significant. -/
def nibble (w : Word) (position : Nat) : Nibble :=
  ⟨(w.toNat >>> (4 * position)) % 16, Nat.mod_lt _ (by decide)⟩

def low (w : Word) : UInt8 := UInt8.ofNat (w.toNat % 256)

def address (w : Word) : Address := ⟨w.toNat % 4096, Nat.mod_lt _ (by decide)⟩

def ofBytes (high low : UInt8) : Word := UInt16.ofNat (256 * high.toNat + low.toNat)

theorem toNat_ofBytes (high low : UInt8) :
    (ofBytes high low).toNat = 256 * high.toNat + low.toNat := by
  have := high.toNat_lt
  have := low.toNat_lt
  simp only [ofBytes, UInt16.toNat_ofNat']
  omega

end Word

namespace Address

def toWord (a : Address) : Word := UInt16.ofNat a.val

theorem toNat_toWord (a : Address) : (toWord a).toNat = a.val := by
  have := a.isLt
  simp only [toWord, UInt16.toNat_ofNat']
  omega

end Address

end Phosphor
