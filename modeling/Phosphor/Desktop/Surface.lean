import Phosphor.Bytes
import Phosphor.Framebuffer

namespace Phosphor.Desktop

structure Colour where
  red : UInt8
  green : UInt8
  blue : UInt8
  alpha : UInt8
  deriving DecidableEq, Repr

namespace Colour

def bytes (c : Colour) : List UInt8 := [c.red, c.green, c.blue, c.alpha]

def background : Colour := ⟨0x22, 0x26, 0x29, 0xFF⟩

/-- The colours of the levels, from the oldest snapshot to the current one. -/
def palette : Vector Colour 6 := #v[
  ⟨0x54, 0x60, 0x66, 0xFF⟩, ⟨0x8E, 0xA1, 0xAA, 0xFF⟩, ⟨0xC2, 0xDA, 0xE7, 0xFF⟩,
  ⟨0xD6, 0xF1, 0xFF, 0xFF⟩, ⟨0xD6, 0xF1, 0xFF, 0xFF⟩, ⟨0xD6, 0xF1, 0xFF, 0xFF⟩]

def ofLevel (level : Nat) : Colour := palette.get ⟨min level 5, by omega⟩

end Colour

abbrev Surface := Vector UInt8 8192

namespace Surface

def empty : Surface := Vector.replicate 8192 0

def offset (x y : Nat) : Nat := (y * Screen.width + x) * 4

def put (s : Surface) (x y : Nat) (colour : Colour) : Surface :=
  Bytes.write s (offset x y) colour.bytes

def fill (s : Surface) (colour : Colour) (n : Nat) : Surface :=
  (List.range n).foldl (fun s cell ↦ Bytes.write s (cell * 4) colour.bytes) s

def paint (s : Surface) (picture : List GlowCell) : Surface :=
  picture.foldl (fun s cell ↦ s.put cell.x cell.y (.ofLevel cell.level))
    (s.fill .background (Screen.width * Screen.height))

def colour (s : Surface) (x y : Nat) : Option Colour :=
  match Bytes.read s (offset x y) 4 with
  | [red, green, blue, alpha] => some ⟨red, green, blue, alpha⟩
  | _ => none

end Surface

end Phosphor.Desktop
