import Phosphor.Nibble

namespace Phosphor

/-- Which of the sixteen keys are down, and the register that waits for the
next key press. -/
structure Keypad where
  down : Vector Bool 16
  pending : Option Nibble
  deriving DecidableEq

namespace Keypad

def released : Keypad := ⟨Vector.replicate 16 false, none⟩

def isDown (k : Keypad) (key : Nibble) : Bool := k.down[key]

/-- A press also ends the wait, and reports the register that waited. -/
def press (k : Keypad) (key : Nibble) : Keypad × Option Nibble :=
  (⟨k.down.set key true, none⟩, k.pending)

def release (k : Keypad) (key : Nibble) : Keypad := { k with down := k.down.set key false }

def await (k : Keypad) (register : Nibble) : Keypad := { k with pending := some register }

theorem isDown_press (k : Keypad) (key other : Nibble) :
    (k.press key).1.isDown other = (decide (key = other) || k.isDown other) := by
  simp only [isDown, press, Fin.getElem_fin, Vector.getElem_set, Fin.ext_iff]
  split <;> simp_all

theorem isDown_release (k : Keypad) (key other : Nibble) :
    (k.release key).isDown other = (!decide (key = other) && k.isDown other) := by
  simp only [isDown, release, Fin.getElem_fin, Vector.getElem_set, Fin.ext_iff]
  split <;> simp_all

end Keypad

end Phosphor
