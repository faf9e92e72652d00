import Phosphor.Nibble

namespace Phosphor.Desktop

namespace KeyMap

/-- The physical keys, by code, in the order of the keypad keys they stand
for. They form a square on the left of the keyboard. -/
def codes : Vector String 16 := #v[
  "KeyX", "Digit1", "Digit2", "Digit3",
  "KeyQ", "KeyW", "KeyE", "KeyA",
  "KeyS", "KeyD", "KeyZ", "KeyC",
  "Digit4", "KeyR", "KeyF", "KeyV"]

def key? (code : String) : Option Nibble := codes.finIdxOf? code

end KeyMap

end Phosphor.Desktop
