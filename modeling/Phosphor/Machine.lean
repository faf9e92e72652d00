import Phosphor.Fault
import Phosphor.Framebuffer
import Phosphor.Keypad
import Phosphor.RandomSource

namespace Phosphor

/-- The whole state of the machine. The return addresses are listed newest
first. -/
structure Machine where
  memory : Memory
  display : Framebuffer
  pc : UInt16
  index : UInt16
  registers : Vector UInt8 16
  stack : List UInt16
  delayTimer : UInt8
  soundTimer : UInt8
  keypad : Keypad
  random : RandomSource
  deriving DecidableEq

namespace Machine

def fresh (program : List UInt8) (random : RandomSource) : Machine where
  memory := Memory.withProgram program
  display := Framebuffer.dark
  pc := UInt16.ofNat Memory.programStart
  index := 0
  registers := Vector.replicate 16 0
  stack := []
  delayTimer := 0
  soundTimer := 0
  keypad := Keypad.released
  random := random

def ofSeed (seed : UInt64) : Machine := fresh [] (RandomSource.ofSeed seed)

def reset (m : Machine) : Machine := fresh [] m.random

def load (m : Machine) (program : List UInt8) : Except Fault Machine :=
  if program.length ≤ Memory.capacity then .ok (fresh program m.random)
  else .error (.programTooLarge ⟨program.length, Memory.capacity⟩)

/-- The register that arithmetic, drawing and index overflow report to. -/
def flagRegister : Nibble := 15

def register (m : Machine) (x : Nibble) : UInt8 := m.registers.get x

def setRegister (m : Machine) (x : Nibble) (value : UInt8) : Machine :=
  { m with registers := m.registers.set x value x.lt_sixteen }

def setFlag (m : Machine) (flag : Bool) : Machine :=
  m.setRegister flagRegister (if flag then 1 else 0)

theorem register_setRegister (m : Machine) (x k : Nibble) (value : UInt8) :
    (m.setRegister x value).register k = if x = k then value else m.register k := by
  simp only [register, setRegister, Fin.ext_iff]
  exact Vector.getElem_set x.lt_sixteen k.lt_sixteen

theorem register_setFlag_of_ne (m : Machine) (flag : Bool) {k : Nibble} (hk : k ≠ flagRegister) :
    (m.setFlag flag).register k = m.register k := by
  rw [setFlag, register_setRegister, if_neg hk.symm]

def press (m : Machine) (key : Nibble) : Machine :=
  let pressed := m.keypad.press key
  let m := { m with keypad := pressed.1 }
  match pressed.2 with
  | some x => m.setRegister x key.toByte
  | none => m

theorem press_eq (m : Machine) (key : Nibble) :
    m.press key =
      { m with registers := (m.press key).registers, keypad := (m.keypad.press key).1 } := by
  unfold press Keypad.press
  cases m.keypad.pending with
  | none => rfl
  | some x => rfl

def release (m : Machine) (key : Nibble) : Machine :=
  { m with keypad := m.keypad.release key }

def sounding (m : Machine) : Bool := decide (0 < m.soundTimer)

end Machine

end Phosphor
