import Phosphor.Hex
import Phosphor.Memory

namespace Phosphor

/-- A program and the room for programs, in bytes. -/
structure Oversize where
  size : Nat
  limit : Nat
  deriving DecidableEq, Repr

inductive Fault
  | programTooLarge (oversize : Oversize)
  | outOfBounds (address : Nat)
  | stackUnderflow
  deriving DecidableEq, Repr

def Fault.message : Fault → String
  | .programTooLarge oversize => "Program is too large (" ++ toString oversize.size ++
      " bytes), max size is " ++ toString oversize.limit ++ " bytes"
  | .outOfBounds address => "Memory access out of bounds at address 0x" ++ Hex.text 4 address
  | .stackUnderflow =>
      "Stack underflow: attempted to return from a subroutine with empty call stack"

end Phosphor
