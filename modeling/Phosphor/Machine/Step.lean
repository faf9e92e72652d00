import Phosphor.Instruction.Decode
import Phosphor.Machine.Execute

namespace Phosphor

inductive Outcome
  | executed
  | unknown (word : Word)
  | suspended
  deriving DecidableEq, Repr

def Outcome.consumes : Outcome → Bool
  | .suspended => false
  | _ => true

def Instruction.outcome : Instruction → Outcome
  | .unknown word => .unknown word
  | _ => .executed

namespace Machine

def wordAt (m : Machine) (address : Nat) : Except Fault Word :=
  match m.memory.word? address with
  | some word => .ok word
  | none => .error (.outOfBounds address)

def advance (m : Machine) : Machine := { m with pc := m.pc + 2 }

/-- One instruction. Nothing happens while a key is awaited, a word that
cannot be fetched leaves the machine alone, and an instruction that fails
leaves it with the program counter past that instruction. -/
def step (m : Machine) : Machine × Except Fault Outcome :=
  match m.keypad.pending with
  | some _ => (m, .ok .suspended)
  | none =>
    match m.wordAt m.pc.toNat with
    | .error fault => (m, .error fault)
    | .ok word =>
      match m.advance.execute (.decode word) with
      | .error fault => (m.advance, .error fault)
      | .ok after => (after, .ok (Instruction.decode word).outcome)

end Machine

end Phosphor
