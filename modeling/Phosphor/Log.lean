import Phosphor.Console
import Phosphor.Instruction.Mnemonic

namespace Phosphor

inductive LogLevel
  | warn
  | debug
  | trace
  deriving DecidableEq, Repr

namespace LogLevel

def name : LogLevel → String
  | .warn => "WARN"
  | .debug => "DEBUG"
  | .trace => "TRACE"

def verbosity : LogLevel → Nat
  | .warn => 0
  | .debug => 1
  | .trace => 2

def keeps (kept level : LogLevel) : Bool := decide (level.verbosity ≤ kept.verbosity)

end LogLevel

structure LogEntry where
  level : LogLevel
  text : String
  deriving DecidableEq, Repr

def LogEntry.line (e : LogEntry) : String := e.level.name ++ " " ++ e.text

namespace Machine

def loadLog (m : Machine) (program : List UInt8) : List LogEntry :=
  match m.load program with
  | .ok _ => [⟨.debug, "loaded " ++ toString program.length ++ " byte program"⟩]
  | .error _ => []

def wordLog (pc : Nat) (word : Word) : List LogEntry :=
  ⟨.trace, Hex.text 3 pc ++ ": " ++ Hex.text 4 word.toNat ++ " " ++ disassemble word⟩ ::
    match Instruction.decode word with
    | .unknown _ =>
      [⟨.warn, "ignoring unknown opcode 0x" ++ Hex.text 4 word.toNat ++ " at 0x" ++ Hex.text 3 pc⟩]
    | _ => []

def stepLog (m : Machine) : List LogEntry :=
  match m.keypad.pending, m.wordAt m.pc.toNat with
  | none, .ok word => wordLog m.pc.toNat word
  | _, _ => []

end Machine

def Cue.log : Cue → List LogEntry
  | .startTone => [⟨.debug, "sound on"⟩]
  | .stopTone => [⟨.debug, "sound off"⟩]
  | .present _ => []

namespace Console

def stepLog (c : Console) : List LogEntry := c.machine.stepLog ++ c.step.cues.flatMap Cue.log

def repeatedLog {α : Type} (operation : Console → Reply (Except Fault α))
    (log : Console → List LogEntry) : Nat → Console → List LogEntry
  | 0, _ => []
  | n + 1, c =>
    log c ++
      match operation c with
      | ⟨_, _, .error _⟩ => []
      | ⟨c, _, .ok _⟩ => repeatedLog operation log n c

def stepsLog (n : Nat) (c : Console) : List LogEntry := repeatedLog step stepLog n c

def frameLog (c : Console) : List LogEntry := stepsLog c.cadence.toNat c

def framesLog (n : Nat) (c : Console) : List LogEntry := repeatedLog frame frameLog n c

end Console

end Phosphor
