import Phosphor.Fault

namespace Phosphor

inductive Failure
  | unreadableProgram (reason : String)
  | refusedProgram (fault : Fault)
  | noSpeaker
  | noDisplay
  | noSurface
  | faulted (fault : Fault)
  deriving DecidableEq, Repr

namespace Failure

def missingFile : Failure := .unreadableProgram "No such file or directory (os error 2)"

def summary : Failure → String
  | .unreadableProgram _ => "Failed to read ROM file"
  | .refusedProgram _ => "Failed to load ROM into CHIP-8 memory"
  | .noSpeaker => "Failed to open audio output stream"
  | .noDisplay => "Failed to create event loop"
  | .noSurface => "Pixels surface not initialized"
  | .faulted _ => "Chip8 Execution error"

def cause? : Failure → Option String
  | .unreadableProgram reason => some reason
  | .refusedProgram fault => some fault.message
  | .noSpeaker => some "no device"
  | .noDisplay => some "no display"
  | .noSurface => none
  | .faulted fault => some fault.message

def message (f : Failure) : String :=
  match f.cause? with
  | some cause => f.summary ++ ": " ++ cause
  | none => f.summary

def report (f : Failure) : String :=
  match f.cause? with
  | some cause => "Error: " ++ f.summary ++ "\n\nCaused by:\n    " ++ cause ++ "\n"
  | none => "Error: " ++ f.summary ++ "\n"

end Failure

structure ProgramResult where
  status : Nat
  output : List String
  errors : String
  deriving DecidableEq, Repr

def ProgramResult.ofExcept : Except Failure (List String) → ProgramResult
  | .ok output => ⟨0, output, ""⟩
  | .error failure => ⟨1, [], failure.report⟩

end Phosphor
