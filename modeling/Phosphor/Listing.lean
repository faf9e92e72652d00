import Phosphor.CommandLine
import Phosphor.Failure
import Phosphor.Instruction.Mnemonic

namespace Phosphor.Listing

structure Line where
  address : Nat
  word : Word
  deriving DecidableEq, Repr

/-- Address, word and mnemonic. A word that is no instruction leaves a
trailing blank. -/
def Line.text (l : Line) : String :=
  Hex.text 4 l.address ++ ": " ++ Hex.text 4 l.word.toNat ++ " " ++ disassemble l.word

def addresses (start stop : Nat) : List Nat := List.range' start ((stop - start + 1) / 2) 2

def lines (m : Memory) (start stop : Nat) : List Line :=
  (addresses start stop).filterMap fun address ↦ (m.word? address).map (Line.mk address)

def start (options : ListingOptions) : Nat :=
  match options.start with
  | some address => address.toNat
  | none => Memory.programStart

/-- The end of the asked stretch, or else of the program, but no later than
the end of memory. -/
def stop (options : ListingOptions) (program : List UInt8) : Nat :=
  match options.length with
  | some length => min (start options + length.toNat) Memory.size
  | none => min (Memory.programStart + program.length) Memory.size

def ofProgram (options : ListingOptions) (program : List UInt8) : Except Failure (List Line) :=
  match (Machine.ofSeed 0).load program with
  | .error fault => .error (.refusedProgram fault)
  | .ok m => .ok (lines m.memory (start options) (stop options program))

def run (options : ListingOptions) (file : Except Failure (List UInt8)) : ProgramResult :=
  .ofExcept do
    let program ← file
    let lines ← ofProgram options program
    return lines.map Line.text

end Phosphor.Listing
