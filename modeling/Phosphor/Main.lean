import Phosphor.Desktop.Session
import Phosphor.Listing

namespace Phosphor

def readProgram (path : String) : IO (Except Failure (List UInt8)) := do
  try
    let bytes ← IO.FS.readBinFile path
    return .ok bytes.toList
  catch e =>
    match e with
    | .noFileOrDirectory .. => return .error .missingFile
    | e => return .error (.unreadableProgram (toString e))

def finish (result : ProgramResult) : IO UInt32 := do
  for line in result.output do
    IO.println line
  IO.eprint result.errors
  return UInt32.ofNat result.status

def refuse : IO UInt32 := do
  IO.eprintln "usage: phosphor list [--start N] [--len N] FILE"
  IO.eprintln "       phosphor play [--cycles-per-tick N] [--seed N] FILE"
  return 2

def list (words : List String) : IO UInt32 := do
  match ListingOptions.parse? words with
  | none => refuse
  | some options => finish (Listing.run options (← readProgram options.path))

/-- There is no window system to open here, so a readable file fails next. -/
def play (words : List String) : IO UInt32 := do
  match PlayOptions.parse? words with
  | none => refuse
  | some options => finish (Desktop.launch (← readProgram options.path))

end Phosphor

def main : List String → IO UInt32
  | "list" :: words => Phosphor.list words
  | "play" :: words => Phosphor.play words
  | _ => Phosphor.refuse
