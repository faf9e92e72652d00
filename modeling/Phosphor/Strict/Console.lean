import Phosphor.Console
import Phosphor.Strict.Machine

namespace Phosphor.Console

def strictPresent (c : Console) : Strict (Console × Cue) := do
  let shown ← c.machine.display.strictComposite
  return ({ c with machine := { c.machine with display := shown.1 }, presented := true },
    .present shown.2)

def strictSound (c : Console) : Strict (Console × List Cue) := do
  if c.machine.sounding then
    let left ← Strict.sub c.machine.soundTimer.toNat 1
    return ({ c with machine := { c.machine with soundTimer := UInt8.ofNat left }, toneOn := true },
      toneCue c.toneOn true)
  else return ({ c with toneOn := false }, toneCue c.toneOn false)

def strictTick (c : Console) : Strict (Console × List Cue) := do
  let m := { c.machine with delayTimer := countDown c.machine.delayTimer }
  let sounded ← strictSound { c with machine := m }
  let shown ← sounded.1.strictPresent
  return (shown.1, sounded.2 ++ [shown.2])

def strictCount (c : Console) : Strict (Console × List Cue) := do
  let cycles ← Strict.add 32 c.cycles.toNat 1
  if UInt32.ofNat cycles = c.cadence then strictTick { c with cycles := 0 }
  else return ({ c with cycles := UInt32.ofNat cycles }, [])

def strictStep (c : Console) : Strict (Reply (Except Fault Outcome)) := do
  match ← c.machine.strictStep with
  | (m, .error fault) => return ⟨{ c with machine := m }, [], .error fault⟩
  | (m, .ok outcome) =>
    if outcome.consumes then
      let counted ← strictCount { c with machine := m }
      return ⟨counted.1, counted.2, .ok outcome⟩
    else return ⟨{ c with machine := m }, [], .ok outcome⟩

def strictSteps : Nat → Console → List Cue → Strict (Reply (Except Fault Unit))
  | 0, c, cues => return ⟨c, cues, .ok ()⟩
  | n + 1, c, cues => do
    match ← c.strictStep with
    | ⟨c, more, .error fault⟩ => return ⟨c, cues ++ more, .error fault⟩
    | ⟨c, more, .ok _⟩ => strictSteps n c (cues ++ more)

def strictFrame (c : Console) : Strict (Reply (Except Fault Unit)) := do
  match ← strictSteps c.cadence.toNat { c with presented := false } [] with
  | ⟨c, cues, .error fault⟩ => return ⟨c, cues, .error fault⟩
  | ⟨c, cues, .ok ()⟩ =>
    if c.presented then return ⟨c, cues, .ok ()⟩
    else
      let shown ← c.strictPresent
      return ⟨shown.1, cues ++ [shown.2], .ok ()⟩

end Phosphor.Console
