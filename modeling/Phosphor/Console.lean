import Phosphor.Machine.Step

namespace Phosphor

inductive Cue
  | startTone
  | stopTone
  | present (picture : List GlowCell)
  deriving DecidableEq, Repr

def Cue.isPresent : Cue → Bool
  | .present _ => true
  | _ => false

/-- A machine run at a fixed cadence: after every `cadence` instructions the
timers tick, the tone follows the sound timer and a picture is shown. A picture
sets `presented`, which only the start of a frame takes back. -/
structure Console where
  machine : Machine
  cadence : UInt32
  cycles : UInt32
  toneOn : Bool
  presented : Bool
  deriving DecidableEq

structure Reply (α : Type) where
  console : Console
  cues : List Cue
  result : α

namespace Console

def defaultCadence : UInt32 := 10

def ofMachine (m : Machine) : Console := ⟨m, defaultCadence, 0, false, false⟩

/-- A cadence of zero counts as one. The instructions counted so far stay. -/
def withCadence (c : Console) (cadence : UInt32) : Console := { c with cadence := max cadence 1 }

def countDown (timer : UInt8) : UInt8 := if timer = 0 then 0 else timer - 1

def toneCue : Bool → Bool → List Cue
  | false, true => [.startTone]
  | true, false => [.stopTone]
  | _, _ => []

def load (c : Console) (program : List UInt8) : Reply (Except Fault Unit) :=
  match c.machine.load program with
  | .error fault => ⟨c, [], .error fault⟩
  | .ok m =>
    ⟨{ c with machine := m, cycles := 0, toneOn := false }, toneCue c.toneOn false, .ok ()⟩

def press (c : Console) (key : Nibble) : Console := { c with machine := c.machine.press key }

def release (c : Console) (key : Nibble) : Console := { c with machine := c.machine.release key }

def present (c : Console) : Console × Cue :=
  let shown := c.machine.display.composite
  ({ c with machine := { c.machine with display := shown.1 }, presented := true },
    .present shown.2)

/-- Both timers count down. The tone is on during a tick exactly when the
sound timer had not run out before it. -/
def tick (c : Console) : Console × List Cue :=
  let m := c.machine
  let sounding := m.sounding
  let m := { m with delayTimer := countDown m.delayTimer, soundTimer := countDown m.soundTimer }
  let shown := present { c with machine := m, toneOn := sounding }
  (shown.1, toneCue c.toneOn sounding ++ [shown.2])

def count (c : Console) : Console × List Cue :=
  if c.cycles + 1 = c.cadence then tick { c with cycles := 0 }
  else ({ c with cycles := c.cycles + 1 }, [])

/-- One step of the machine. Suspended steps and faults are not counted. -/
def step (c : Console) : Reply (Except Fault Outcome) :=
  match c.machine.step with
  | (m, .error fault) => ⟨{ c with machine := m }, [], .error fault⟩
  | (m, .ok outcome) =>
    if outcome.consumes then
      let counted := count { c with machine := m }
      ⟨counted.1, counted.2, .ok outcome⟩
    else ⟨{ c with machine := m }, [], .ok outcome⟩

def repeated {α : Type} (operation : Console → Reply (Except Fault α)) :
    Nat → Console → List Cue → Reply (Except Fault Unit)
  | 0, c, cues => ⟨c, cues, .ok ()⟩
  | n + 1, c, cues =>
    match operation c with
    | ⟨c, more, .error fault⟩ => ⟨c, cues ++ more, .error fault⟩
    | ⟨c, more, .ok _⟩ => repeated operation n c (cues ++ more)

def steps (n : Nat) (c : Console) : Reply (Except Fault Unit) := repeated step n c []

/-- As many steps as the cadence says. A frame without a tick still shows a
picture, so that the glow fades while a key is awaited. -/
def frame (c : Console) : Reply (Except Fault Unit) :=
  match steps c.cadence.toNat { c with presented := false } with
  | ⟨c, cues, .error fault⟩ => ⟨c, cues, .error fault⟩
  | ⟨c, cues, .ok ()⟩ =>
    if c.presented then ⟨c, cues, .ok ()⟩
    else
      let shown := present c
      ⟨shown.1, cues ++ [shown.2], .ok ()⟩

def frames (n : Nat) (c : Console) : Reply (Except Fault Unit) := repeated frame n c []

end Console

end Phosphor
