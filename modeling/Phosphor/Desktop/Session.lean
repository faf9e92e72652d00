import Phosphor.CommandLine
import Phosphor.Console
import Phosphor.Desktop.KeyMap
import Phosphor.Desktop.Surface
import Phosphor.Failure

namespace Phosphor.Desktop

inductive LogicalKey
  | named (name : String)
  | character (text : String)
  deriving DecidableEq, Repr

structure KeyEvent where
  code : String
  pressed : Bool
  repeating : Bool
  logical : LogicalKey
  deriving DecidableEq, Repr

inductive WindowEvent
  | closeRequested
  | key (event : KeyEvent)
  | resized (width height : Nat)
  | redraw (framesDue : Nat)
  | other
  deriving DecidableEq, Repr

inductive SpeakerCall
  | play
  | pause
  | appendTone
  deriving DecidableEq, Repr

def SpeakerCall.text : SpeakerCall → String
  | .play => "play"
  | .pause => "pause"
  | .appendTone => "append square 220.0 amplify 0.1"

inductive SurfaceCall
  | render
  | resize (width height : Nat)
  deriving DecidableEq, Repr

def SurfaceCall.text : SurfaceCall → String
  | .render => "render"
  | .resize width height => "resize " ++ toString width ++ " " ++ toString height

def SpeakerCall.ofCue? : Cue → Option SpeakerCall
  | .startTone => some .play
  | .stopTone => some .pause
  | .present _ => none

def shownPicture (picture : List GlowCell) (cues : List Cue) : List GlowCell :=
  cues.foldl (fun picture cue ↦ match cue with
    | .present newer => newer
    | _ => picture) picture

structure Session where
  console : Console
  surface : Option Surface
  picture : List GlowCell

structure Reaction where
  session : Session
  speaker : List SpeakerCall
  calls : List SurfaceCall
  exit : Bool
  failure : Option Failure

namespace Reaction

def quiet (s : Session) : Reaction := ⟨s, [], [], false, none⟩

def leave (s : Session) : Reaction := ⟨s, [], [], true, none⟩

def fail (s : Session) (speaker : List SpeakerCall) (failure : Failure) : Reaction :=
  ⟨s, speaker, [], true, some failure⟩

end Reaction

namespace Session

def speakerSetup : List SpeakerCall := [.pause, .appendTone]

def start (options : PlayOptions) (entropy : UInt64) (speaker : Bool) (program : List UInt8) :
    Except Failure Session × List SpeakerCall :=
  if speaker then
    let machine := Machine.ofSeed (options.seed.getD entropy)
    let loaded := ((Console.ofMachine machine).withCadence options.cadence).load program
    let calls := speakerSetup ++ loaded.cues.filterMap SpeakerCall.ofCue?
    match loaded.result with
    | .error fault => (.error (.refusedProgram fault), calls)
    | .ok () => (.ok ⟨loaded.console, none, []⟩, calls)
  else (.error .noSpeaker, [])

def type (s : Session) (event : KeyEvent) : Session :=
  match KeyMap.key? event.code with
  | none => s
  | some key =>
    if event.pressed then
      if event.repeating then s else { s with console := s.console.press key }
    else { s with console := s.console.release key }

def resize (s : Session) (width height : Nat) : Reaction :=
  match s.surface with
  | some _ => { Reaction.quiet s with calls := [.resize width height] }
  | none => .fail s [] .noSurface

def redraw (s : Session) (framesDue : Nat) : Reaction :=
  let played := s.console.frames framesDue
  let speaker := played.cues.filterMap SpeakerCall.ofCue?
  let s := { s with console := played.console, picture := shownPicture s.picture played.cues }
  match played.result with
  | .error fault => .fail s speaker (.faulted fault)
  | .ok () =>
    match s.surface with
    | none => .fail s speaker .noSurface
    | some surface =>
      ⟨{ s with surface := some (surface.paint s.picture) }, speaker, [.render], false, none⟩

/-- Escape leaves, whichever key carries it, and reaches no keypad key. -/
def handle (s : Session) : WindowEvent → Reaction
  | .closeRequested => .leave s
  | .key event =>
    if event.logical = .named "Escape" then .leave s else .quiet (s.type event)
  | .resized width height => s.resize width height
  | .redraw framesDue => s.redraw framesDue
  | .other => .quiet s

end Session

/-- The program that plays in a window, where no window system is to be had. -/
def launch (file : Except Failure (List UInt8)) : ProgramResult :=
  .ofExcept do
    let _ ← file
    throw .noDisplay

end Phosphor.Desktop
