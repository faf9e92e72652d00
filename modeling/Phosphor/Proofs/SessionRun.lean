import Phosphor.Desktop.Session
import Phosphor.Proofs.Tone

namespace Phosphor.Desktop

/-- What a session meets: an event of its window, or a surface that is handed over or
taken away. -/
inductive Occurrence
  | window (event : WindowEvent)
  | surface (surface : Option Surface)

namespace Session

def meet (s : Session) : Occurrence → Reaction
  | .window event => s.handle event
  | .surface surface => .quiet { s with surface := surface }

def run (s : Session) (occurrences : List Occurrence) : Session :=
  occurrences.foldl (fun s o ↦ (s.meet o).session) s

def speakerCalls : Session → List Occurrence → List SpeakerCall
  | _, [] => []
  | s, o :: occurrences => (s.meet o).speaker ++ speakerCalls (s.meet o).session occurrences

def Relays (before after : Console) (calls : List SpeakerCall) : Prop :=
  ∃ cues, Switches before.toneOn cues after.toneOn ∧ calls = cues.filterMap SpeakerCall.ofCue?

theorem relays_nil {before after : Console} (h : after.toneOn = before.toneOn) :
    Relays before after [] := ⟨[], h ▸ .nil, rfl⟩

theorem redraw_plays (s : Session) (framesDue : Nat) :
    (s.redraw framesDue).session.console = (s.console.frames framesDue).console ∧
      (s.redraw framesDue).speaker =
        (s.console.frames framesDue).cues.filterMap SpeakerCall.ofCue? := by
  unfold redraw
  dsimp only
  split
  · exact ⟨rfl, rfl⟩
  · split <;> exact ⟨rfl, rfl⟩

theorem relays_redraw (s : Session) (framesDue : Nat) :
    Relays s.console (s.redraw framesDue).session.console (s.redraw framesDue).speaker := by
  obtain ⟨hconsole, hspeaker⟩ := redraw_plays s framesDue
  rw [hconsole, hspeaker]
  exact ⟨_, Console.switches_frames framesDue s.console, rfl⟩

theorem toneOn_type (s : Session) (event : KeyEvent) :
    (s.type event).console.toneOn = s.console.toneOn := by
  unfold type
  split
  · rfl
  · split
    · split <;> rfl
    · rfl

theorem relays_meet (s : Session) (o : Occurrence) :
    Relays s.console (s.meet o).session.console (s.meet o).speaker := by
  cases o with
  | surface surface => exact relays_nil rfl
  | window event =>
    cases event with
    | closeRequested | other => exact relays_nil rfl
    | redraw framesDue => exact relays_redraw s framesDue
    | resized width height =>
      simp only [meet, handle, resize]
      split <;> exact relays_nil rfl
    | key event =>
      simp only [meet, handle]
      split
      · exact relays_nil rfl
      · exact relays_nil (toneOn_type s event)

theorem relays_start {options : PlayOptions} {entropy : UInt64} {program : List UInt8}
    {s : Session} {calls : List SpeakerCall}
    (h : start options entropy true program = (.ok s, calls)) :
    ∃ cues, Switches false cues s.console.toneOn ∧
      calls = speakerSetup ++ cues.filterMap SpeakerCall.ofCue? := by
  simp only [start, if_true] at h
  split at h
  · cases h
  · cases h
    refine ⟨_, ?_, rfl⟩
    exact Console.switches_load ((Console.ofMachine _).withCadence options.cadence) program

end Session

end Phosphor.Desktop
