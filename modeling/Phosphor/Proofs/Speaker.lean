import Phosphor.Proofs.SessionRun

namespace Phosphor.Desktop

/-- A sink of sounds as audio libraries offer it. It can be paused and played again, and a
sound that is appended does neither. -/
structure Speaker where
  State : Type
  play : State → State
  pause : State → State
  appendTone : State → State
  playing : State → Bool
  playing_play (s : State) : playing (play s) = true
  playing_pause (s : State) : playing (pause s) = false
  playing_appendTone (s : State) : playing (appendTone s) = playing s

namespace Speaker

def call (speaker : Speaker) (s : speaker.State) : SpeakerCall → speaker.State
  | .play => speaker.play s
  | .pause => speaker.pause s
  | .appendTone => speaker.appendTone s

def after (speaker : Speaker) (s : speaker.State) (calls : List SpeakerCall) : speaker.State :=
  calls.foldl speaker.call s

variable {speaker : Speaker} {s : speaker.State}

theorem after_append (first second : List SpeakerCall) :
    speaker.after s (first ++ second) = speaker.after (speaker.after s first) second :=
  List.foldl_append

theorem playing_setup : speaker.playing (speaker.after s Session.speakerSetup) = false :=
  (speaker.playing_appendTone (speaker.pause s)).trans (speaker.playing_pause s)

theorem playing_after_cues {first last : Bool} {cues : List Cue} (h : Switches first cues last)
    (hs : speaker.playing s = first) :
    speaker.playing (speaker.after s (cues.filterMap SpeakerCall.ofCue?)) = last := by
  induction h generalizing s with
  | nil => exact hs
  | start _ ih => exact ih (speaker.playing_play s)
  | stop _ ih => exact ih (speaker.playing_pause s)
  | present _ ih => exact ih hs

theorem playing_after_run {session : Session}
    (hs : speaker.playing s = session.console.toneOn) (occurrences : List Occurrence) :
    speaker.playing (speaker.after s (session.speakerCalls occurrences)) =
      (session.run occurrences).console.toneOn := by
  induction occurrences generalizing s session with
  | nil => exact hs
  | cons o occurrences ih =>
    obtain ⟨cues, hcues, hcalls⟩ := session.relays_meet o
    rw [Session.speakerCalls, hcalls, after_append]
    exact ih (playing_after_cues hcues hs)

def switch : Speaker where
  State := Bool
  play _ := true
  pause _ := false
  appendTone := id
  playing := id
  playing_play _ := rfl
  playing_pause _ := rfl
  playing_appendTone _ := rfl

end Speaker

open Console in
/-- The tone law: the cues that switch the tone alternate, a start first, and the tone is on
exactly after a start. A tick sets it by the sound timer, an accepted load ends it, and
nothing else that is done to the console or behind its back gives such a cue. So in a
session the speaker, which is paused at first, plays exactly while the tone is on. -/
theorem tone_alternates (m : Machine) (f : UInt32) (requests : List Request) :
    let start := (ofMachine m).withCadence f
    let events := start.history requests
    let given := (start.replies requests).flatMap Reply.cues
    (∀ k cue, (tones given)[k]? = some cue →
      cue = if k % 2 = 0 then .startTone else .stopTone) ∧
    ((start.run requests).toneOn = true ↔ (tones given).getLast? = some .startTone) ∧
    start.run requests = (events.map Event.action).foldl Console.after start ∧
    given = events.flatMap cues ∧
    (∀ e ∈ events,
      (ticks e ≠ 0 →
        e.before.apply e.action = tick { e.before with machine := own e, cycles := 0 } ∧
          (e.before.after e.action).toneOn = decide (0 < (own e).soundTimer)) ∧
      (restarts e = true → (e.before.after e.action).toneOn = false) ∧
      (ticks e = 0 → restarts e = false →
        tones (cues e) = [] ∧ (e.before.after e.action).toneOn = e.before.toneOn)) ∧
    ∀ (speaker : Speaker) (s : speaker.State) options entropy program session calls,
      Session.start options entropy true program = (.ok session, calls) →
      ∀ occurrences,
        speaker.playing (speaker.after s (calls ++ session.speakerCalls occurrences)) =
          (session.run occurrences).console.toneOn := by
  intro start events given
  have hrun : Switches false given (start.run requests).toneOn := switches_run start requests
  have hlast := hrun.last_eq
  refine ⟨?_, ?_, ?_, cues_replies start requests, fun e _ ↦ toneOn_after e, ?_⟩
  · intro k cue hk
    have hcue := hrun.getElem?_tones hk
    simpa only [Cue.switchTo, Bool.toNat_false, Nat.add_zero, decide_eq_true_eq] using hcue
  · rw [hlast, decide_eq_true_eq]
    cases (tones given).getLast? with
    | none => exact iff_of_false nofun nofun
    | some cue => exact Option.some_inj.symm
  · rw [run_eq_moves]
    exact congrArg (List.foldl _ start) (History.map_action_record start _).symm
  · intro speaker s options entropy program session calls hstart occurrences
    obtain ⟨cues, hcues, rfl⟩ := Session.relays_start hstart
    rw [Speaker.after_append, Speaker.after_append]
    exact Speaker.playing_after_run
      (Speaker.playing_after_cues hcues Speaker.playing_setup) occurrences

/-- A tone of one tick, heard through a switch. -/
theorem tone_alternates_switch :
    let options : PlayOptions := ⟨"", 3, some 0⟩
    let program : List UInt8 := [0x60, 0x01, 0xF0, 0x18, 0x12, 0x04]
    let heard (session : Session) (calls : List SpeakerCall) (frames : Nat) :=
      Speaker.switch.playing
        (Speaker.switch.after true (calls ++ session.speakerCalls [.window (.redraw frames)]))
    ∃ session calls, Session.start options 0 true program = (.ok session, calls) ∧
      heard session calls 0 = false ∧ heard session calls 1 = true ∧
      heard session calls 2 = false := by
  intro options program heard
  obtain ⟨-, -, -, -, -, hspeaker⟩ := tone_alternates (.ofSeed 0) 3 []
  let loaded := (((Console.ofMachine (.ofSeed 0)).withCadence 3).load program).console
  have hstart : Session.start options 0 true program =
      (.ok ⟨loaded, none, []⟩, Session.speakerSetup) := rfl
  have hheard (frames : Nat) :
      heard ⟨loaded, none, []⟩ Session.speakerSetup frames = (loaded.frames frames).console.toneOn :=
    (hspeaker Speaker.switch true options 0 program _ _ hstart [.window (.redraw frames)]).trans
      (congrArg Console.toneOn (Session.redraw_plays ⟨loaded, none, []⟩ frames).1)
  refine ⟨_, _, hstart, ?_⟩
  rw [hheard, hheard, hheard]
  decide +kernel

end Phosphor.Desktop
