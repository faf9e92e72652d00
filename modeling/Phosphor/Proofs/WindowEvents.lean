import Phosphor.Proofs.Keyboard
import Phosphor.Proofs.Painting

namespace Phosphor

def Cue.picture? : Cue → Option (List GlowCell)
  | .present picture => some picture
  | _ => none

namespace Console

/-- The replies to the frames that are run when some are due: all of them, or those up to the
first that fails. With them the console that they leave, and how the last one ended. -/
inductive Playback :
    Console → Nat → List (Reply (Except Fault Unit)) → Console → Except Fault Unit → Prop
  | done {c : Console} : Playback c 0 [] c (.ok ())
  | failed {c : Console} {due : Nat} {fault : Fault} :
      c.frame.result = .error fault →
      Playback c (due + 1) [c.frame] c.frame.console (.error fault)
  | next {c last : Console} {due : Nat} {made : List (Reply (Except Fault Unit))}
      {result : Except Fault Unit} :
      c.frame.result = .ok () → Playback c.frame.console due made last result →
      Playback c (due + 1) (c.frame :: made) last result

theorem playback_repeated (due : Nat) (c : Console) (given : List Cue) :
    ∃ made, Playback c due made (repeated frame due c given).console
        (repeated frame due c given).result ∧
      (repeated frame due c given).cues = given ++ made.flatMap Reply.cues := by
  induction due generalizing c given with
  | zero => exact ⟨[], .done, (List.append_nil given).symm⟩
  | succ due ih =>
    cases hr : c.frame.result with
    | error fault =>
      rw [repeated_succ_of_error hr]
      exact ⟨[c.frame], .failed hr, by rw [List.flatMap_singleton]⟩
    | ok _ =>
      obtain ⟨made, hmade, hcues⟩ := ih c.frame.console (given ++ c.frame.cues)
      rw [repeated_succ_of_ok hr]
      exact ⟨c.frame :: made, .next hr hmade, by rw [hcues, List.flatMap_cons, List.append_assoc]⟩

end Console

namespace Desktop

theorem shownPicture_eq (picture : List GlowCell) (cues : List Cue) :
    shownPicture picture cues = (cues.filterMap Cue.picture?).getLast?.getD picture := by
  induction cues generalizing picture with
  | nil => rfl
  | cons cue cues ih =>
    cases cue with
    | startTone | stopTone => exact ih picture
    | present newer =>
      have hnewer : (Cue.present newer :: cues).filterMap Cue.picture? =
          newer :: cues.filterMap Cue.picture? := rfl
      rw [hnewer, List.getLast?_cons]
      exact ih newer

theorem Surface.paint_eq (s t : Surface) (picture : List GlowCell) :
    s.paint picture = t.paint picture :=
  congrArg (Surface.lay · picture) (Surface.fill_eq s t .background)

namespace Session

def events (s : Session) (occurrences : List Occurrence) : List (Event Session Occurrence) :=
  History.record (fun s o ↦ (s.meet o).session) s occurrences

def newPictures (e : Event Session Occurrence) : List (List GlowCell) :=
  match e.action with
  | .window (.redraw due) => (e.before.console.frames due).cues.filterMap Cue.picture?
  | _ => []

def pictures (s : Session) (occurrences : List Occurrence) : List (List GlowCell) :=
  (s.events occurrences).flatMap newPictures

def failures (s : Session) (occurrences : List Occurrence) : List Failure :=
  (s.events occurrences).flatMap fun e ↦ (e.before.meet e.action).failure.toList

/-- What the program ends with: the failure of the last event that failed. -/
def exitResult (s : Session) (occurrences : List Occurrence) : Except Failure Unit :=
  match (s.failures occurrences).getLast? with
  | some failure => .error failure
  | none => .ok ()

def played (s : Session) (due : Nat) : Session where
  console := (s.console.frames due).console
  surface := s.surface
  picture := shownPicture s.picture (s.console.frames due).cues

section

variable {s : Session} {due : Nat} {occurrences : List Occurrence} {o : Occurrence}

theorem pictures_snoc (s : Session) (occurrences : List Occurrence) (o : Occurrence) :
    s.pictures (occurrences ++ [o]) =
      s.pictures occurrences ++ newPictures ⟨s.run occurrences, o⟩ := by
  rw [pictures, events, History.record_snoc, List.flatMap_append, List.flatMap_singleton]
  rfl

theorem failures_snoc (s : Session) (occurrences : List Occurrence) (o : Occurrence) :
    s.failures (occurrences ++ [o]) =
      s.failures occurrences ++ ((s.run occurrences).meet o).failure.toList := by
  rw [failures, events, History.record_snoc, List.flatMap_append, List.flatMap_singleton]
  rfl

theorem exitResult_of_failure {failure : Failure}
    (h : ((s.run occurrences).meet o).failure = some failure) :
    s.exitResult (occurrences ++ [o]) = .error failure := by
  rw [exitResult, failures_snoc, h, Option.toList_some, List.getLast?_concat]

theorem exitResult_of_none (h : ((s.run occurrences).meet o).failure = none) :
    s.exitResult (occurrences ++ [o]) = s.exitResult occurrences := by
  rw [exitResult, failures_snoc, h, Option.toList_none, List.append_nil]
  rfl

theorem redraw_of_error {fault : Fault} (h : (s.console.frames due).result = .error fault) :
    s.redraw due =
      .fail (s.played due) ((s.console.frames due).cues.filterMap SpeakerCall.ofCue?)
        (.faulted fault) := by
  simp only [redraw, h]
  rfl

theorem redraw_of_no_surface (h : (s.console.frames due).result = .ok ())
    (hs : s.surface = none) :
    s.redraw due =
      .fail (s.played due) ((s.console.frames due).cues.filterMap SpeakerCall.ofCue?)
        .noSurface := by
  simp only [redraw, h, hs, played]

theorem redraw_of_surface {surface : Surface} (h : (s.console.frames due).result = .ok ())
    (hs : s.surface = some surface) :
    s.redraw due =
      ⟨{ s.played due with surface := some (surface.paint (s.played due).picture) },
        (s.console.frames due).cues.filterMap SpeakerCall.ofCue?, [.render], false, none⟩ := by
  simp only [redraw, h, hs, played]

inductive Redrawn (s : Session) (due : Nat) : Reaction → Prop
  | faulted {fault : Fault} :
      (s.console.frames due).result = .error fault →
      Redrawn s due (.fail (s.played due)
        ((s.console.frames due).cues.filterMap SpeakerCall.ofCue?) (.faulted fault))
  | unpainted :
      (s.console.frames due).result = .ok () → s.surface = none →
      Redrawn s due (.fail (s.played due)
        ((s.console.frames due).cues.filterMap SpeakerCall.ofCue?) .noSurface)
  | painted {surface : Surface} :
      (s.console.frames due).result = .ok () → s.surface = some surface →
      Redrawn s due ⟨{ s.played due with surface := some (surface.paint (s.played due).picture) },
        (s.console.frames due).cues.filterMap SpeakerCall.ofCue?, [.render], false, none⟩

theorem redrawn (s : Session) (due : Nat) : s.Redrawn due (s.redraw due) := by
  cases hr : (s.console.frames due).result with
  | error fault =>
    rw [redraw_of_error hr]
    exact .faulted hr
  | ok _ =>
    cases hs : s.surface with
    | none =>
      rw [redraw_of_no_surface hr hs]
      exact .unpainted hr hs
    | some surface =>
      rw [redraw_of_surface hr hs]
      exact .painted hr hs

theorem picture_redraw (s : Session) (due : Nat) :
    (s.redraw due).session.picture =
      (newPictures ⟨s, .window (.redraw due)⟩).getLast?.getD s.picture := by
  have hplayed : (s.redraw due).session.picture = (s.played due).picture := by
    have hredrawn := s.redrawn due
    generalize s.redraw due = r at hredrawn
    cases hredrawn with
    | faulted | unpainted | painted => rfl
  rw [hplayed]
  exact shownPicture_eq s.picture _

/-- An event that is no redraw leaves the surface and the picture alone, and does no more to the
console than to press or release a key. -/
structure Still (s : Session) (r : Reaction) : Prop where
  surface : r.session.surface = s.surface
  picture : r.session.picture = s.picture
  unrendered : .render ∉ r.calls
  console : r.session.console = s.console ∨ ∃ k, r.session.console = s.console.press k ∨
    r.session.console = s.console.release k

theorem still_of_not_redraw (s : Session) {e : WindowEvent} (h : ∀ due, e ≠ .redraw due) :
    s.Still (s.meet (.window e)) := by
  cases e with
  | redraw due => exact absurd rfl (h due)
  | closeRequested | other => exact ⟨rfl, rfl, List.not_mem_nil, .inl rfl⟩
  | resized width height =>
    simp only [meet, handle, resize]
    split
    · exact ⟨rfl, rfl, by simp, .inl rfl⟩
    · exact ⟨rfl, rfl, List.not_mem_nil, .inl rfl⟩
  | key e =>
    have hcalls : (s.meet (.window (.key e))).calls = [] := by
      simp only [meet, handle]
      split <;> rfl
    have hrender : SurfaceCall.render ∉ (s.meet (.window (.key e))).calls :=
      hcalls ▸ List.not_mem_nil
    by_cases hk : ∃ k, e.Moves k
    · obtain ⟨k, hk⟩ := hk
      have hmeet := meet_of_moves (s := s) hk
      refine ⟨by rw [hmeet], by rw [hmeet], hrender, .inr ⟨k, ?_⟩⟩
      rw [hmeet]
      cases e.pressed with
      | true => exact .inl rfl
      | false => exact .inr rfl
    · have hmeet := meet_of_not_moves (s := s) (not_exists.1 hk)
      exact ⟨by rw [hmeet], by rw [hmeet], hrender, .inl (by rw [hmeet])⟩

theorem picture_meet (s : Session) (o : Occurrence) :
    (s.meet o).session.picture = (newPictures ⟨s, o⟩).getLast?.getD s.picture := by
  cases o with
  | surface surface => rfl
  | window e =>
    by_cases he : ∃ due, e = .redraw due
    · obtain ⟨due, rfl⟩ := he
      exact picture_redraw s due
    · have hnone : newPictures ⟨s, .window e⟩ = [] := by
        cases e with
        | redraw due => exact absurd ⟨due, rfl⟩ he
        | _ => rfl
      rw [hnone]
      exact (still_of_not_redraw s (not_exists.1 he)).picture

theorem picture_run (s : Session) (occurrences : List Occurrence) :
    (s.run occurrences).picture = (s.pictures occurrences).getLast?.getD s.picture := by
  refine History.run_induction (motive := fun _ t events ↦
    t.picture = (events.flatMap newPictures).getLast?.getD s.picture) rfl
    (fun _ t events o ih ↦ ?_) occurrences
  rw [picture_meet, ih, List.flatMap_append, List.flatMap_singleton, List.getLast?_append]
  cases (newPictures ⟨t, o⟩).getLast? <;> rfl

theorem picture_run_of_no_redraw (s : Session) {between : List Occurrence}
    (h : ∀ n, .window (.redraw n) ∉ between) : (s.run between).picture = s.picture := by
  have hnone : s.pictures between = [] := by
    rw [pictures, List.flatMap_eq_nil_iff]
    intro e he
    have hmem : e.action ∈ between := History.exists_mem_record_iff.1 ⟨e, he, rfl⟩
    unfold newPictures
    split
    · rename_i due hdue
      rw [hdue] at hmem
      exact absurd hmem (h due)
    · rfl
  rw [picture_run, hnone]
  rfl

inductive Fails (s : Session) : WindowEvent → Failure → Prop
  | faulted {due : Nat} {fault : Fault} :
      (s.console.frames due).result = .error fault → Fails s (.redraw due) (.faulted fault)
  | unpainted {due : Nat} :
      (s.console.frames due).result = .ok () → s.surface = none →
      Fails s (.redraw due) .noSurface
  | unresized {width height : Nat} :
      s.surface = none → Fails s (.resized width height) .noSurface

theorem failure_eq_some_iff {e : WindowEvent} {failure : Failure} :
    (s.meet (.window e)).failure = some failure ↔ s.Fails e failure := by
  constructor
  · intro h
    cases e with
    | closeRequested | other => cases h
    | key e =>
      simp only [meet, handle] at h
      split at h <;> cases h
    | resized width height =>
      simp only [meet, handle, resize] at h
      split at h
      · cases h
      · rename_i hs
        cases h
        exact .unresized hs
    | redraw due =>
      have hredrawn := s.redrawn due
      change (s.redraw due).failure = _ at h
      generalize s.redraw due = r at hredrawn h
      cases hredrawn with
      | faulted hr =>
        cases h
        exact .faulted hr
      | unpainted hr hs =>
        cases h
        exact .unpainted hr hs
      | painted => cases h
  · intro h
    cases h with
    | faulted hr => exact congrArg Reaction.failure (redraw_of_error hr)
    | unpainted hr hs => exact congrArg Reaction.failure (redraw_of_no_surface hr hs)
    | unresized hs => simp only [meet, handle, resize, hs, Reaction.fail]

theorem exit_eq_isSome_failure {e : WindowEvent} (hclose : e ≠ .closeRequested)
    (hkey : ∀ key, e ≠ .key key) :
    (s.meet (.window e)).exit = (s.meet (.window e)).failure.isSome := by
  cases e with
  | closeRequested => exact absurd rfl hclose
  | key key => exact absurd rfl (hkey key)
  | other => rfl
  | resized width height =>
    simp only [meet, handle, resize]
    split <;> rfl
  | redraw due =>
    have hredrawn := s.redrawn due
    change (s.redraw due).exit = (s.redraw due).failure.isSome
    generalize s.redraw due = r at hredrawn
    cases hredrawn with
    | faulted | unpainted | painted => rfl

theorem exit_iff {e : WindowEvent} :
    (s.meet (.window e)).exit = true ↔
      e = .closeRequested ∨ (∃ key, e = .key key ∧ key.logical = .named "Escape") ∨
        ∃ failure, s.Fails e failure := by
  simp only [← failure_eq_some_iff, ← Option.isSome_iff_exists]
  by_cases hclose : e = .closeRequested
  · subst hclose
    exact iff_of_true rfl (.inl rfl)
  by_cases hkey : ∃ key, e = .key key
  · obtain ⟨key, rfl⟩ := hkey
    by_cases hescape : key.logical = .named "Escape"
    · have hleave : s.meet (.window (.key key)) = .leave s := if_pos hescape
      rw [hleave]
      exact iff_of_true rfl (.inr (.inl ⟨key, rfl, hescape⟩))
    · have hquiet : s.meet (.window (.key key)) = .quiet (s.type key) := if_neg hescape
      rw [hquiet]
      refine iff_of_false Bool.false_ne_true ?_
      rintro (hclose | ⟨key, hkey, hescape'⟩ | hfailed)
      · cases hclose
      · cases hkey
        exact hescape hescape'
      · cases hfailed
  · rw [exit_eq_isSome_failure hclose (not_exists.1 hkey)]
    constructor
    · exact fun hfailed ↦ .inr (.inr hfailed)
    · rintro (hclose' | ⟨key, rfl, -⟩ | hfailed)
      · exact absurd hclose' hclose
      · exact absurd ⟨key, rfl⟩ hkey
      · exact hfailed

theorem picture_start {options : PlayOptions} {entropy : UInt64} {speaker : Bool}
    {program : List UInt8} {calls : List SpeakerCall}
    (h : start options entropy speaker program = (.ok s, calls)) : s.picture = [] := by
  cases speaker with
  | false => cases h
  | true =>
    simp only [start, if_true] at h
    split at h
    · cases h
    · cases h
      rfl

theorem redraw_again {between : List Occurrence}
    (hdone : (s.meet (.window (.redraw due))).failure = none)
    (hbetween : ∀ n, .window (.redraw n) ∉ between)
    (hsurface : ((s.meet (.window (.redraw due))).session.run between).surface ≠ none) :
    (((s.meet (.window (.redraw due))).session.run between).meet
      (.window (.redraw 0))).session.surface =
        (s.meet (.window (.redraw due))).session.surface := by
  have hpicture := picture_run_of_no_redraw (s.meet (.window (.redraw due))).session hbetween
  generalize (s.meet (.window (.redraw due))).session.run between = later at hpicture hsurface ⊢
  obtain ⟨canvas, hcanvas⟩ := Option.ne_none_iff_exists'.1 hsurface
  have hredrawn := s.redrawn due
  change (s.redraw due).failure = none at hdone
  change later.picture = (s.redraw due).session.picture at hpicture
  change (later.redraw 0).session.surface = (s.redraw due).session.surface
  rw [redraw_of_surface rfl hcanvas]
  generalize s.redraw due = r at hredrawn hdone hpicture
  cases hredrawn with
  | faulted | unpainted => cases hdone
  | @painted surface =>
    change some (canvas.paint later.picture) = _
    rw [hpicture, Surface.paint_eq canvas surface]

end

end Session

/-- The law of window events, at any point of a session. A redraw runs the frames that are due,
in order, up to the first that fails. If one fails, nothing is painted, and the program leaves
with that failure. Otherwise the last picture ever shown is painted and rendered once, or the
event fails for want of a surface. No other event paints, renders, or runs a frame. An event
leaves the program exactly if it is a request to close, an Escape key, or fails, and the program
ends with the failure of the last event that failed. -/
theorem window_event_law {options : PlayOptions} {entropy : UInt64} {program : List UInt8}
    {session : Session} {calls : List SpeakerCall}
    (h : Session.start options entropy true program = (.ok session, calls))
    (occurrences : List Occurrence) :
    let s := session.run occurrences
    (∀ due,
      let r := s.meet (.window (.redraw due))
      let result := (s.console.frames due).result
      let now := occurrences ++ [.window (.redraw due)]
      let shown := (session.pictures now).getLast?.getD []
      (∃ made, Console.Playback s.console due made r.session.console result ∧
        session.pictures now =
          session.pictures occurrences ++ (made.flatMap Reply.cues).filterMap Cue.picture?) ∧
      r.session.picture = shown ∧
      (∀ fault, result = .error fault →
        r.session.surface = s.surface ∧ r.calls = [] ∧ r.exit = true ∧
          session.exitResult now = .error (.faulted fault)) ∧
      (result = .ok () → s.surface = none →
        r.session.surface = none ∧ r.calls = [] ∧ r.exit = true ∧
          session.exitResult now = .error .noSurface) ∧
      ∀ surface, result = .ok () → s.surface = some surface →
        r.session.surface = some (surface.paint shown) ∧ r.calls = [.render] ∧ r.exit = false ∧
          session.exitResult now = session.exitResult occurrences) ∧
    (∀ fault, (Failure.faulted fault).message = "Chip8 Execution error: " ++ fault.message) ∧
    (∀ (due : Nat) (between : List Occurrence),
      let first := s.meet (.window (.redraw due))
      let later := first.session.run between
      first.failure = none → (∀ n, .window (.redraw n) ∉ between) → later.surface ≠ none →
        (later.meet (.window (.redraw 0))).session.surface = first.session.surface) ∧
    ∀ e : WindowEvent,
      let r := s.meet (.window e)
      let now := occurrences ++ [.window e]
      ((∀ due, e ≠ .redraw due) → s.Still r) ∧
      (r.exit = true ↔
        e = .closeRequested ∨ (∃ key, e = .key key ∧ key.logical = .named "Escape") ∨
          ∃ failure, s.Fails e failure) ∧
      (∀ failure, s.Fails e failure → session.exitResult now = .error failure) ∧
      ((∀ failure, ¬ s.Fails e failure) →
        session.exitResult now = session.exitResult occurrences) := by
  intro s
  refine ⟨fun due ↦ ?_, fun _ ↦ rfl, fun due between ↦ Session.redraw_again, fun e ↦ ?_⟩
  · intro r result now shown
    have hshown : r.session.picture = shown := by
      have hnow : session.run now = r.session := List.foldl_concat ..
      rw [← hnow, Session.picture_run, Session.picture_start h]
    refine ⟨?_, hshown, fun fault hr ↦ ?_, fun hr hs ↦ ?_, fun surface hr hs ↦ ?_⟩
    · obtain ⟨made, hmade, hcues⟩ := Console.playback_repeated due s.console []
      have hnew : Session.newPictures ⟨s, .window (.redraw due)⟩ =
          (made.flatMap Reply.cues).filterMap Cue.picture? := congrArg (List.filterMap _) hcues
      refine ⟨made, ?_, ?_⟩
      · rw [show r.session.console = (s.console.frames due).console from
          (Session.redraw_plays s due).1]
        exact hmade
      · rw [Session.pictures_snoc, ← hnew]
    · have hredraw : r = _ := Session.redraw_of_error hr
      have hexit : session.exitResult now = .error (.faulted fault) :=
        Session.exitResult_of_failure (congrArg Reaction.failure hredraw)
      rw [hredraw]
      exact ⟨rfl, rfl, rfl, hexit⟩
    · have hredraw : r = _ := Session.redraw_of_no_surface hr hs
      have hexit : session.exitResult now = .error .noSurface :=
        Session.exitResult_of_failure (congrArg Reaction.failure hredraw)
      rw [hredraw]
      exact ⟨hs, rfl, rfl, hexit⟩
    · have hredraw : r = _ := Session.redraw_of_surface hr hs
      have hexit : session.exitResult now = session.exitResult occurrences :=
        Session.exitResult_of_none (congrArg Reaction.failure hredraw)
      rw [← hshown, hredraw]
      exact ⟨rfl, rfl, rfl, hexit⟩
  · refine ⟨s.still_of_not_redraw, Session.exit_iff, fun failure hfails ↦ ?_, fun hnone ↦ ?_⟩
    · exact Session.exitResult_of_failure (Session.failure_eq_some_iff.2 hfails)
    · apply Session.exitResult_of_none
      rw [Option.eq_none_iff_forall_ne_some]
      exact fun failure hfailure ↦ hnone failure (Session.failure_eq_some_iff.1 hfailure)

/-- The second of three frames that are due fails. -/
theorem window_event_law_fault :
    let options : PlayOptions := ⟨"", 1, some 0⟩
    let program : List UInt8 := [0x00, 0xE0, 0x00, 0xE0, 0x00, 0xEE]
    let past : List Occurrence := [.surface (some Surface.empty), .window (.redraw 1)]
    ∃ session calls, Session.start options 0 true program = (.ok session, calls) ∧
      ((session.run past).meet (.window (.redraw 3))).session.surface = (session.run past).surface ∧
      ((session.run past).meet (.window (.redraw 3))).exit = true ∧
      session.exitResult (past ++ [.window (.redraw 3)]) = .error (.faulted .stackUnderflow) := by
  intro options program past
  let loaded := (((Console.ofMachine (.ofSeed 0)).withCadence 1).load program).console
  have hstart : Session.start options 0 true program =
      (.ok ⟨loaded, none, []⟩, Session.speakerSetup) := rfl
  have hfault : ((Session.run ⟨loaded, none, []⟩ past).console.frames 3).result =
      .error .stackUnderflow := by
    decide +kernel
  obtain ⟨hredraw, -⟩ := window_event_law hstart past
  obtain ⟨-, -, herror, -⟩ := hredraw 3
  obtain ⟨hsurface, -, hexit, hresult⟩ := herror .stackUnderflow hfault
  exact ⟨_, _, hstart, hsurface, hexit, hresult⟩

end Desktop

end Phosphor
