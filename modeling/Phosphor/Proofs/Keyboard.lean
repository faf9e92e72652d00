import Phosphor.Proofs.Batching
import Phosphor.Proofs.KeyWait
import Phosphor.Proofs.SessionRun

namespace Phosphor

namespace Machine

/-- No key has moved, and a wait goes on as it was, with no register written. -/
structure Undisturbed (before after : Machine) : Prop where
  down : after.keypad.down = before.keypad.down
  wait (x : Nibble) : before.keypad.pending = some x →
    after.keypad.pending = some x ∧ after.registers = before.registers

namespace Undisturbed

variable {m n o : Machine}

theorem refl (m : Machine) : Undisturbed m m := ⟨rfl, fun _ hx ↦ ⟨hx, rfl⟩⟩

theorem trans (h : Undisturbed m n) (h' : Undisturbed n o) : Undisturbed m o := by
  refine ⟨h'.down.trans h.down, fun x hx ↦ ?_⟩
  obtain ⟨hn, hregisters⟩ := h.wait x hx
  obtain ⟨ho, hregisters'⟩ := h'.wait x hn
  exact ⟨ho, hregisters'.trans hregisters⟩

end Undisturbed

theorem down_execute {m after : Machine} {i : Instruction} (h : m.execute i = .ok after) :
    after.keypad.down = m.keypad.down := by
  by_cases hi : ∃ x, i = .awaitKey x
  · obtain ⟨x, hx⟩ := hi
    rw [hx] at h
    cases h
    rfl
  · rw [keypad_execute (fun x hx ↦ hi ⟨x, hx⟩) h]

theorem undisturbed_step (m : Machine) : Undisturbed m m.step.1 := by
  have hs := stepped m
  generalize m.step = r at hs
  cases hs with
  | suspended | unfetched => exact .refl m
  | refused hp hw he =>
    refine ⟨rfl, fun x hx ↦ ?_⟩
    rw [hp] at hx
    cases hx
  | done hp hw he =>
    have hdown := down_execute he
    refine ⟨hdown, fun x hx ↦ ?_⟩
    rw [hp] at hx
    cases hx

end Machine

namespace Console

open History Machine

def Move.isOfFrame : Move → Bool
  | .step => true
  | .openFrame => true
  | .closeFrame => true
  | _ => false

theorem isOfFrame_attempt (n : Nat) (c : Console) :
    ∀ a ∈ (attempt n c).1, a.isOfFrame = true := by
  intro a ha
  obtain ⟨e, he, rfl⟩ := (exists_mem_record_iff (s := c)).2 ha
  rw [action_of_isStep (attempted_isStep n c e he)]
  rfl

theorem isOfFrame_frameMoves (c : Console) : ∀ a ∈ c.frameMoves, a.isOfFrame = true := by
  have hattempt := isOfFrame_attempt c.cadence.toNat (c.after .openFrame)
  rw [frameMoves, List.forall_mem_cons]
  refine ⟨rfl, ?_⟩
  cases (attempt c.cadence.toNat (c.after .openFrame)).2 with
  | error fault => exact hattempt
  | ok _ => exact List.forall_mem_append.2 ⟨hattempt, List.forall_mem_singleton.2 rfl⟩

theorem isOfFrame_batch (n : Nat) (c : Console) : ∀ a ∈ (batch n c).1, a.isOfFrame = true := by
  induction n generalizing c with
  | zero => exact fun a ha ↦ absurd ha List.not_mem_nil
  | succ n ih =>
    have hframe := isOfFrame_frameMoves c
    rw [batch]
    cases hr : c.frame.result with
    | error fault =>
      rw [proceed_of_error rfl]
      exact hframe
    | ok _ =>
      rw [proceed_of_ok rfl]
      exact List.forall_mem_append.2 ⟨hframe, ih c.frame.console⟩

theorem undisturbed_after (c : Console) {a : Move} (ha : a.isOfFrame = true) :
    Undisturbed c.machine (c.after a).machine := by
  cases a with
  | step =>
    have hstep := undisturbed_step c.machine
    have hs := struck c
    simp only [after, apply]
    generalize c.step = r at hs
    cases hs with
    | refused hm | suspended hm | counted hm =>
      rw [hm] at hstep
      exact hstep
    | ticked hm =>
      rw [hm] at hstep
      exact ⟨hstep.down, hstep.wait⟩
  | openFrame => exact .refl _
  | closeFrame =>
    simp only [after, apply]
    split
    · exact .refl _
    · exact ⟨rfl, fun _ hx ↦ ⟨hx, rfl⟩⟩
  | load | press | release | alter => cases ha

theorem undisturbed_foldl {moves : List Move} (h : ∀ a ∈ moves, a.isOfFrame = true)
    (c : Console) : Undisturbed c.machine (moves.foldl after c).machine := by
  induction moves generalizing c with
  | nil => exact .refl _
  | cons a moves ih =>
    obtain ⟨hfirst, hrest⟩ := List.forall_mem_cons.1 h
    exact (undisturbed_after c hfirst).trans (ih hrest (c.after a))

theorem keypad_load {c : Console} {program : List UInt8} (h : (c.load program).result = .ok ()) :
    (c.load program).console.machine.keypad = .released := by
  cases hm : c.machine.load program with
  | error fault =>
    rw [load_of_error hm] at h
    cases h
  | ok m =>
    obtain ⟨-, rfl⟩ := load_eq_ok_iff.1 hm
    rw [load_of_ok hm]
    rfl

theorem frames_console (n : Nat) (c : Console) :
    (c.frames n).console = (batch n c).1.foldl after c :=
  congrArg Reply.console (repeated_frame n c [])

end Console

namespace Desktop

open History Machine

theorem KeyMap.key?_codes : ∀ k : Nibble, key? (codes.get k) = some k := by
  decide +kernel

theorem KeyMap.key?_eq_some_iff {code : String} {k : Nibble} :
    key? code = some k ↔ code = codes.get k := by
  constructor
  · intro h
    obtain ⟨i, hi, hk⟩ := Option.map_eq_some_iff.1 h
    rw [← hk]
    exact (Array.finIdxOf?_eq_some_iff.1 hi).1.symm
  · intro h
    rw [h]
    exact key?_codes k

/-- A key event that a session listens to for the keypad key: a press that is no repetition,
or a release, of the physical key that stands for it. -/
def KeyEvent.Moves (k : Nibble) (e : KeyEvent) : Prop :=
  e.logical ≠ .named "Escape" ∧ e.code = KeyMap.codes.get k ∧
    (e.pressed = true → e.repeating = false)

instance (k : Nibble) (e : KeyEvent) : Decidable (e.Moves k) :=
  inferInstanceAs (Decidable (_ ∧ _ ∧ (_ → _)))

def Occurrence.keyEvent? : Occurrence → Option KeyEvent
  | .window (.key e) => some e
  | _ => none

def keyEvents (occurrences : List Occurrence) : List KeyEvent :=
  occurrences.filterMap Occurrence.keyEvent?

def Occurrence.Presses (k : Nibble) (o : Occurrence) : Prop :=
  ∃ e, o = .window (.key e) ∧ e.Moves k ∧ e.pressed = true

def lastMove (k : Nibble) (occurrences : List Occurrence) : Option KeyEvent :=
  ((keyEvents occurrences).filter fun e ↦ e.Moves k).getLast?

theorem lastMove_snoc_of_moves {occurrences : List Occurrence} {e : KeyEvent} {k : Nibble}
    (h : e.Moves k) : lastMove k (occurrences ++ [.window (.key e)]) = some e := by
  simp [lastMove, keyEvents, Occurrence.keyEvent?, h]

theorem lastMove_snoc_of_not_moves {occurrences : List Occurrence} {o : Occurrence} {k : Nibble}
    (h : ∀ e, o = .window (.key e) → ¬ e.Moves k) :
    lastMove k (occurrences ++ [o]) = lastMove k occurrences := by
  have hnone : ([o].filterMap Occurrence.keyEvent?).filter (fun e ↦ e.Moves k) = [] := by
    rw [List.filter_eq_nil_iff]
    intro e he
    obtain ⟨last, hlast, hkey⟩ := List.mem_filterMap.1 he
    cases List.mem_singleton.1 hlast
    unfold Occurrence.keyEvent? at hkey
    split at hkey
    · cases hkey
      simpa using h e rfl
    · cases hkey
  rw [lastMove, keyEvents, List.filterMap_append, List.filter_append, hnone, List.append_nil]
  rfl

namespace Session

variable {s : Session} {e : KeyEvent} {k : Nibble}

theorem meet_of_moves (h : e.Moves k) :
    (s.meet (.window (.key e))).session =
      { s with console := if e.pressed then s.console.press k else s.console.release k } := by
  obtain ⟨hlogical, hcode, hrepeating⟩ := h
  have hkey : KeyMap.key? e.code = some k := KeyMap.key?_eq_some_iff.2 hcode
  simp only [meet, handle, if_neg hlogical, Reaction.quiet, type, hkey]
  cases hpressed : e.pressed with
  | true => simp [hrepeating hpressed]
  | false => rfl

theorem meet_of_not_moves (h : ∀ k, ¬ e.Moves k) : (s.meet (.window (.key e))).session = s := by
  simp only [meet, handle]
  split
  · rfl
  · rename_i hlogical
    unfold Reaction.quiet type
    split
    · rfl
    · rename_i key hkey
      have hmoves (hr : e.pressed = true → e.repeating = false) : e.Moves key :=
        ⟨hlogical, KeyMap.key?_eq_some_iff.1 hkey, hr⟩
      split
      · split
        · rfl
        · rename_i hrepeating
          exact absurd (hmoves fun _ ↦ Bool.eq_false_iff.2 hrepeating) (h key)
      · rename_i hpressed
        exact absurd (hmoves fun h ↦ absurd h hpressed) (h key)

theorem undisturbed_meet {o : Occurrence} (h : ∀ e, o = .window (.key e) → ∀ k, ¬ e.Moves k) :
    Undisturbed s.console.machine (s.meet o).session.console.machine := by
  cases o with
  | surface surface => exact .refl _
  | window event =>
    cases event with
    | closeRequested | other => exact .refl _
    | redraw framesDue =>
      have hconsole : (s.meet (.window (.redraw framesDue))).session.console = _ :=
        (redraw_plays s framesDue).1.trans (Console.frames_console framesDue s.console)
      rw [hconsole]
      exact Console.undisturbed_foldl (Console.isOfFrame_batch framesDue s.console) s.console
    | resized width height =>
      simp only [meet, handle, resize]
      split <;> exact .refl _
    | key e =>
      rw [meet_of_not_moves (h e rfl)]
      exact .refl _

theorem machine_meet_of_moves (h : e.Moves k) :
    (s.meet (.window (.key e))).session.console.machine =
      if e.pressed then s.console.machine.press k else s.console.machine.release k := by
  rw [meet_of_moves h]
  cases e.pressed <;> rfl

theorem isDown_meet_of_moves (h : e.Moves k) :
    (s.meet (.window (.key e))).session.console.machine.keypad.isDown k = e.pressed := by
  rw [machine_meet_of_moves h]
  cases e.pressed with
  | true => rw [if_pos rfl, press_eq, Keypad.isDown_press, decide_eq_true rfl, Bool.true_or]
  | false => simp [release, Keypad.isDown_release]

theorem isDown_meet_of_not_moves {o : Occurrence}
    (h : ∀ e, o = .window (.key e) → ¬ e.Moves k) :
    (s.meet o).session.console.machine.keypad.isDown k = s.console.machine.keypad.isDown k := by
  by_cases hmoves : ∃ e j, o = .window (.key e) ∧ e.Moves j
  · obtain ⟨e, j, rfl, hj⟩ := hmoves
    have hne : j ≠ k := fun hjk ↦ h e rfl (hjk ▸ hj)
    rw [machine_meet_of_moves hj]
    cases e.pressed with
    | true => rw [if_pos rfl, press_eq, Keypad.isDown_press, decide_eq_false hne, Bool.false_or]
    | false => simp [release, Keypad.isDown_release, hne]
  · have hstill : Undisturbed s.console.machine (s.meet o).session.console.machine :=
      undisturbed_meet fun e ho j hj ↦ hmoves ⟨e, j, ho, hj⟩
    rw [Keypad.isDown, Keypad.isDown, hstill.down]

theorem isDown_run (s : Session) (k : Nibble) (occurrences : List Occurrence) :
    (s.run occurrences).console.machine.keypad.isDown k =
      ((lastMove k occurrences).map KeyEvent.pressed).getD
        (s.console.machine.keypad.isDown k) := by
  refine run_induction (motive := fun occurrences (t : Session) _ ↦
    t.console.machine.keypad.isDown k =
      ((lastMove k occurrences).map KeyEvent.pressed).getD (s.console.machine.keypad.isDown k)) rfl
    (fun occurrences t _ o ih ↦ ?_) occurrences
  by_cases hmoves : ∃ e, o = .window (.key e) ∧ e.Moves k
  · obtain ⟨e, rfl, he⟩ := hmoves
    rw [isDown_meet_of_moves he, lastMove_snoc_of_moves he]
    rfl
  · have hstill : ∀ e, o = .window (.key e) → ¬ e.Moves k := fun e ho he ↦ hmoves ⟨e, ho, he⟩
    rw [isDown_meet_of_not_moves hstill, lastMove_snoc_of_not_moves hstill, ih]

theorem wait_meet {x : Nibble} {o : Occurrence} (hx : s.console.machine.keypad.pending = some x)
    (h : ∀ k, ¬ o.Presses k) :
    (s.meet o).session.console.machine.keypad.pending = some x ∧
      (s.meet o).session.console.machine.registers = s.console.machine.registers := by
  by_cases hmoves : ∃ e j, o = .window (.key e) ∧ e.Moves j
  · obtain ⟨e, j, rfl, hj⟩ := hmoves
    have hreleased : e.pressed ≠ true := fun hp ↦ h j ⟨e, rfl, hj, hp⟩
    rw [machine_meet_of_moves hj, if_neg hreleased]
    exact ⟨hx, rfl⟩
  · exact (undisturbed_meet fun e ho j hj ↦ hmoves ⟨e, j, ho, hj⟩).wait x hx

theorem wait_run {x : Nibble} {occurrences : List Occurrence}
    (hx : s.console.machine.keypad.pending = some x)
    (h : ∀ o ∈ occurrences, ∀ k, ¬ o.Presses k) :
    (s.run occurrences).console.machine.keypad.pending = some x ∧
      (s.run occurrences).console.machine.registers = s.console.machine.registers := by
  induction occurrences generalizing s with
  | nil => exact ⟨hx, rfl⟩
  | cons o occurrences ih =>
    obtain ⟨hfirst, hrest⟩ := List.forall_mem_cons.1 h
    obtain ⟨hpending, hregisters⟩ := wait_meet hx hfirst
    obtain ⟨hpending', hregisters'⟩ := ih hpending hrest
    exact ⟨hpending', hregisters'.trans hregisters⟩

theorem keypad_start {options : PlayOptions} {entropy : UInt64} {speaker : Bool}
    {program : List UInt8} {calls : List SpeakerCall}
    (h : start options entropy speaker program = (.ok s, calls)) :
    s.console.machine.keypad = .released := by
  cases speaker with
  | false => cases h
  | true =>
    simp only [start, if_true] at h
    split at h
    · cases h
    · rename_i hloaded
      cases h
      exact Console.keypad_load hloaded

end Session

/-- The keyboard law: a keypad key is down exactly when the last key event that moved it was a
press. A wait goes on, with no register written, until a press that counts, and that press
writes the index of its key. Every other key event does nothing, but for a release, which
lifts its own key, and nothing within a redraw moves a key or ends a wait. -/
theorem keyboard_law {options : PlayOptions} {entropy : UInt64} {speaker : Bool}
    {program : List UInt8} {session : Session} {calls : List SpeakerCall}
    (h : Session.start options entropy speaker program = (.ok session, calls))
    (occurrences : List Occurrence) :
    let s := session.run occurrences
    let m := s.console.machine
    (∀ k, m.keypad.isDown k = true ↔
      ∃ e, lastMove k occurrences = some e ∧ e.pressed = true) ∧
    (∀ x, m.keypad.pending = some x →
      (∀ (o : Occurrence) (k : Nibble), o.Presses k →
        (s.meet o).session.console.machine =
          { m with
            registers := m.registers.set x k.toByte x.lt_sixteen
            keypad := { down := m.keypad.down.set k true k.lt_sixteen, pending := none } }) ∧
      ∀ more, (∀ o ∈ more, ∀ k, ¬ o.Presses k) →
        (s.run more).console.machine.keypad.pending = some x ∧
          (s.run more).console.machine.registers = m.registers) ∧
    (∀ e : KeyEvent,
      (e.logical = .named "Escape" ∨ (∀ k : Nibble, e.code ≠ KeyMap.codes.get k) ∨
        (e.pressed = true ∧ e.repeating = true)) →
      (s.meet (.window (.key e))).session = s) ∧
    (∀ (e : KeyEvent) (k : Nibble),
      e.logical ≠ .named "Escape" → e.code = KeyMap.codes.get k → e.pressed = false →
      (s.meet (.window (.key e))).session.console.machine =
        { m with
          keypad := { m.keypad with down := m.keypad.down.set k false k.lt_sixteen } }) ∧
    ∀ framesDue,
      let made := record Console.after s.console (Console.batch framesDue s.console).1
      (s.redraw framesDue).session.console = (made.map Event.action).foldl Console.after s.console ∧
      ∀ e ∈ made, Undisturbed e.before.machine (e.before.after e.action).machine := by
  intro s m
  refine ⟨fun k ↦ ?_, fun x hx ↦ ⟨fun o k ho ↦ ?_, fun more hmore ↦ ?_⟩, fun e he ↦ ?_, ?_, ?_⟩
  · have hdown := Session.isDown_run session k occurrences
    have hup : session.console.machine.keypad.isDown k = false := by
      rw [Session.keypad_start h, Keypad.isDown, Keypad.released]
      exact Vector.getElem_replicate ..
    rw [hup] at hdown
    rw [hdown]
    cases lastMove k occurrences <;> simp
  · obtain ⟨e, rfl, he, hpressed⟩ := ho
    rw [Session.machine_meet_of_moves he, if_pos hpressed]
    exact press_of_pending hx k
  · exact Session.wait_run hx hmore
  · apply Session.meet_of_not_moves
    intro k hk
    obtain ⟨hlogical, hcode, hrepeating⟩ := hk
    rcases he with he | he | ⟨hpressed, he⟩
    · exact hlogical he
    · exact he k hcode
    · rw [hrepeating hpressed] at he
      cases he
  · intro e k hlogical hcode hreleased
    have hmoves : e.Moves k :=
      ⟨hlogical, hcode, fun hpressed ↦ absurd (hreleased.symm.trans hpressed) Bool.false_ne_true⟩
    rw [Session.machine_meet_of_moves hmoves, hreleased]
    rfl
  · intro framesDue made
    refine ⟨?_, fun e he ↦ ?_⟩
    · rw [(Session.redraw_plays s framesDue).1, Console.frames_console]
      exact congrArg (List.foldl _ s.console) (map_action_record s.console _).symm
    · apply Console.undisturbed_after
      exact Console.isOfFrame_batch framesDue s.console _ (exists_mem_record_iff.1 ⟨e, he, rfl⟩)

/-- A program waits for a key, and neither a repetition nor Escape nor a release answers. -/
theorem keyboard_law_wait :
    let options : PlayOptions := ⟨"", 2, some 0⟩
    let program : List UInt8 := [0xF3, 0x0A, 0x12, 0x02]
    let answer : KeyEvent := ⟨"Digit4", true, false, .character "4"⟩
    let idle : List Occurrence := [.window (.redraw 1),
      .window (.key { answer with repeating := true }),
      .window (.key { answer with logical := .named "Escape" }),
      .window (.key { answer with pressed := false })]
    ∃ session calls, Session.start options 0 true program = (.ok session, calls) ∧
      (session.run idle).console.machine.keypad.pending = some 3 ∧
      ((session.run idle).meet (.window (.key answer))).session.console.machine.registers[3] = 12 ∧
      (session.run idle).console.machine.keypad.isDown 12 = false := by
  intro options program answer idle
  let loaded := (((Console.ofMachine (.ofSeed 0)).withCadence 2).load program).console
  have hstart : Session.start options 0 true program =
      (.ok ⟨loaded, none, []⟩, Session.speakerSetup) := rfl
  obtain ⟨hdown, hwait, -⟩ := keyboard_law hstart idle
  have hpending :
      (Session.run ⟨loaded, none, []⟩ idle).console.machine.keypad.pending = some 3 := by
    decide +kernel
  have hanswer : Occurrence.Presses 12 (.window (.key answer)) := ⟨_, rfl, by decide +kernel, rfl⟩
  have hanswered := (hwait 3 hpending).1 (.window (.key answer)) 12 hanswer
  refine ⟨_, _, hstart, hpending, ?_, ?_⟩
  · rw [hanswered]
    exact Vector.getElem_set_self ..
  · rw [Bool.eq_false_iff, Ne, hdown 12]
    intro hpressed
    obtain ⟨e, he, hp⟩ := hpressed
    have hlast : lastMove 12 idle = some { answer with pressed := false } := by
      decide +kernel
    rw [hlast] at he
    cases he
    cases hp

end Desktop

end Phosphor
