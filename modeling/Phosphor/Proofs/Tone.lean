import Phosphor.Proofs.Cadence
import Phosphor.Proofs.Replies

namespace Phosphor

def tones (cues : List Cue) : List Cue := cues.filter fun cue ↦ !cue.isPresent

def Cue.switchTo (on : Bool) : Cue := if on then .startTone else .stopTone

/-- Cues that take a tone from one state to another: it is started only when it is off
and stopped only when it is on. -/
inductive Switches : Bool → List Cue → Bool → Prop
  | nil {on : Bool} : Switches on [] on
  | start {on : Bool} {cues : List Cue} :
      Switches true cues on → Switches false (.startTone :: cues) on
  | stop {on : Bool} {cues : List Cue} :
      Switches false cues on → Switches true (.stopTone :: cues) on
  | present {first last : Bool} {picture : List GlowCell} {cues : List Cue} :
      Switches first cues last → Switches first (.present picture :: cues) last

namespace Switches

variable {first last : Bool} {cues : List Cue}

theorem append {middle : Bool} {more : List Cue} (h : Switches first cues middle)
    (h' : Switches middle more last) : Switches first (cues ++ more) last := by
  induction h with
  | nil => exact h'
  | start _ ih => exact .start (ih h')
  | stop _ ih => exact .stop (ih h')
  | present _ ih => exact .present (ih h')

theorem getElem?_tones (h : Switches first cues last) {k : Nat} {cue : Cue}
    (hk : (tones cues)[k]? = some cue) :
    cue = .switchTo (decide ((k + first.toNat) % 2 = 0)) := by
  induction h generalizing k with
  | nil => cases hk
  | present _ ih => exact ih hk
  | start _ ih =>
    cases k with
    | zero => exact (Option.some.inj hk).symm
    | succ k => exact ih hk
  | stop _ ih =>
    cases k with
    | zero => exact (Option.some.inj hk).symm
    | succ k =>
      have hmod : (k + 1 + 1) % 2 = k % 2 := Nat.add_mod_right k 2
      have hcue := ih hk
      rwa [Bool.toNat_false, Nat.add_zero, ← hmod] at hcue

theorem last_eq (h : Switches first cues last) :
    last = decide ((tones cues).getLast?.getD (.switchTo first) = .startTone) := by
  induction h with
  | @nil on => cases on <;> rfl
  | present _ ih => exact ih
  | start _ ih | stop _ ih =>
    refine ih.trans ?_
    simp only [tones, List.filter_cons, Cue.isPresent, Bool.not_false, if_true]
    rw [List.getLast?_cons]
    rfl

end Switches

namespace Console

open History

theorem switches_toneCue (playing sounding : Bool) :
    Switches playing (toneCue playing sounding) sounding := by
  cases playing <;> cases sounding
  · exact .nil
  · exact .start .nil
  · exact .stop .nil
  · exact .nil

theorem switches_tick (c : Console) : Switches c.toneOn c.tick.2 c.tick.1.toneOn :=
  (switches_toneCue c.toneOn c.machine.sounding).append (.present .nil)

theorem switches_load (c : Console) (program : List UInt8) :
    Switches c.toneOn (c.load program).cues (c.load program).console.toneOn := by
  cases h : c.machine.load program with
  | error fault =>
    rw [load_of_error h]
    exact .nil
  | ok m =>
    rw [load_of_ok h]
    exact switches_toneCue c.toneOn false

theorem switches_step (c : Console) : Switches c.toneOn c.step.cues c.step.console.toneOn := by
  have hs := struck c
  generalize c.step = r at hs
  cases hs with
  | refused | suspended | counted => exact .nil
  | @ticked next => exact switches_tick { c with machine := next, cycles := 0 }

theorem switches_apply (c : Console) (a : Move) :
    Switches c.toneOn (c.apply a).2 (c.after a).toneOn := by
  cases a with
  | load program => exact switches_load c program
  | step => exact switches_step c
  | closeFrame =>
    simp only [after, apply]
    split
    · exact .nil
    · exact .present .nil
  | openFrame | press | release | alter => exact .nil

theorem switches_moves (c : Console) (acts : List Move) :
    Switches c.toneOn ((record after c acts).flatMap cues) (acts.foldl after c).toneOn := by
  induction acts generalizing c with
  | nil => exact .nil
  | cons a acts ih => exact (switches_apply c a).append (ih (c.after a))

theorem switches_frame (c : Console) : Switches c.toneOn c.frame.cues c.frame.console.toneOn := by
  rw [frame_eq_moves]
  exact switches_moves c c.frameMoves

theorem switches_run (c : Console) (requests : List Request) :
    Switches c.toneOn ((c.replies requests).flatMap Reply.cues) (c.run requests).toneOn := by
  rw [cues_replies, run_eq_moves]
  exact switches_moves c (c.allMoves requests)

theorem switches_repeated {α : Type} {operation : Console → Reply (Except Fault α)}
    (h : ∀ c, Switches c.toneOn (operation c).cues (operation c).console.toneOn) {first : Bool}
    (n : Nat) {c : Console} {given : List Cue} (hg : Switches first given c.toneOn) :
    Switches first (repeated operation n c given).cues
      (repeated operation n c given).console.toneOn := by
  induction n generalizing c given with
  | zero => exact hg
  | succ n ih =>
    have hc := hg.append (h c)
    rw [repeated]
    generalize operation c = r at hc
    obtain ⟨next, more, result⟩ := r
    cases result with
    | error fault => exact hc
    | ok a => exact ih hc

theorem switches_frames (n : Nat) (c : Console) :
    Switches c.toneOn (c.frames n).cues (c.frames n).console.toneOn :=
  switches_repeated switches_frame n .nil

theorem toneOn_after (e : Event Console Move) :
    (ticks e ≠ 0 →
      e.before.apply e.action = tick { e.before with machine := own e, cycles := 0 } ∧
        (after e.before e.action).toneOn = decide (0 < (own e).soundTimer)) ∧
    (restarts e = true → (after e.before e.action).toneOn = false) ∧
    (ticks e = 0 → restarts e = false →
      tones (cues e) = [] ∧ (after e.before e.action).toneOn = e.before.toneOn) := by
  obtain ⟨c, action⟩ := e
  cases action with
  | step =>
    refine ⟨fun ht ↦ ?_, nofun, fun ht _ ↦ ?_⟩
    · have hstep := apply_step c
      rw [if_neg ht] at hstep
      refine ⟨hstep, ?_⟩
      simp only [after, hstep]
      rfl
    · have hstep := apply_step c
      rw [if_pos ht] at hstep
      simp only [cues, after, hstep]
      exact ⟨rfl, trivial⟩
  | load program =>
    refine ⟨fun ht ↦ absurd rfl ht, fun hr ↦ ?_, fun _ hr ↦ ?_⟩
    · cases h : c.machine.load program with
      | error fault =>
        simp only [restarts, load_of_error h] at hr
        cases hr
      | ok m => simp only [after, apply, load_of_ok h]
    · cases h : c.machine.load program with
      | error fault =>
        simp only [cues, after, apply, load_of_error h]
        exact ⟨rfl, trivial⟩
      | ok m =>
        simp only [restarts, load_of_ok h] at hr
        cases hr
  | closeFrame =>
    refine ⟨fun ht ↦ absurd rfl ht, fun hr ↦ absurd hr Bool.false_ne_true, fun _ _ ↦ ?_⟩
    simp only [cues, after, apply]
    split <;> exact ⟨rfl, rfl⟩
  | openFrame | press | release | alter =>
    exact ⟨fun ht ↦ absurd rfl ht, fun hr ↦ absurd hr Bool.false_ne_true, fun _ _ ↦ ⟨rfl, rfl⟩⟩

end Console

end Phosphor
