import Phosphor.Proofs.LiveCadence
import Phosphor.Proofs.MachineRun

namespace Phosphor.Console

/-- The consoles differ in nothing but the mark that a picture was shown. -/
def Alike (c d : Console) : Prop := d = { c with presented := d.presented }

def SameReply (a b : Reply Answer) : Prop :=
  a.result = b.result ∧ a.cues = b.cues ∧ a.console.machine = b.console.machine ∧
    a.console.toneOn = b.console.toneOn ∧ a.console.cadence = b.console.cadence

variable {c d : Console}

theorem Alike.sameReply {a b : Reply Answer} (h : Alike a.console b.console)
    (hr : a.result = b.result) (hc : a.cues = b.cues) : SameReply a b := by
  rw [Alike] at h
  refine ⟨hr, hc, ?_, ?_, ?_⟩
  · rw [h]
  · rw [h]
  · rw [h]

theorem alike_step (c : Console) (mark : Bool) :
    { c with presented := mark }.step.result = c.step.result ∧
      { c with presented := mark }.step.cues = c.step.cues ∧
      Alike c.step.console { c with presented := mark }.step.console := by
  unfold step
  dsimp only
  split
  · exact ⟨rfl, rfl, rfl⟩
  · split
    · unfold count
      dsimp only
      split <;> exact ⟨rfl, rfl, rfl⟩
    · exact ⟨rfl, rfl, rfl⟩

theorem alike_load (c : Console) (mark : Bool) (program : List UInt8) :
    ({ c with presented := mark }.load program).result = (c.load program).result ∧
      ({ c with presented := mark }.load program).cues = (c.load program).cues ∧
      Alike (c.load program).console ({ c with presented := mark }.load program).console := by
  unfold load
  dsimp only
  split <;> exact ⟨rfl, rfl, rfl⟩

theorem frame_alike (c : Console) (mark : Bool) : { c with presented := mark }.frame = c.frame :=
  rfl

theorem alike_serve (c d : Console) (r : Request) (h : Alike c d) :
    SameReply (c.serve r) (d.serve r) ∧ Alike (c.serve r).console (d.serve r).console := by
  rw [h]
  generalize d.presented = mark
  have hreply : (c.serve r).result = ({ c with presented := mark }.serve r).result ∧
      (c.serve r).cues = ({ c with presented := mark }.serve r).cues ∧
      Alike (c.serve r).console ({ c with presented := mark }.serve r).console := by
    cases r with
    | load program =>
      obtain ⟨hr, hc, ha⟩ := alike_load c mark program
      exact ⟨congrArg Answer.loaded hr.symm, hc.symm, ha⟩
    | step =>
      obtain ⟨hr, hc, ha⟩ := alike_step c mark
      exact ⟨congrArg Answer.stepped hr.symm, hc.symm, ha⟩
    | frame =>
      simp only [serve, frame_alike]
      exact ⟨trivial, trivial, rfl⟩
    | press | release | alter => exact ⟨rfl, rfl, rfl⟩
  obtain ⟨hr, hc, ha⟩ := hreply
  exact ⟨ha.sameReply hr hc, ha⟩

theorem cadence_withCadence (h : 0 < c.cadence.toNat) (m : Machine) :
    ((ofMachine m).withCadence c.cadence).cadence = c.cadence := by
  apply UInt32.toNat_inj.1
  rw [toNat_cadence]
  exact Nat.max_eq_left h

theorem alike_loaded {program : List UInt8} {loaded : Machine}
    (hc : c.machine.load program = .ok loaded) (hd : d.machine.load program = .ok loaded)
    (h : d.cadence = c.cadence) : Alike (c.load program).console (d.load program).console := by
  rw [load_of_ok hc, load_of_ok hd, Alike, h]

/-- A reload is as good as a new console. A program that fits silences the tone, and after it
no request can tell the console from a new one of the same cadence whose machine draws the
same random bytes. A program that does not fit leaves everything as it was. -/
theorem reload_as_new (m other : Machine) (f : UInt32) (past : List Order)
    (program : List UInt8) :
    let c := past.foldl obey ((ofMachine m).withCadence f)
    let d := (ofMachine { other with random := c.machine.random }).withCadence c.cadence
    d.cadence = c.cadence ∧
    (program.length ≤ 3584 →
      (c.load program).result = .ok () ∧ (d.load program).result = .ok () ∧
      (c.load program).cues = (if c.toneOn then [.stopTone] else []) ∧
      (c.load program).console.machine = (d.load program).console.machine ∧
      ∀ requests,
        List.Forall₂ SameReply ((c.load program).console.replies requests)
          ((d.load program).console.replies requests)) ∧
    (3584 < program.length →
      c.load program = ⟨c, [], .error (.programTooLarge ⟨program.length, 3584⟩)⟩) := by
  intro c d
  have hpos : 0 < c.cadence.toNat := (inTime_of_not_lingers (inTime_new m f) past).1
  have hcadence : d.cadence = c.cadence := cadence_withCadence hpos _
  refine ⟨hcadence, fun hfits ↦ ?_, fun hlong ↦ ?_⟩
  · have hc := Machine.load_of_fits hfits c.machine
    have hd : d.machine.load program = .ok (.fresh program c.machine.random) :=
      Machine.load_of_fits hfits d.machine
    refine ⟨?_, ?_, ?_, ?_, fun requests ↦ ?_⟩
    · rw [load_of_ok hc]
    · rw [load_of_ok hd]
    · rw [load_of_ok hc]
      cases c.toneOn <;> rfl
    · rw [load_of_ok hc, load_of_ok hd]
    · exact forall₂_replies (fun c d r h _ ↦ alike_serve c d r h) (alike_loaded hc hd hcadence)
        (fun _ _ ↦ trivial)
  · exact load_of_error (Machine.load_of_long hlong c.machine)

end Phosphor.Console
