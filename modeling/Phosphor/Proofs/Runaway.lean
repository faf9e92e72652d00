import Phosphor.Proofs.KeyWait
import Phosphor.Proofs.LiveCadence

namespace Phosphor.Console

def Runaway (c : Console) : Prop :=
  c.machine.keypad.pending = none ∧ 0xFFE < c.machine.pc.toNat

def Request.isDrive : Request → Bool
  | .step | .frame | .press _ | .release _ => true
  | .load _ | .alter _ => false

def keyed (keypad : Keypad) : Request → Keypad
  | .press key => (keypad.press key).1
  | .release key => keypad.release key
  | _ => keypad

/-- The second console is the first with another keypad, and perhaps without the mark that a
picture was shown. -/
def Rekeyed (keypad : Keypad) (c d : Console) : Prop :=
  d = { c with machine := { c.machine with keypad := keypad }, presented := d.presented }

variable {c : Console}

theorem pending_keyed {keypad : Keypad} (h : keypad.pending = none) (r : Request) :
    (keyed keypad r).pending = none := by
  cases r with
  | press key => rfl
  | release | load | step | frame | alter => exact h

theorem step_of_runaway (h : c.Runaway) :
    c.step = ⟨c, [], .error (.outOfBounds c.machine.pc.toNat)⟩ := by
  simp only [step, Machine.step_of_unfetched h.1 h.2]

theorem frame_of_runaway (h : c.Runaway) (hpos : 0 < c.cadence.toNat) :
    c.frame = ⟨{ c with presented := false }, [], .error (.outOfBounds c.machine.pc.toNat)⟩ := by
  obtain ⟨n, hn⟩ := Nat.exists_eq_succ_of_ne_zero (Nat.ne_of_gt hpos)
  have hstep : { c with presented := false }.step =
      ⟨{ c with presented := false }, [], .error (.outOfBounds c.machine.pc.toNat)⟩ :=
    step_of_runaway h
  simp only [frame, steps, hn, repeated, hstep, List.append_nil]

theorem serve_of_runaway (h : c.Runaway) (hpos : 0 < c.cadence.toNat) {r : Request}
    (hr : r.isDrive = true) :
    (c.serve r).cues = [] ∧ Rekeyed (keyed c.machine.keypad r) c (c.serve r).console := by
  cases r with
  | step =>
    simp only [serve, step_of_runaway h]
    exact ⟨trivial, rfl⟩
  | frame =>
    simp only [serve, frame_of_runaway h hpos]
    exact ⟨trivial, rfl⟩
  | press key =>
    simp only [serve, press, Machine.press_of_none h.1]
    exact ⟨trivial, rfl⟩
  | release key => exact ⟨rfl, rfl⟩
  | load | alter => cases hr

theorem Rekeyed.runaway {keypad : Keypad} {d : Console} (hd : Rekeyed keypad c d)
    (h : c.Runaway) (hkeypad : keypad.pending = none) : d.Runaway := by
  rw [hd]
  exact ⟨hkeypad, h.2⟩

theorem Rekeyed.trans {first second : Keypad} {d e : Console} (hd : Rekeyed first c d)
    (he : Rekeyed second d e) : Rekeyed second c e := by
  rw [Rekeyed] at hd
  rw [Rekeyed, he, hd]

theorem run_of_runaway (h : c.Runaway) (hpos : 0 < c.cadence.toNat) {requests : List Request}
    (hr : ∀ r ∈ requests, r.isDrive = true) :
    (c.replies requests).flatMap Reply.cues = [] ∧
      (requests.foldl keyed c.machine.keypad).pending = none ∧
      Rekeyed (requests.foldl keyed c.machine.keypad) c (c.run requests) := by
  induction requests generalizing c with
  | nil => exact ⟨rfl, h.1, rfl⟩
  | cons r requests ih =>
    obtain ⟨hfirst, hrest⟩ := List.forall_mem_cons.1 hr
    obtain ⟨hcues, hnext⟩ := serve_of_runaway h hpos hfirst
    have hpending := pending_keyed h.1 r
    have hkeypad : (c.serve r).console.machine.keypad = keyed c.machine.keypad r := by rw [hnext]
    have hcadence : 0 < (c.serve r).console.cadence.toNat := by
      rw [hnext]
      exact hpos
    obtain ⟨hquiet, hlast, hrun⟩ := ih (hnext.runaway h hpending) hcadence hrest
    rw [hkeypad] at hlast hrun
    refine ⟨?_, hlast, hnext.trans hrun⟩
    rw [replies, List.flatMap_cons, hcues, hquiet, List.append_nil]

/-- A program that has run out of memory stays stopped. From then on every step and every
frame fails at that same address, however they and the keys follow one another. No cue is ever
given, and nothing but the keys changes. -/
theorem runaway_stays_stopped (m : Machine) (f : UInt32) (past : List Order) :
    let c := past.foldl obey ((ofMachine m).withCadence f)
    c.machine.keypad.pending = none → 0xFFE < c.machine.pc.toNat →
    ∀ requests : List Request, (∀ r ∈ requests, r.isDrive = true) →
      let d := c.run requests
      let keypad := requests.foldl keyed c.machine.keypad
      (c.replies requests).flatMap Reply.cues = [] ∧
      d.machine = { c.machine with keypad := keypad } ∧ keypad.pending = none ∧
      d.cadence = c.cadence ∧ d.cycles = c.cycles ∧ d.toneOn = c.toneOn ∧
      d.step = ⟨d, [], .error (.outOfBounds c.machine.pc.toNat)⟩ ∧
      d.frame =
        ⟨{ d with presented := false }, [], .error (.outOfBounds c.machine.pc.toNat)⟩ := by
  intro c hpending hpc requests hr d keypad
  have hpos : 0 < c.cadence.toNat := (inTime_of_not_lingers (inTime_new m f) past).1
  have h : c.Runaway := ⟨hpending, hpc⟩
  obtain ⟨hquiet, hkeypad, hrun⟩ := run_of_runaway h hpos hr
  have hd : d = { c with machine := { c.machine with keypad := keypad },
                         presented := d.presented } := hrun
  have hstopped : d.Runaway := hrun.runaway h hkeypad
  have hmachine : d.machine = { c.machine with keypad := keypad } := by rw [hd]
  have hcadence : d.cadence = c.cadence := by rw [hd]
  have haddress : d.machine.pc = c.machine.pc := by rw [hmachine]
  refine ⟨hquiet, hmachine, hkeypad, hcadence, by rw [hd], by rw [hd], ?_, ?_⟩
  · rw [step_of_runaway hstopped, haddress]
  · rw [frame_of_runaway hstopped (hcadence ▸ hpos), haddress]

/-- A jump to the last byte of memory while the tone is on. -/
theorem runaway_stays_stopped_jump :
    let past : List Order :=
      .request (.load [0x60, 0x05, 0xF0, 0x18, 0x1F, 0xFF]) :: List.replicate 3 (.request .step)
    let c := past.foldl obey ((ofMachine (.ofSeed 0)).withCadence 1)
    let requests : List Request := [.frame, .press 3, .step, .release 4]
    c.machine.keypad.pending = none ∧ 0xFFE < c.machine.pc.toNat ∧ c.toneOn = true ∧
      (c.replies requests).flatMap Reply.cues = [] ∧ (c.run requests).toneOn = c.toneOn := by
  intro past c requests
  have hstart : c.machine.keypad.pending = none ∧ 0xFFE < c.machine.pc.toNat ∧ c.toneOn = true := by
    decide +kernel
  obtain ⟨hpending, hpc, htone⟩ := hstart
  have hdrive : ∀ r ∈ requests, r.isDrive = true := by
    simp [requests, Request.isDrive]
  -- with more unfolded, the run itself would be evaluated
  with_reducible
    obtain ⟨hquiet, -, -, -, -, hsame, -⟩ :=
      runaway_stays_stopped (.ofSeed 0) 1 past hpending hpc requests hdrive
    exact ⟨hpending, hpc, htone, hquiet, hsame⟩

end Phosphor.Console
