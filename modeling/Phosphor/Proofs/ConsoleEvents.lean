import Phosphor.Proofs.ConsoleRun

namespace Phosphor.Console

def isStep (e : Event Console Move) : Bool :=
  match e.action with
  | .step => true
  | _ => false

theorem action_of_isStep {e : Event Console Move} (h : isStep e = true) : e.action = .step := by
  unfold isStep at h
  split at h
  · assumption
  · cases h

/-- Whether an event is a step that executed a word, known or not. -/
def counts (e : Event Console Move) : Bool :=
  match e.action, e.before.step.result with
  | .step, .ok .executed => true
  | .step, .ok (.unknown _) => true
  | _, _ => false

/-- How often an event ticked. A step shows one picture for each of its ticks. -/
def ticks (e : Event Console Move) : Nat :=
  match e.action with
  | .step => e.before.step.cues.countP Cue.isPresent
  | _ => 0

/-- The machine as an event would leave it if the console added nothing. -/
def own (e : Event Console Move) : Machine :=
  match e.action with
  | .load program => (e.before.machine.load program).toOption.getD e.before.machine
  | .step => e.before.machine.step.1
  | .openFrame => e.before.machine
  | .closeFrame => e.before.machine
  | .press key => e.before.machine.press key
  | .release key => e.before.machine.release key
  | .alter change => change e.before.machine

theorem toNat_countDown (timer : UInt8) : (countDown timer).toNat = timer.toNat - 1 := by
  unfold countDown
  split
  · rename_i h
    rw [h]
    rfl
  · rename_i h
    have h1 : (1 : UInt8) ≤ timer := by
      rw [UInt8.le_iff_toNat_le]
      have h0 : timer.toNat ≠ 0 := fun h0 ↦ h (UInt8.toNat_inj.1 h0)
      exact Nat.one_le_iff_ne_zero.2 h0
    exact UInt8.toNat_sub_of_le _ _ h1

theorem load_of_error {c : Console} {program : List UInt8} {fault : Fault}
    (h : c.machine.load program = .error fault) : c.load program = ⟨c, [], .error fault⟩ := by
  simp only [load, h]

theorem load_of_ok {c : Console} {program : List UInt8} {m : Machine}
    (h : c.machine.load program = .ok m) :
    c.load program =
      ⟨{ c with machine := m, cycles := 0, toneOn := false }, toneCue c.toneOn false, .ok ()⟩ := by
  simp only [load, h]

theorem countP_toneCue (playing sounding : Bool) :
    (toneCue playing sounding).countP Cue.isPresent = 0 := by
  cases playing <;> cases sounding <;> rfl

theorem countP_tick (c : Console) : c.tick.2.countP Cue.isPresent = 1 := by
  simp only [tick, List.countP_append, countP_toneCue]
  rfl

inductive Struck (c : Console) : Reply (Except Fault Outcome) → Prop
  | refused {next : Machine} {fault : Fault} :
      c.machine.step = (next, .error fault) →
      Struck c ⟨{ c with machine := next }, [], .error fault⟩
  | suspended {next : Machine} :
      c.machine.step = (next, .ok .suspended) →
      Struck c ⟨{ c with machine := next }, [], .ok .suspended⟩
  | counted {next : Machine} {outcome : Outcome} :
      c.machine.step = (next, .ok outcome) → outcome.consumes = true →
      c.cycles + 1 ≠ c.cadence →
      Struck c ⟨{ c with machine := next, cycles := c.cycles + 1 }, [], .ok outcome⟩
  | ticked {next : Machine} {outcome : Outcome} :
      c.machine.step = (next, .ok outcome) → outcome.consumes = true →
      c.cycles + 1 = c.cadence →
      Struck c ⟨(tick { c with machine := next, cycles := 0 }).1,
        (tick { c with machine := next, cycles := 0 }).2, .ok outcome⟩

theorem struck (c : Console) : Struck c c.step := by
  unfold step
  split
  · rename_i next fault h
    exact .refused h
  · rename_i next outcome h
    split
    · rename_i ho
      unfold count
      split
      · rename_i hc
        exact .ticked h ho hc
      · rename_i hc
        exact .counted h ho hc
    · rename_i ho
      cases outcome with
      | suspended => exact .suspended h
      | _ => exact absurd rfl ho

theorem result_step (c : Console) : c.step.result = c.machine.step.2 := by
  have hs := struck c
  generalize c.step = r at hs
  cases hs with
  | refused hm | suspended hm | counted hm | ticked hm => rw [hm]

theorem counts_of_ok {c : Console} {outcome : Outcome}
    (h : c.step.result = .ok outcome) : counts ⟨c, .step⟩ = outcome.consumes := by
  cases outcome <;> simp only [counts, h] <;> rfl

theorem apply_step (c : Console) :
    c.apply .step =
      if ticks ⟨c, .step⟩ = 0 then
        ({ c with machine := c.machine.step.1,
                  cycles := c.cycles + if counts ⟨c, .step⟩ then 1 else 0 }, [])
      else tick { c with machine := c.machine.step.1, cycles := 0 } := by
  have hs := struck c
  have ho (outcome : Outcome) (h : c.step.result = .ok outcome) :
      counts ⟨c, .step⟩ = outcome.consumes := counts_of_ok h
  have he (fault : Fault) (h : c.step.result = .error fault) : counts ⟨c, .step⟩ = false := by
    simp only [counts, h]
  have ht : ticks ⟨c, .step⟩ = c.step.cues.countP Cue.isPresent := rfl
  generalize counts ⟨c, .step⟩ = n at ho he
  generalize ticks ⟨c, .step⟩ = t at ht
  unfold apply
  generalize c.step = r at hs ho he ht
  cases hs with
  | refused hm => simp [hm, ht, he _ rfl]
  | suspended hm => simp [hm, ht, ho _ rfl, Outcome.consumes]
  | counted hm hc hk => simp [hm, ht, ho _ rfl, hc]
  | ticked hm hc hk => simp [hm, ht, countP_tick]

theorem counts_of_isOk {e : Event Console Move} (hs : isStep e = true)
    (ho : e.before.step.result.isOk = true) (hn : e.before.step.result ≠ .ok .suspended) :
    counts e = true := by
  obtain ⟨c, action⟩ := e
  obtain rfl : action = .step := action_of_isStep hs
  cases hr : c.step.result with
  | error fault =>
    simp only [hr] at ho
    cases ho
  | ok outcome =>
    rw [counts_of_ok hr]
    cases outcome with
    | suspended => exact absurd hr hn
    | _ => rfl

theorem ticks_of_error {c : Console} {fault : Fault} (h : c.step.result = .error fault) :
    ticks ⟨c, .step⟩ = 0 := by
  have hs := struck c
  simp only [ticks]
  generalize c.step = r at hs h
  cases hs with
  | refused hm => rfl
  | suspended hm => rfl
  | counted hm ho hc => rfl
  | ticked hm ho hc => cases h

theorem presented_step (c : Console) :
    c.step.console.presented = true ↔ c.presented = true ∨ ticks ⟨c, .step⟩ ≠ 0 := by
  have hs := struck c
  simp only [ticks]
  generalize c.step = r at hs
  cases hs with
  | refused hm => simp
  | suspended hm => simp
  | counted hm ho hc => simp
  | ticked hm ho hc =>
    simp only [countP_tick, ne_eq, Nat.one_ne_zero, not_false_eq_true, or_true, iff_true]
    rfl

theorem timers_after (e : Event Console Move) :
    (after e.before e.action).machine.delayTimer.toNat = (own e).delayTimer.toNat - ticks e ∧
      (after e.before e.action).machine.soundTimer.toNat =
        (own e).soundTimer.toNat - ticks e := by
  obtain ⟨c, action⟩ := e
  cases action with
  | step =>
    have hs := struck c
    simp only [after, apply, own, ticks]
    generalize c.step = r at hs
    cases hs with
    | refused hm => simp only [hm, List.countP_nil, Nat.sub_zero, and_self]
    | suspended hm => simp only [hm, List.countP_nil, Nat.sub_zero, and_self]
    | counted hm ho hc => simp only [hm, List.countP_nil, Nat.sub_zero, and_self]
    | ticked hm ho hc =>
      simp only [hm, countP_tick]
      exact ⟨toNat_countDown _, toNat_countDown _⟩
  | load program =>
    simp only [after, apply, own, ticks, load]
    cases c.machine.load program <;> exact ⟨rfl, rfl⟩
  | closeFrame =>
    simp only [after, apply, own, ticks]
    split <;> exact ⟨rfl, rfl⟩
  | _ => exact ⟨rfl, rfl⟩

end Phosphor.Console
