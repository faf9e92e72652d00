import Phosphor.Proofs.ConsoleEvents
import Phosphor.Proofs.MachineRun
import Phosphor.Proofs.Replies

namespace Phosphor

namespace Machine

structure Agrees (m n : Machine) : Prop where
  memory : m.memory = n.memory
  screen : m.display.screen = n.display.screen
  pc : m.pc = n.pc
  index : m.index = n.index
  registers : m.registers = n.registers
  stack : m.stack = n.stack
  keypad : m.keypad = n.keypad
  random : m.random = n.random

def ReadsDelay (m : Machine) : Prop :=
  ∃ x, m.executedWord? = some (.ofNibbles 0xF x 0x0 0x7)

instance (m : Machine) : Decidable (ReadsDelay m) :=
  inferInstanceAs (Decidable (∃ x : Nibble, m.executedWord? = some (.ofNibbles 0xF x 0x0 0x7)))

/-- A machine without its history, its sound timer and, unless it is to be kept, its delay
timer. -/
def core (keep : Bool) (m : Machine) : Machine :=
  { m with
    delayTimer := if keep then m.delayTimer else 0
    soundTimer := 0
    display := { screen := m.display.screen, history := [], history_length_le := Nat.zero_le _ } }

variable {m n : Machine} {keep : Bool}

theorem agrees_iff : Agrees m n ↔ m.core false = n.core false := by
  constructor
  · intro h
    simp only [core, h.memory, h.screen, h.pc, h.index, h.registers, h.stack, h.keypad, h.random,
      Bool.false_eq_true, if_false]
  · intro h
    simp only [core, Machine.mk.injEq, Framebuffer.mk.injEq] at h
    obtain ⟨memory, ⟨screen, -⟩, pc, index, registers, stack, -, -, keypad, random⟩ := h
    exact ⟨memory, screen, pc, index, registers, stack, keypad, random⟩

theorem delayTimer_of_core (h : m.core true = n.core true) : m.delayTimer = n.delayTimer := by
  have hd : (m.core true).delayTimer = (n.core true).delayTimer := by rw [h]
  exact hd

theorem agrees_of_core_true (h : m.core true = n.core true) : Agrees m n := by
  apply agrees_iff.2
  calc
    m.core false = { m.core true with delayTimer := 0 } := rfl
    _ = { n.core true with delayTimer := 0 } := by rw [h]
    _ = n.core false := rfl

theorem core_true_of_agrees (h : Agrees m n) (hd : m.delayTimer = n.delayTimer) :
    m.core true = n.core true := by
  have hcore := agrees_iff.1 h
  calc
    m.core true = { m.core false with delayTimer := m.delayTimer } := rfl
    _ = { n.core false with delayTimer := n.delayTimer } := by rw [hcore, hd]
    _ = n.core true := rfl

theorem core_core (m : Machine) : (m.core keep).core keep = m.core keep := by
  cases keep <;> rfl

theorem core_skipIf (m : Machine) (condition : Bool) :
    (m.skipIf condition).core keep = ((m.core keep).skipIf condition).core keep := by
  cases condition <;> cases keep <;> rfl

theorem core_calculate (m : Machine) (x y : Nibble) (op : Arithmetic) :
    (m.calculate x y op).core keep = ((m.core keep).calculate x y op).core keep := by
  cases op <;> cases keep <;> rfl

theorem core_execute {i : Instruction} (h : keep = true ∨ ∀ x, i ≠ .readDelay x) :
    (m.execute i).map (core keep) = ((m.core keep).execute i).map (core keep) := by
  cases i with
  | readDelay x =>
    obtain rfl : keep = true := h.resolve_right fun hx ↦ hx x rfl
    rfl
  | skipEqual | skipNotEqual | skipSame | skipDifferent | skipIfDown | skipIfUp =>
    exact congrArg Except.ok (core_skipIf m _)
  | arithmetic x y op => exact congrArg Except.ok (core_calculate m x y op)
  | ret =>
    have hs : (m.core keep).stack = m.stack := rfl
    cases h : m.stack with
    | nil => simp only [execute, hs, h, Except.map]
    | cons address stack =>
      simp only [execute, hs, h]
      cases keep <;> rfl
  | storeRegisters x | loadRegisters x =>
    simp only [execute, checkBlock]
    change Except.map _ (if m.index.toNat + x.val < Memory.size then _ else _) =
      Except.map _ (if m.index.toNat + x.val < Memory.size then _ else _)
    split <;> cases keep <;> rfl
  | _ => cases keep <;> rfl

theorem readsDelay_iff :
    ReadsDelay m ↔
      m.keypad.pending = none ∧ ∃ x, m.wordAt m.pc.toNat = .ok (.ofNibbles 0xF x 0x0 0x7) := by
  constructor
  · rintro ⟨x, hx⟩
    obtain ⟨hp, hw, -⟩ := executedWord?_eq_some_iff.1 hx
    exact ⟨hp, x, hw⟩
  · rintro ⟨hp, x, hw⟩
    have hd : Instruction.decode (.ofNibbles 0xF x 0x0 0x7) = .readDelay x :=
      Instruction.decode_encode (i := .readDelay x) nofun
    have he : m.advance.execute (.decode (.ofNibbles 0xF x 0x0 0x7)) = .ok _ :=
      congrArg m.advance.execute hd
    refine ⟨x, executedWord?_eq_some_iff.2 ⟨hp, hw, fun u hu ↦ ?_, ?_⟩⟩
    · rw [hd] at hu
      cases hu
    · rw [step_of_done hp hw he, he]

theorem not_readDelay_of_decode {w : Word} (h : ¬ ReadsDelay m) (hp : m.keypad.pending = none)
    (hw : m.wordAt m.pc.toNat = .ok w) (x : Nibble) : Instruction.decode w ≠ .readDelay x := by
  intro hd
  rw [(Instruction.decode_eq_iff (by simp)).1 hd] at hw
  exact h (readsDelay_iff.2 ⟨hp, x, hw⟩)

theorem core_step (h : keep = true ∨ ¬ ReadsDelay m) :
    (m.core keep).step.2 = m.step.2 ∧ (m.core keep).step.1.core keep = m.step.1.core keep := by
  have hexecute {w : Word} (hp : m.keypad.pending = none) (hw : m.wordAt m.pc.toNat = .ok w) :
      (m.advance.execute (.decode w)).map (core keep) =
        ((m.core keep).advance.execute (.decode w)).map (core keep) :=
    core_execute (m := m.advance) (h.imp_right fun hr ↦ not_readDelay_of_decode hr hp hw)
  have hs := stepped m
  generalize m.step = r at hs
  cases hs with
  | suspended hp =>
    rw [step_of_pending (m := m.core keep) hp]
    exact ⟨rfl, core_core m⟩
  | unfetched hp hpc =>
    rw [step_of_unfetched (m := m.core keep) hp hpc]
    exact ⟨rfl, core_core m⟩
  | @refused w fault hp hw he =>
    have hmap := hexecute hp hw
    cases hc : (m.core keep).advance.execute (.decode w) with
    | error other =>
      rw [he, hc] at hmap
      cases hmap
      rw [step_of_refused (m := m.core keep) hp hw hc]
      exact ⟨rfl, core_core m.advance⟩
    | ok after =>
      rw [he, hc] at hmap
      cases hmap
  | @done w after hp hw he =>
    have hmap := hexecute hp hw
    cases hc : (m.core keep).advance.execute (.decode w) with
    | error fault =>
      rw [he, hc] at hmap
      cases hmap
    | ok result =>
      rw [he, hc] at hmap
      rw [step_of_done (m := m.core keep) hp hw hc]
      exact ⟨rfl, (Except.ok.inj hmap).symm⟩

theorem step_of_core (h : m.core keep = n.core keep) (hm : keep = true ∨ ¬ ReadsDelay m) :
    m.step.2 = n.step.2 ∧ m.step.1.core keep = n.step.1.core keep := by
  have hreads (m : Machine) : ReadsDelay (m.core keep) ↔ ReadsDelay m := by
    rw [readsDelay_iff, readsDelay_iff]
    rfl
  have hn : keep = true ∨ ¬ ReadsDelay n := by rwa [← hreads n, ← h, hreads m]
  obtain ⟨hmr, hmc⟩ := core_step hm
  obtain ⟨hnr, hnc⟩ := core_step hn
  rw [← hmr, ← hmc, ← hnr, ← hnc, h]
  exact ⟨rfl, rfl⟩

theorem core_press (m : Machine) (key : Nibble) :
    (m.press key).core keep = ((m.core keep).press key).core keep := by
  have hk : (m.core keep).keypad = m.keypad := rfl
  cases h : m.keypad.pending with
  | none =>
    simp only [press, Keypad.press, hk, h]
    cases keep <;> rfl
  | some x =>
    simp only [press, Keypad.press, hk, h]
    cases keep <;> rfl

theorem press_of_core (h : m.core keep = n.core keep) (key : Nibble) :
    (m.press key).core keep = (n.press key).core keep := by
  rw [core_press, h, ← core_press]

theorem release_of_core (h : m.core keep = n.core keep) (key : Nibble) :
    (m.release key).core keep = (n.release key).core keep :=
  congrArg (release · key) h

end Machine

namespace Console

open Machine History

def Request.isInput : Request → Bool
  | .step => true
  | .press _ => true
  | .release _ => true
  | _ => false

def SameCourse (a b : Reply Answer) : Prop :=
  a.result = b.result ∧ Agrees a.console.machine b.console.machine

/-- The consoles tick at the same steps, and their machines agree down to the delay timer. -/
structure InPhase (c d : Console) : Prop where
  machine : c.machine.core true = d.machine.core true
  cadence : c.cadence = d.cadence
  cycles : c.cycles = d.cycles

variable {c d : Console}

theorem core_machine_step (c : Console) :
    c.step.console.machine.core false = c.machine.step.1.core false := by
  have hs := struck c
  generalize c.step = r at hs
  cases hs with
  | refused hm | suspended hm | counted hm => rw [hm]
  | ticked hm =>
    rw [hm]
    rfl

theorem agrees_step (h : Agrees c.machine d.machine) (hr : ¬ ReadsDelay c.machine) :
    c.step.result = d.step.result ∧ Agrees c.step.console.machine d.step.console.machine := by
  obtain ⟨hresult, hcore⟩ := step_of_core (agrees_iff.1 h) (.inr hr)
  constructor
  · rw [result_step, result_step, hresult]
  · rw [agrees_iff, core_machine_step, core_machine_step, hcore]

theorem agrees_serve (h : Agrees c.machine d.machine) {r : Request} (hi : r.isInput = true)
    (hr : r = .step → ¬ ReadsDelay c.machine) : SameCourse (c.serve r) (d.serve r) := by
  have hcore := agrees_iff.1 h
  cases r with
  | step =>
    obtain ⟨hresult, hnext⟩ := agrees_step h (hr rfl)
    exact ⟨congrArg Answer.stepped hresult, hnext⟩
  | press key => exact ⟨rfl, agrees_iff.2 (press_of_core hcore key)⟩
  | release key => exact ⟨rfl, agrees_iff.2 (release_of_core hcore key)⟩
  | load | frame | alter => cases hi

theorem machine_tick (c : Console) :
    c.tick.1.machine.core true =
      { c.machine.core true with delayTimer := countDown (c.machine.core true).delayTimer } := rfl

theorem InPhase.tick (h : InPhase c d) : InPhase c.tick.1 d.tick.1 := by
  refine ⟨?_, h.cadence, h.cycles⟩
  rw [machine_tick, machine_tick, h.machine]

theorem InPhase.count (h : InPhase c d) : InPhase c.count.1 d.count.1 := by
  have hcycles : c.cycles + 1 = d.cycles + 1 := congrArg (· + 1) h.cycles
  have hdue : c.cycles + 1 = c.cadence ↔ d.cycles + 1 = d.cadence := by rw [hcycles, h.cadence]
  unfold Console.count
  by_cases hd : d.cycles + 1 = d.cadence
  · rw [if_pos (hdue.2 hd), if_pos hd]
    have hreset : InPhase { c with cycles := 0 } { d with cycles := 0 } :=
      ⟨h.machine, h.cadence, rfl⟩
    exact hreset.tick
  · rw [if_neg (mt hdue.1 hd), if_neg hd]
    exact ⟨h.machine, h.cadence, hcycles⟩

theorem InPhase.step (h : InPhase c d) :
    c.step.result = d.step.result ∧ InPhase c.step.console d.step.console := by
  obtain ⟨hresult, hcore⟩ := step_of_core h.machine (.inl rfl)
  unfold Console.step
  cases hc : c.machine.step with
  | mk m result =>
    cases hd : d.machine.step with
    | mk n other =>
      rw [hc, hd] at hresult hcore
      obtain rfl : result = other := hresult
      have hnext : InPhase { c with machine := m } { d with machine := n } :=
        ⟨hcore, h.cadence, h.cycles⟩
      cases result with
      | error fault => exact ⟨rfl, hnext⟩
      | ok outcome =>
        dsimp only
        cases outcome.consumes with
        | false => exact ⟨rfl, hnext⟩
        | true => exact ⟨rfl, hnext.count⟩

theorem InPhase.serve (h : InPhase c d) {r : Request} (hi : r.isInput = true) :
    (c.serve r).result = (d.serve r).result ∧
      InPhase (c.serve r).console (d.serve r).console := by
  cases r with
  | step =>
    obtain ⟨hresult, hnext⟩ := h.step
    exact ⟨congrArg Answer.stepped hresult, hnext⟩
  | press key => exact ⟨rfl, press_of_core h.machine key, h.cadence, h.cycles⟩
  | release key => exact ⟨rfl, release_of_core h.machine key, h.cadence, h.cycles⟩
  | load | frame | alter => cases hi

/-- Ticks, glow and sound reach the program through `Fx07` alone. Machines that agree in all
but timers and history, on consoles of any cadence, count and tone, give the same results and
go on agreeing while no step executes `Fx07`. If the delay timers, the cadences and the counts
agree as well, they go on agreeing whatever is executed. -/
theorem ticks_unseen {c d : Console} (h : Agrees c.machine d.machine) {requests : List Request}
    (hi : ∀ r ∈ requests, r.isInput = true) :
    ((∀ e ∈ c.asked requests, e.action = .step → ¬ ReadsDelay e.before.machine) →
      List.Forall₂ SameCourse (c.replies requests) (d.replies requests)) ∧
    (c.machine.delayTimer = d.machine.delayTimer → c.cadence = d.cadence →
      c.cycles = d.cycles →
      List.Forall₂
        (fun a b ↦ SameCourse a b ∧
          a.console.machine.delayTimer = b.console.machine.delayTimer ∧
          a.console.cadence = b.console.cadence ∧ a.console.cycles = b.console.cycles)
        (c.replies requests) (d.replies requests)) := by
  have hinput : ∀ e ∈ c.asked requests, e.action.isInput = true := by
    intro e he
    apply hi
    have hactions : (c.asked requests).map Event.action = requests := map_action_record c requests
    rw [← hactions]
    exact List.mem_map_of_mem he
  constructor
  · intro hreads
    have hstep (c d : Console) (r : Request) (h : Agrees c.machine d.machine)
        (ha : r.isInput = true ∧ (r = .step → ¬ ReadsDelay c.machine)) :
        SameCourse (c.serve r) (d.serve r) ∧
          Agrees (c.serve r).console.machine (d.serve r).console.machine := by
      have hsame := agrees_serve h ha.1 ha.2
      exact ⟨hsame, hsame.2⟩
    exact @forall₂_replies (fun c d ↦ Agrees c.machine d.machine) SameCourse
      (fun e ↦ e.action.isInput = true ∧ (e.action = .step → ¬ ReadsDelay e.before.machine))
      hstep c d h requests fun e he ↦ ⟨hinput e he, hreads e he⟩
  · intro hdelay hcadence hcycles
    have hphase : InPhase c d := ⟨core_true_of_agrees h hdelay, hcadence, hcycles⟩
    refine @forall₂_replies InPhase _ (fun e ↦ e.action.isInput = true) ?_ c d hphase requests
      hinput
    intro c d r h hi
    obtain ⟨hresult, hnext⟩ := h.serve hi
    exact ⟨⟨⟨hresult, agrees_of_core_true hnext.machine⟩, delayTimer_of_core hnext.machine,
      hnext.cadence, hnext.cycles⟩, hnext⟩

/-- Consoles that tick at different steps, seen through a program that waits for a key. -/
theorem ticks_unseen_awaitKey :
    let m := fresh [0xF1, 0x0A, 0x81, 0x14] (.ofSeed 0)
    let c := (ofMachine m).withCadence 1
    let d : Console := ⟨{ m with delayTimer := 9, soundTimer := 3 }, 7, 2, true, true⟩
    let e : Console := ⟨{ m with soundTimer := 3 }, 1, 0, true, true⟩
    let requests : List Request := [.step, .press 4, .step]
    List.Forall₂ SameCourse (c.replies requests) (d.replies requests) ∧
      List.Forall₂ SameCourse (c.replies requests) (e.replies requests) := by
  intro m c d e requests
  have hd : Agrees c.machine d.machine := ⟨rfl, rfl, rfl, rfl, rfl, rfl, rfl, rfl⟩
  have he : Agrees c.machine e.machine := ⟨rfl, rfl, rfl, rfl, rfl, rfl, rfl, rfl⟩
  have hi : ∀ r ∈ requests, r.isInput = true := by simp [requests, Request.isInput]
  have hreads : ∀ e ∈ c.asked requests, e.action = .step → ¬ ReadsDelay e.before.machine := by
    simp only [asked, record, requests, List.forall_mem_cons, reduceCtorEq, false_implies,
      true_implies, true_and]
    exact ⟨by decide +kernel, by decide +kernel, fun e he ↦ absurd he List.not_mem_nil⟩
  refine ⟨(ticks_unseen hd hi).1 hreads, ?_⟩
  exact ((ticks_unseen he hi).2 rfl rfl rfl).imp fun a b h ↦ h.1

end Console

end Phosphor
