import Phosphor.Proofs.Faults
import Phosphor.Proofs.Footprint
import Phosphor.Proofs.MachineRun

namespace Phosphor.Machine

open History

def executed? (e : Event Machine Request) : Option Word :=
  match e.action with
  | .step => e.before.executedWord?
  | _ => none

/-- The event executes a word `2nnn`. -/
def isCall (e : Event Machine Request) : Bool := (executed? e).any fun w ↦ w.toNat / 4096 == 0x2

def isReturn (e : Event Machine Request) : Bool := executed? e == some 0x00EE

def restarts (e : Event Machine Request) : Bool :=
  match e.action with
  | .load program => (e.before.load program).isOk
  | .reset => true
  | _ => false

def calls (events : List (Event Machine Request)) : Nat := countSince restarts isCall events

def returns (events : List (Event Machine Request)) : Nat := countSince restarts isReturn events

theorem lead_eq_two_iff {w : Word} : w.toNat / 4096 = 0x2 ↔ ∃ target, w = .ofAddress 0x2 target := by
  constructor
  · intro h
    exact ⟨Word.address w, (Word.ofAddress_address (by omega)).symm⟩
  · rintro ⟨target, rfl⟩
    exact Word.lead_ofAddress 0x2 target

inductive Shifted (e : Event Machine Request) : Prop
  | emptied : restarts e = true → (e.before.serve e.action).stack = [] → Shifted e
  | pushed : restarts e = false → isCall e = true → isReturn e = false →
      (e.before.serve e.action).stack = e.before.advance.pc :: e.before.stack → Shifted e
  | popped : restarts e = false → isCall e = false → isReturn e = true →
      e.before.stack = (e.before.serve e.action).pc :: (e.before.serve e.action).stack → Shifted e
  | kept : restarts e = false → isCall e = false → isReturn e = false →
      (e.before.serve e.action).stack = e.before.stack → Shifted e

theorem shifted_step (m : Machine) : Shifted ⟨m, .step⟩ := by
  have he : executed? ⟨m, .step⟩ = m.executedWord? := rfl
  cases hx : m.executedWord? with
  | none =>
    rw [hx] at he
    refine .kept rfl (by rw [isCall, he]; rfl) (by rw [isReturn, he]; rfl) ?_
    rcases step_of_not_executed hx with h | h
    · exact congrArg Machine.stack h
    · have hs : m.step.1.stack = m.advance.stack := congrArg Machine.stack h
      exact hs
  | some w =>
    rw [hx] at he
    obtain ⟨-, -, -, hw⟩ := executedWord?_eq_some_iff.1 hx
    have hcall : isCall ⟨m, .step⟩ = true ↔ ∃ target, w = .ofAddress 0x2 target := by
      rw [isCall, he, Option.any_some, beq_iff_eq, lead_eq_two_iff]
    have hret : isReturn ⟨m, .step⟩ = true ↔ w = 0x00EE := by
      rw [isReturn, he, beq_iff_eq, Option.some.injEq]
    cases restacked hw with
    | @pushed target ht hs =>
      refine .pushed rfl (hcall.2 ⟨target, ht⟩) ?_ hs
      rw [Bool.eq_false_iff, ne_eq, hret]
      rintro rfl
      have hlead := lead_eq_two_iff.2 ⟨target, ht⟩
      cases hlead
    | popped hr hs =>
      refine .popped rfl ?_ (hret.2 hr) hs
      rw [Bool.eq_false_iff, ne_eq, hcall, ← lead_eq_two_iff, hr]
      decide
    | kept hc hr hs =>
      refine .kept rfl ?_ ?_ hs
      · rw [Bool.eq_false_iff, ne_eq, hcall]
        exact not_exists.2 hc
      · rw [Bool.eq_false_iff, ne_eq, hret]
        exact hr

theorem shifted (e : Event Machine Request) : Shifted e := by
  obtain ⟨m, r⟩ := e
  cases r with
  | load program =>
    cases hl : m.load program with
    | ok after =>
      refine .emptied ?_ ?_
      · simp only [restarts, hl]
        rfl
      · simp only [serve, hl, (load_eq_ok_iff.1 hl).2]
        rfl
    | error fault =>
      refine .kept ?_ rfl rfl ?_
      · simp only [restarts, hl]
        rfl
      · simp only [serve, hl]
  | reset => exact .emptied rfl rfl
  | step => exact shifted_step m
  | press key => exact .kept rfl rfl rfl (congrArg Machine.stack (press_eq m key) :)
  | release key => exact .kept rfl rfl rfl rfl

theorem depth_run {m : Machine} (hm : m.stack = []) (requests : List Request) :
    (m.run requests).stack.length + returns (m.history requests) =
      calls (m.history requests) := by
  refine run_induction (motive := fun _ t events ↦
    t.stack.length + returns events = calls events) ?_ (fun _ t events r ih ↦ ?_) requests
  · rw [hm]
    rfl
  · simp only [calls, returns, countSince_snoc] at ih ⊢
    cases shifted ⟨t, r⟩ with
    | emptied h hs => simp only [h, hs, List.length_nil, if_true]
    | pushed h hc hr hs =>
      simp only [h, hc, hr, hs, List.length_cons, Bool.false_eq_true, if_true, if_false]
      omega
    | popped h hc hr hs =>
      have hlen := congrArg List.length hs
      simp only [List.length_cons] at hlen
      simp only [h, hc, hr, Bool.false_eq_true, if_true, if_false]
      omega
    | kept h hc hr hs =>
      simp only [h, hc, hr, hs, Bool.false_eq_true, if_false]
      exact ih

theorem suffix_serve {e : Event Machine Request} {base : List UInt16}
    (hb : base <:+ e.before.stack) (hd : base.length ≤ (e.before.serve e.action).stack.length) :
    base <:+ (e.before.serve e.action).stack := by
  cases shifted e with
  | emptied _ hs =>
    rw [hs] at hd
    rw [List.eq_nil_of_length_eq_zero (Nat.le_zero.1 hd)]
    exact List.nil_suffix
  | pushed _ _ _ hs =>
    rw [hs]
    exact hb.trans (List.suffix_cons _ _)
  | popped _ _ _ hs =>
    rw [hs, List.suffix_cons_iff] at hb
    rcases hb with rfl | hb
    · rw [List.length_cons] at hd
      omega
    · exact hb
  | kept _ _ _ hs =>
    rw [hs]
    exact hb

theorem suffix_run {m : Machine} {requests : List Request} {base : List UInt16}
    (hb : base <:+ m.stack)
    (hd : ∀ e ∈ m.history requests, base.length ≤ (e.before.serve e.action).stack.length) :
    base <:+ (m.run requests).stack := by
  induction requests generalizing m with
  | nil => exact hb
  | cons r requests ih =>
    obtain ⟨hfirst, hrest⟩ := List.forall_mem_cons.1 hd
    exact ih (suffix_serve hb hfirst) hrest

theorem step_returns {m : Machine} {base : List UInt16} {address : UInt16}
    (hb : address :: base <:+ m.stack) (hd : m.step.1.stack.length = base.length) :
    m.executedWord? = some 0x00EE ∧ m.step.1.pc = address ∧ m.step.1.stack = base := by
  have hle := hb.length_le
  rw [List.length_cons] at hle
  cases shifted ⟨m, .step⟩ with
  | emptied h => cases h
  | pushed _ _ _ hs =>
    have hlen := congrArg List.length hs
    rw [List.length_cons] at hlen
    simp only [serve] at hlen
    omega
  | kept _ _ _ hs =>
    have hlen := congrArg List.length hs
    simp only [serve] at hlen
    omega
  | popped _ _ hr hs =>
    simp only [serve] at hs
    have hlen : (address :: base).length = m.stack.length := by
      rw [hs, List.length_cons, List.length_cons, hd]
    have heq := hb.eq_of_length hlen
    rw [hs, List.cons.injEq] at heq
    refine ⟨?_, heq.1.symm, heq.2.symm⟩
    simpa only [isReturn, executed?, beq_iff_eq] using hr

theorem stack_step_of_call {m : Machine} {target : Address} (hp : m.keypad.pending = none)
    (hw : m.wordAt m.pc.toNat = .ok (.ofAddress 0x2 target)) :
    m.step.1.stack = m.advance.pc :: m.stack := by
  have hd := Instruction.decode_encode (i := .call target) nofun
  rw [step_of_done hp hw (congrArg m.advance.execute hd)]
  rfl

theorem call_returns {m : Machine} {target : Address} {body : List Request}
    (hp : m.keypad.pending = none) (hw : m.wordAt m.pc.toNat = .ok (.ofAddress 0x2 target))
    (habove : ∀ e ∈ m.history body, m.stack.length < (e.before.serve e.action).stack.length)
    (hback : (m.run body).step.1.stack.length = m.stack.length) :
    (m.run body).executedWord? = some 0x00EE ∧
      (m.run body).step.1.pc.toNat = m.pc.toNat + 2 ∧ (m.run body).step.1.stack = m.stack := by
  cases body with
  | nil =>
    have hs := congrArg List.length (stack_step_of_call hp hw)
    rw [List.length_cons] at hs
    change m.step.1.stack.length = m.stack.length at hback
    omega
  | cons r body =>
    obtain ⟨hfirst, hrest⟩ := List.forall_mem_cons.1 habove
    have hpush : (m.serve r).stack = m.advance.pc :: m.stack := by
      cases shifted ⟨m, r⟩ with
      | pushed _ _ _ hs => exact hs
      | emptied _ hs =>
        rw [hs] at hfirst
        exact absurd hfirst (Nat.not_lt_zero _)
      | popped _ _ _ hs =>
        have hlen := congrArg List.length hs
        rw [List.length_cons] at hlen
        simp only at hlen hfirst
        omega
      | kept _ _ _ hs =>
        rw [hs] at hfirst
        exact absurd hfirst (Nat.lt_irrefl _)
    have hsuffix : m.advance.pc :: m.stack <:+ (m.run (r :: body)).stack :=
      suffix_run (m := m.serve r) (hpush ▸ List.suffix_refl _) hrest
    obtain ⟨hx, hpc, hs⟩ := step_returns hsuffix hback
    exact ⟨hx, by rw [hpc, advance_pc hw], hs⟩

theorem stackUnderflow_iff {m : Machine} :
    m.step.2 = .error .stackUnderflow ↔
      m.keypad.pending = none ∧ m.wordAt m.pc.toNat = .ok 0x00EE ∧ m.stack = [] := by
  rw [step_error_iff]
  refine and_congr_right fun _ ↦ ?_
  constructor
  · rintro (⟨-, h⟩ | ⟨w, hw, he⟩)
    · cases h
    · rcases execute_word_error_iff.1 he with ⟨rfl, hs, -⟩ | ⟨x, -, -, h⟩
      · exact ⟨wordAt_eq_ok_iff.2 hw, hs⟩
      · cases h
  · rintro ⟨hw, hs⟩
    exact .inr ⟨_, wordAt_eq_ok_iff.1 hw, execute_word_error_iff.2 (.inl ⟨rfl, hs, rfl⟩)⟩

/-- Calls and returns are bracketed: once a call has raised the stack, the first step
that brings it down again is the return to the word after the call, with the stack as
it was. The depth is the number of calls less that of returns since the last reset or
accepted load, and a return underflows when the two are equal. -/
theorem calls_bracketed (random : RandomSource) (requests : List Request) :
    let m := (fresh [] random).run requests
    let events := (fresh [] random).history requests
    (∀ target body, m.keypad.pending = none →
      m.wordAt m.pc.toNat = .ok (.ofAddress 0x2 target) →
      (∀ e ∈ m.history body, m.stack.length < (e.before.serve e.action).stack.length) →
      (m.run body).step.1.stack.length = m.stack.length →
      (m.run body).executedWord? = some 0x00EE ∧
        (m.run body).step.1.pc.toNat = m.pc.toNat + 2 ∧ (m.run body).step.1.stack = m.stack) ∧
    m.stack.length + returns events = calls events ∧
    (m.step.2 = .error .stackUnderflow ↔
      m.keypad.pending = none ∧ m.wordAt m.pc.toNat = .ok 0x00EE ∧
        calls events = returns events) := by
  intro m events
  have hdepth : m.stack.length + returns events = calls events := depth_run rfl requests
  refine ⟨?_, hdepth, ?_⟩
  · intro target body hp hw habove hback
    exact call_returns hp hw habove hback
  · have hempty : m.stack = [] ↔ calls events = returns events := by
      rw [← List.length_eq_zero_iff]
      omega
    rw [stackUnderflow_iff, hempty]

end Phosphor.Machine
