import Phosphor.Proofs.CallStack

namespace Phosphor.Machine

open History

def isDraw (e : Event Machine Request) : Bool := (executed? e).any fun w ↦ w.toNat / 4096 == 0xC

theorem lead_eq_twelve_iff {w : Word} :
    w.toNat / 4096 = 0xC ↔ ∃ x mask, w = .ofByte 0xC x mask := by
  constructor
  · intro h
    refine ⟨Word.nibble w 2, Word.low w, (Word.ofByte_low ?_).symm⟩
    simp only [Word.nibble]
    omega
  · rintro ⟨x, mask, rfl⟩
    exact Word.lead_ofByte 0xC x mask

theorem isDraw_eq_true_iff {e : Event Machine Request} :
    isDraw e = true ↔ ∃ x mask, executed? e = some (.ofByte 0xC x mask) := by
  simp only [isDraw, Option.any_eq_true, beq_iff_eq, lead_eq_twelve_iff]
  constructor
  · rintro ⟨w, hw, x, mask, rfl⟩
    exact ⟨x, mask, hw⟩
  · rintro ⟨x, mask, hw⟩
    exact ⟨_, hw, x, mask, rfl⟩

theorem decode_ofByte_random (x : Nibble) (mask : UInt8) :
    Instruction.decode (.ofByte 0xC x mask) = .random x mask :=
  (Instruction.decode_eq_iff (by simp)).2 rfl

theorem executed?_eq_random_iff {e : Event Machine Request} {x : Nibble} {mask : UInt8} :
    executed? e = some (.ofByte 0xC x mask) ↔
      e.action = .step ∧ e.before.keypad.pending = none ∧
        e.before.wordAt e.before.pc.toNat = .ok (.ofByte 0xC x mask) := by
  obtain ⟨m, r⟩ := e
  constructor
  · intro h
    cases r with
    | step =>
      obtain ⟨hp, hw, -⟩ := executedWord?_eq_some_iff.1 h
      exact ⟨rfl, hp, hw⟩
    | load | reset | press | release => cases h
  · rintro ⟨rfl, hp, hw⟩
    have he : m.advance.execute (.decode (.ofByte 0xC x mask)) =
        .ok (m.advance.drawRandom x mask) := by
      rw [decode_ofByte_random]
      rfl
    refine executedWord?_eq_some_iff.2 ⟨hp, hw, fun u hu ↦ ?_, ?_⟩
    · rw [decode_ofByte_random] at hu
      cases hu
    · rw [step_of_done hp hw he, he]

inductive Drawn (e : Event Machine Request) : Prop
  | taken {x : Nibble} {mask : UInt8} : executed? e = some (.ofByte 0xC x mask) →
      (e.before.serve e.action).register x = e.before.random.next.1 &&& mask →
      (e.before.serve e.action).random = e.before.random.next.2 → Drawn e
  | kept : isDraw e = false → (e.before.serve e.action).random = e.before.random → Drawn e

theorem random_execute_of_lead_ne {m after : Machine} {w : Word} (hw : w.toNat / 4096 ≠ 0xC)
    (h : m.execute (.decode w) = .ok after) : after.random = m.random := by
  apply Decidable.byContradiction
  intro hr
  have hwrites : Writes m.index (Instruction.decode w).encode .random := execute_writes h hr
  rw [Instruction.encode_decode] at hwrites
  cases hwrites
  exact hw (Word.lead_ofByte 0xC _ _)

theorem drawn_step (m : Machine) : Drawn ⟨m, .step⟩ := by
  have he : executed? ⟨m, .step⟩ = m.executedWord? := rfl
  cases hx : m.executedWord? with
  | none =>
    refine .kept (by rw [isDraw, he, hx]; rfl) ?_
    rcases step_of_not_executed hx with h | h
    · exact congrArg Machine.random h
    · have hr : m.step.1.random = m.advance.random := congrArg Machine.random h
      exact hr
  | some w =>
    obtain ⟨-, -, -, hw⟩ := executedWord?_eq_some_iff.1 hx
    by_cases hlead : w.toNat / 4096 = 0xC
    · obtain ⟨x, mask, rfl⟩ := lead_eq_twelve_iff.1 hlead
      have hdraw := execute_of_decode (i := .random x mask) nofun hw
      have hafter : m.step.1 = m.advance.drawRandom x mask := (Except.ok.inj hdraw).symm
      refine .taken (he.trans hx) ?_ (congrArg Machine.random hafter)
      have hregister : (m.advance.drawRandom x mask).register x = m.random.next.1 &&& mask := by
        rw [drawRandom, register_setRegister, if_pos rfl]
        rfl
      exact (congrArg (register · x) hafter).trans hregister
    · have hrandom : m.step.1.random = m.advance.random := random_execute_of_lead_ne hlead hw
      refine .kept ?_ hrandom
      rw [isDraw, he, hx, Option.any_some, beq_eq_false_iff_ne]
      exact hlead

theorem drawn (e : Event Machine Request) : Drawn e := by
  obtain ⟨m, r⟩ := e
  cases r with
  | load program =>
    refine .kept rfl ?_
    cases hl : m.load program with
    | ok after =>
      simp only [serve, hl, (load_eq_ok_iff.1 hl).2]
      rfl
    | error fault => simp only [serve, hl]
  | reset =>
    have hrandom : m.reset.random = m.random := by rw [reset, fresh]
    exact .kept rfl hrandom
  | release key => exact .kept rfl rfl
  | step => exact drawn_step m
  | press key => exact .kept rfl (congrArg Machine.random (press_eq m key) :)

theorem random_run (m : Machine) (requests : List Request) :
    (m.run requests).random =
      ⟨m.random.seed, m.random.drawn + (m.history requests).countP isDraw⟩ := by
  refine run_induction (motive := fun _ (t : Machine) events ↦
    t.random = ⟨m.random.seed, m.random.drawn + events.countP isDraw⟩) rfl
    (fun _ t events r ih ↦ ?_) requests
  rw [List.countP_append, List.countP_singleton]
  cases drawn ⟨t, r⟩ with
  | @taken x mask hx _ hr =>
    have hdraw : isDraw ⟨t, r⟩ = true := isDraw_eq_true_iff.2 ⟨x, mask, hx⟩
    rw [hr, hdraw, RandomSource.next, ih]
    rfl
  | kept hdraw hr =>
    rw [hr, hdraw, ih]
    rfl

/-- Random bytes are taken in the order of the stream, one by each executed `Cxnn` and none by
anything else. A `Cxnn` is executed by every step that finds it and no wait. Over any run from a
new machine, loads, resets, key events, failed and suspended steps included, the `n`-th executed
`Cxnn` puts the `n`-th byte, masked, into its register. -/
theorem draws_in_order (seed : UInt64) (requests : List Request) :
    let start := ofSeed seed
    let events := start.history requests
    (start.run requests).random = ⟨seed, events.countP isDraw⟩ ∧
    ∀ past e future, events = past ++ e :: future →
      e.before.random = ⟨seed, past.countP isDraw⟩ ∧
      (∀ x mask, executed? e = some (.ofByte 0xC x mask) ↔
        e.action = .step ∧ e.before.keypad.pending = none ∧
          e.before.wordAt e.before.pc.toNat = .ok (.ofByte 0xC x mask)) ∧
      (∀ x mask, executed? e = some (.ofByte 0xC x mask) →
        isDraw e = true ∧
        (e.before.serve e.action).register x =
          Keystream.byte seed (past.countP isDraw) &&& mask ∧
        (e.before.serve e.action).random = ⟨seed, past.countP isDraw + 1⟩) ∧
      ((∀ x mask, executed? e ≠ some (.ofByte 0xC x mask)) →
        isDraw e = false ∧ (e.before.serve e.action).random = e.before.random) := by
  intro start events
  have hrun (requests : List Request) :
      (start.run requests).random = ⟨seed, (start.history requests).countP isDraw⟩ := by
    rw [random_run]
    exact congrArg (RandomSource.mk seed) (Nat.zero_add _)
  refine ⟨hrun requests, fun past e future hsplit ↦ ?_⟩
  obtain ⟨before, after, -, rfl, hbefore, -⟩ := record_eq_append_cons hsplit
  have hsource : e.before.random = ⟨seed, (start.history before).countP isDraw⟩ := by
    rw [hbefore]
    exact hrun before
  refine ⟨hsource, fun x mask ↦ executed?_eq_random_iff, fun x mask hx ↦ ?_, fun hnone ↦ ?_⟩
  · have hdraw : isDraw e = true := isDraw_eq_true_iff.2 ⟨x, mask, hx⟩
    cases drawn e with
    | @taken y other hy hregister hrandom =>
      have hword := Option.some.inj (hx.symm.trans hy)
      have hxy : x = y := by
        simpa only [Word.nibble_two_ofByte] using congrArg (Word.nibble · 2) hword
      have hmask : mask = other := by
        simpa only [Word.low_ofByte] using congrArg Word.low hword
      subst hxy hmask
      rw [hsource] at hregister hrandom
      exact ⟨hdraw, hregister, hrandom⟩
    | kept hno =>
      rw [hno] at hdraw
      cases hdraw
  · cases drawn e with
    | taken hx => exact absurd hx (hnone _ _)
    | kept hno hrandom => exact ⟨hno, hrandom⟩

/-- Two bytes are taken, one of them under the mask zero, before a reset; the third comes after
it. -/
theorem draws_in_order_reset :
    let program : List UInt8 := [0xC1, 0xFF, 0xC2, 0x00]
    let past : List Request := [.load program, .step, .step, .reset, .load program]
    let m := (ofSeed 0).run past
    ((ofSeed 0).history past).countP isDraw = 2 ∧ m.random = ⟨0, 2⟩ ∧
      executed? ⟨m, .step⟩ = some (.ofByte 0xC 1 0xFF) ∧
      m.step.1.register 1 = Keystream.byte 0 2 &&& 0xFF ∧ m.step.1.random = ⟨0, 3⟩ := by
  intro program past m
  have hcount : ((ofSeed 0).history past).countP isDraw = 2 := by decide +kernel
  obtain ⟨-, hevents⟩ := draws_in_order 0 (past ++ [.step])
  obtain ⟨hbefore, hexecuted, htaken, -⟩ :=
    hevents ((ofSeed 0).history past) ⟨m, .step⟩ [] (record_snoc _ past .step)
  have hfound : m.keypad.pending = none ∧ m.wordAt m.pc.toNat = .ok (.ofByte 0xC 1 0xFF) := by
    decide +kernel
  have hword := (hexecuted 1 0xFF).2 ⟨rfl, hfound⟩
  obtain ⟨-, hregister, hafter⟩ := htaken 1 0xFF hword
  rw [hcount] at hbefore hregister hafter
  exact ⟨hcount, hbefore, hword, hregister, hafter⟩

end Phosphor.Machine
