import Phosphor.Proofs.Effects
import Phosphor.Proofs.MachineRun

namespace Phosphor.Machine

open History

def Arms (x : Nibble) (e : Event Machine Request) : Prop :=
  e.action = .step ∧ e.before.executedWord? = some (.ofNibbles 0xF x 0x0 0xA)

def EndsWait (e : Event Machine Request) : Prop :=
  match e.action with
  | .load program => ∃ after, e.before.load program = .ok after
  | .reset => True
  | .step => False
  | .press _ => True
  | .release _ => False

def Answers (e : Event Machine Request) : Prop :=
  (∃ key, e.action = .press key) ∧ e.before.keypad.pending ≠ none

def Request.isKey : Request → Bool
  | .press _ => true
  | .release _ => true
  | _ => false

def stepAt (m : Machine) (address : Nat) : Machine × Except Fault Outcome :=
  match m.wordAt address with
  | .error fault => (m, .error fault)
  | .ok word =>
    match m.advance.execute (.decode word) with
    | .error fault => (m.advance, .error fault)
    | .ok after => (after, .ok (Instruction.decode word).outcome)

theorem step_eq_stepAt {m : Machine} (h : m.keypad.pending = none) :
    m.step = m.stepAt m.pc.toNat := by
  simp only [step, h]
  rfl

theorem decode_ofNibbles_await (x : Nibble) :
    Instruction.decode (.ofNibbles 0xF x 0x0 0xA) = .awaitKey x :=
  (Instruction.decode_eq_iff (by simp)).2 rfl

theorem Arms.step_eq {x : Nibble} {e : Event Machine Request} (h : Arms x e) :
    e.before.keypad.pending = none ∧
      e.before.step.1 = { e.before.advance with keypad := e.before.keypad.await x } ∧
      e.before.advance.pc.toNat = e.before.pc.toNat + 2 := by
  obtain ⟨hp, hw, -, he⟩ := executedWord?_eq_some_iff.1 h.2
  rw [decode_ofNibbles_await] at he
  exact ⟨hp, (Except.ok.inj he).symm, advance_pc hw⟩

theorem Arms.unique {x y : Nibble} {e : Event Machine Request} (hx : Arms x e) (hy : Arms y e) :
    x = y := by
  have h := Option.some.inj (hx.2.symm.trans hy.2)
  simpa only [Word.nibble_two_ofNibbles] using congrArg (Word.nibble · 2) h

theorem not_arms_of_ne {x : Nibble} {e : Event Machine Request} (h : e.action ≠ .step) :
    ¬ Arms x e := fun ha ↦ h ha.1

theorem not_arms_of_endsWait {x : Nibble} {e : Event Machine Request} (h : EndsWait e) :
    ¬ Arms x e := by
  rintro ⟨ha, -⟩
  simp only [EndsWait, ha] at h

theorem press_of_pending {m : Machine} {x : Nibble} (h : m.keypad.pending = some x)
    (key : Nibble) :
    m.press key =
      { m with
        registers := m.registers.set x key.toByte x.lt_sixteen
        keypad := { down := m.keypad.down.set key true key.lt_sixteen, pending := none } } := by
  simp only [press, Keypad.press, h]
  rfl

theorem press_of_none {m : Machine} (h : m.keypad.pending = none) (key : Nibble) :
    m.press key =
      { m with
        keypad := { down := m.keypad.down.set key true key.lt_sixteen, pending := none } } := by
  simp only [press, Keypad.press, h]

theorem pending_press (m : Machine) (key : Nibble) : (m.press key).keypad.pending = none :=
  congrArg (·.keypad.pending) (press_eq m key)

theorem keypad_step {m : Machine} (h : ∀ x, ¬ Arms x ⟨m, .step⟩) : m.step.1.keypad = m.keypad := by
  have hs := stepped m
  cases hm : m.step with
  | mk after result =>
    rw [hm] at hs
    cases hs with
    | suspended | unfetched | refused => rfl
    | @done w after hp hw he =>
      have hi : ∀ x, Instruction.decode w ≠ .awaitKey x := by
        intro x hx
        have hu : ∀ u, Instruction.decode w ≠ .unknown u := by simp [hx]
        have he' : m.advance.execute (.decode w) = .ok m.step.1 := by rw [he, hm]
        have hword := executedWord?_eq_some_iff.2 ⟨hp, hw, hu, he'⟩
        rw [(Instruction.decode_eq_iff (by simp)).1 hx] at hword
        exact h x ⟨rfl, hword⟩
      have hk : after.keypad = m.advance.keypad := keypad_execute hi he
      exact hk

/-- What one event does to the wait: it begins one where there is none, it ends
any, or it leaves both the wait and the program counter of a machine that waits. -/
theorem serve_cases (e : Event Machine Request) :
    (∃ x, Arms x e ∧ (e.before.serve e.action).keypad.pending = some x) ∨
    (EndsWait e ∧ (e.before.serve e.action).keypad.pending = none) ∨
    ((∀ x, ¬ Arms x e) ∧ ¬ EndsWait e ∧
      (e.before.serve e.action).keypad.pending = e.before.keypad.pending ∧
      (e.before.keypad.pending ≠ none → (e.before.serve e.action).pc = e.before.pc)) := by
  obtain ⟨m, r⟩ := e
  cases r with
  | load program =>
    cases h : m.load program with
    | ok after =>
      refine .inr (.inl ⟨⟨after, h⟩, ?_⟩)
      simp only [serve, h, (load_eq_ok_iff.1 h).2]
      rfl
    | error fault =>
      have hends : ¬ EndsWait ⟨m, .load program⟩ := by
        rintro ⟨after, ha⟩
        rw [h] at ha
        cases ha
      refine .inr (.inr ⟨fun x ↦ not_arms_of_ne nofun, hends, ?_, fun _ ↦ ?_⟩)
      · simp only [serve, h]
      · simp only [serve, h]
  | reset => exact .inr (.inl ⟨trivial, rfl⟩)
  | press key => exact .inr (.inl ⟨trivial, pending_press m key⟩)
  | release key => exact .inr (.inr ⟨fun x ↦ not_arms_of_ne nofun, id, rfl, fun _ ↦ rfl⟩)
  | step =>
    by_cases h : ∃ x, Arms x ⟨m, .step⟩
    · obtain ⟨x, hx⟩ := h
      refine .inl ⟨x, hx, ?_⟩
      exact congrArg (·.keypad.pending) hx.step_eq.2.1
    · rw [not_exists] at h
      refine .inr (.inr ⟨h, id, congrArg Keypad.pending (keypad_step h), fun hp ↦ ?_⟩)
      obtain ⟨x, hx⟩ := Option.ne_none_iff_exists'.1 hp
      exact congrArg (·.1.pc) (step_of_pending hx)

theorem pending_run {m : Machine} (hm : m.keypad.pending = none) (requests : List Request)
    (x : Nibble) :
    (m.run requests).keypad.pending = some x ↔
      Lingers (Arms x) EndsWait (m.history requests) := by
  refine run_induction (motive := fun _ t events ↦
    t.keypad.pending = some x ↔ Lingers (Arms x) EndsWait events) ?_
    (fun _ t events r ih ↦ ?_) requests
  · have hstart : m.keypad.pending ≠ some x := by simp [hm]
    exact iff_of_false hstart not_lingers_nil
  · rw [lingers_snoc, ← ih]
    rcases serve_cases ⟨t, r⟩ with ⟨y, hy, hp⟩ | ⟨he, hp⟩ | ⟨ha, he, hp, -⟩
    · have hnone : t.keypad.pending = none := hy.step_eq.1
      simp only [hp, hnone, Option.some.injEq, reduceCtorEq, false_and, or_false]
      exact ⟨fun h ↦ h ▸ hy, fun h ↦ hy.unique h⟩
    · simp only [hp, he, not_arms_of_endsWait he, reduceCtorEq, not_true_eq_false, and_false,
        or_self]
    · simp only [hp, ha x, he, not_false_eq_true, and_true, false_or]

theorem pc_run_of_lingers {m : Machine} {requests : List Request} {x : Nibble} {address : Nat} :
    Lingers (fun e ↦ Arms x e ∧ e.before.pc.toNat = address) EndsWait (m.history requests) →
    (m.run requests).keypad.pending ≠ none ∧ (m.run requests).pc.toNat = address + 2 := by
  refine run_induction (motive := fun _ t events ↦
    Lingers (fun e ↦ Arms x e ∧ e.before.pc.toNat = address) EndsWait events →
      t.keypad.pending ≠ none ∧ t.pc.toNat = address + 2)
    (fun h ↦ absurd h not_lingers_nil) (fun _ t events r ih h ↦ ?_) requests
  rw [lingers_snoc] at h
  rcases h with ⟨hx, rfl⟩ | ⟨hl, hends⟩
  · obtain ⟨-, hs, hpc⟩ := hx.step_eq
    have hr : r = .step := hx.1
    subst hr
    have hserve : t.serve .step = _ := hs
    rw [hserve]
    exact ⟨by simp [Keypad.await], hpc⟩
  · obtain ⟨hp, hpc⟩ := ih hl
    rcases serve_cases ⟨t, r⟩ with ⟨y, hy, -⟩ | ⟨he, -⟩ | ⟨-, -, hp', hpc'⟩
    · exact absurd hy.step_eq.1 hp
    · exact absurd he hends
    · refine ⟨fun h ↦ hp (hp' ▸ h), ?_⟩
      rw [hpc' hp]
      exact hpc

theorem pending_run_of_no_arms {m : Machine} (hm : m.keypad.pending = none)
    {requests : List Request} (h : ∀ e ∈ m.history requests, ∀ x, ¬ Arms x e) :
    (m.run requests).keypad.pending = none := by
  rw [Option.eq_none_iff_forall_ne_some]
  intro x hx
  obtain ⟨past, e, future, heq, ha, -⟩ := (pending_run hm requests x).1 hx
  exact h e (heq ▸ by simp) x ha

theorem run_keys {m : Machine} (hm : m.keypad.pending = none) {keys : List Request}
    (hk : ∀ r ∈ keys, r.isKey) :
    (m.run keys).keypad.pending = none ∧ (m.run keys).pc = m.pc := by
  induction keys generalizing m with
  | nil => exact ⟨hm, rfl⟩
  | cons r keys ih =>
    have hr := hk r (by simp)
    have hrest : ∀ r ∈ keys, r.isKey := fun r h ↦ hk r (by simp [h])
    have hserve : (m.serve r).keypad.pending = none ∧ (m.serve r).pc = m.pc := by
      cases r with
      | press key => exact ⟨pending_press m key, (congrArg Machine.pc (press_eq m key) :)⟩
      | release key => exact ⟨hm, rfl⟩
      | load | reset | step => cases hr
    obtain ⟨hp, hpc⟩ := ih hserve.1 hrest
    exact ⟨hp, hpc.trans hserve.2⟩

theorem arms_between_answers {m : Machine} {requests : List Request}
    {past mid future : List (Event Machine Request)} {e d : Event Machine Request}
    (h : m.history requests = past ++ e :: (mid ++ d :: future)) (he : Answers e)
    (hd : Answers d) : ∃ a ∈ mid, ∃ x, Arms x a := by
  obtain ⟨before, after, -, -, -, hrest⟩ := record_eq_append_cons h
  obtain ⟨between, -, -, hm, hdm, -⟩ := record_eq_append_cons hrest.symm
  obtain ⟨⟨key, hkey⟩, -⟩ := he
  by_contra hno
  have hmid : ∀ a ∈ mid, ∀ x, ¬ Arms x a := fun a ha x hx ↦ hno ⟨a, ha, x, hx⟩
  rw [hm] at hmid
  have hfree : (e.before.serve e.action).keypad.pending = none := by
    rw [hkey]
    exact pending_press e.before key
  apply hd.2
  rw [hdm]
  exact pending_run_of_no_arms hfree hmid

/-- A wait is pending exactly when an `Fx0A` was executed and neither a press, a
reset nor an accepted load came after it. Until then steps and releases leave it
alone, and the press that answers it writes its register and lets the step after
it read the next word. No two presses answer one `Fx0A`, and none is executed
while another waits. -/
theorem key_wait_protocol (random : RandomSource) (requests : List Request) :
    let start := fresh [] random
    let m := start.run requests
    let events := start.history requests
    (∀ x, m.keypad.pending = some x ↔ Lingers (Arms x) EndsWait events) ∧
    (∀ x, m.keypad.pending = some x →
      m.step = (m, .ok .suspended) ∧
      (∀ key, m.release key =
        { m with
          keypad := { down := m.keypad.down.set key false key.lt_sixteen, pending := some x } }) ∧
      ∀ key, m.press key =
        { m with
          registers := m.registers.set x key.toByte x.lt_sixteen
          keypad := { down := m.keypad.down.set key true key.lt_sixteen, pending := none } }) ∧
    (∀ x address,
      Lingers (fun e ↦ Arms x e ∧ e.before.pc.toNat = address) EndsWait events →
      ∀ key keys, (∀ r ∈ keys, r.isKey) →
        ((m.press key).run keys).step = ((m.press key).run keys).stepAt (address + 2)) ∧
    (m.keypad.pending = none → ∀ key, (m.press key).registers = m.registers) ∧
    (∀ past e mid d future, events = past ++ e :: (mid ++ d :: future) →
      Answers e → Answers d → ∃ a ∈ mid, ∃ x, Arms x a) ∧
    ∀ e ∈ events, ∀ x, Arms x e → e.before.keypad.pending = none := by
  intro start m events
  refine ⟨pending_run rfl requests, ?_, ?_, ?_, ?_, ?_⟩
  · intro x hx
    refine ⟨step_of_pending hx, fun key ↦ ?_, press_of_pending hx⟩
    rw [← hx]
    rfl
  · intro x address hl key keys hk
    obtain ⟨-, hpc⟩ := pc_run_of_lingers hl
    have hpress : (m.press key).pc = m.pc := (congrArg Machine.pc (press_eq m key) :)
    obtain ⟨hp, hkeys⟩ := run_keys (pending_press m key) hk
    rw [step_eq_stepAt hp, hkeys, hpress, hpc]
  · intro hx key
    rw [press_of_none hx]
  · intro past e mid d future h he hd
    exact arms_between_answers h he hd
  · intro e _ x hx
    exact hx.step_eq.1

/-- A wait at `0x200`, a key let go, and the press that answers. -/
theorem key_wait_protocol_answered :
    let asked : List Request := [.load [0xF3, 0x0A, 0x73, 0x01], .step, .release 5]
    let m := (fresh [] (.ofSeed 0)).run asked
    m.keypad.pending = some 3 ∧ m.step = (m, .ok .suspended) ∧ (m.press 7).register 3 = 7 ∧
      (m.press 7).keypad.pending = none ∧
      ((m.press 7).run [.release 7]).step = ((m.press 7).run [.release 7]).stepAt (0x200 + 2) := by
  intro asked m
  obtain ⟨hpending, hwaits, hresumes, -⟩ := key_wait_protocol (.ofSeed 0) asked
  let start := fresh [] (.ofSeed 0)
  let loaded := start.serve (.load [0xF3, 0x0A, 0x73, 0x01])
  have hevents : start.history asked =
      [⟨start, .load [0xF3, 0x0A, 0x73, 0x01]⟩] ++
        ⟨loaded, .step⟩ :: [⟨loaded.serve .step, .release 5⟩] := by
    simp only [history, asked, record, List.singleton_append, loaded]
  have harms : Arms 3 ⟨loaded, .step⟩ ∧ loaded.pc.toNat = 0x200 :=
    ⟨⟨rfl, by decide +kernel⟩, by decide +kernel⟩
  have hstill : ∀ d ∈ [(⟨loaded.serve .step, .release 5⟩ : Event Machine Request)],
      ¬ EndsWait d := by
    simp [EndsWait]
  have hwait := (hpending 3).2 ⟨_, _, _, hevents, harms.1, hstill⟩
  have hresume := hresumes 3 0x200 ⟨_, _, _, hevents, harms, hstill⟩ 7 [.release 7]
    (by simp [Request.isKey])
  obtain ⟨hsuspended, -, hpress⟩ := hwaits 3 hwait
  refine ⟨hwait, hsuspended, ?_, ?_, hresume⟩
  · rw [hpress 7]
    exact Vector.getElem_set_self (by decide)
  · rw [hpress 7]

end Phosphor.Machine
