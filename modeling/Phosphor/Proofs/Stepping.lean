import Phosphor.Machine.Step
import Phosphor.Proofs.Encoding

namespace Phosphor.Machine

theorem wordAt_eq_ok_iff {m : Machine} {address : Nat} {w : Word} :
    m.wordAt address = .ok w ↔ m.memory.word? address = some w := by
  unfold wordAt
  split <;> simp_all

theorem wordAt_eq_error_iff {m : Machine} {address : Nat} {fault : Fault} :
    m.wordAt address = .error fault ↔ 0xFFE < address ∧ fault = .outOfBounds address := by
  unfold wordAt
  split
  · rename_i w hw
    simp only [reduceCtorEq, false_iff, not_and]
    intro ha
    rw [Memory.word?_eq_none.2 ha] at hw
    cases hw
  · rename_i hw
    have ha : 0xFFE < address := Memory.word?_eq_none.1 hw
    simp only [Except.error.injEq, ha, true_and]
    exact eq_comm

inductive Stepped (m : Machine) : Machine × Except Fault Outcome → Prop
  | suspended {x : Nibble} :
      m.keypad.pending = some x → Stepped m (m, .ok .suspended)
  | unfetched :
      m.keypad.pending = none → 0xFFE < m.pc.toNat →
      Stepped m (m, .error (.outOfBounds m.pc.toNat))
  | refused {w : Word} {fault : Fault} :
      m.keypad.pending = none → m.wordAt m.pc.toNat = .ok w →
      m.advance.execute (.decode w) = .error fault → Stepped m (m.advance, .error fault)
  | done {w : Word} {after : Machine} :
      m.keypad.pending = none → m.wordAt m.pc.toNat = .ok w →
      m.advance.execute (.decode w) = .ok after →
      Stepped m (after, .ok (Instruction.decode w).outcome)

theorem stepped (m : Machine) : Stepped m m.step := by
  unfold step
  split
  · rename_i x hx
    exact .suspended hx
  · rename_i hx
    split
    · rename_i fault hw
      obtain ⟨ha, rfl⟩ := wordAt_eq_error_iff.1 hw
      exact .unfetched hx ha
    · rename_i w hw
      split
      · rename_i fault he
        exact .refused hx hw he
      · rename_i after he
        exact .done hx hw he

theorem step_of_pending {m : Machine} {x : Nibble} (h : m.keypad.pending = some x) :
    m.step = (m, .ok .suspended) := by
  simp only [step, h]

theorem step_of_unfetched {m : Machine} (h : m.keypad.pending = none) (hpc : 0xFFE < m.pc.toNat) :
    m.step = (m, .error (.outOfBounds m.pc.toNat)) := by
  have hw := (wordAt_eq_error_iff (m := m)).2 ⟨hpc, rfl⟩
  simp only [step, h, hw]

theorem step_of_refused {m : Machine} {w : Word} {fault : Fault} (h : m.keypad.pending = none)
    (hw : m.wordAt m.pc.toNat = .ok w) (he : m.advance.execute (.decode w) = .error fault) :
    m.step = (m.advance, .error fault) := by
  simp only [step, h, hw, he]

theorem step_of_done {m : Machine} {w : Word} {after : Machine} (h : m.keypad.pending = none)
    (hw : m.wordAt m.pc.toNat = .ok w) (he : m.advance.execute (.decode w) = .ok after) :
    m.step = (after, .ok (Instruction.decode w).outcome) := by
  simp only [step, h, hw, he]

theorem execute_of_decode {m after : Machine} {i : Instruction} (hi : ∀ w, i ≠ .unknown w)
    (h : m.execute (.decode i.encode) = .ok after) : m.execute i = .ok after := by
  rwa [Instruction.decode_encode hi] at h

theorem execute_of_step_ok {m : Machine} {w : Word} {outcome : Outcome}
    (h : m.keypad.pending = none) (hw : m.wordAt m.pc.toNat = .ok w)
    (ho : m.step.2 = .ok outcome) : m.advance.execute (.decode w) = .ok m.step.1 := by
  cases he : m.advance.execute (.decode w) with
  | error fault =>
    rw [step_of_refused h hw he] at ho
    cases ho
  | ok after => rw [step_of_done h hw he]

theorem step_error_iff {m : Machine} {fault : Fault} :
    m.step.2 = .error fault ↔
      m.keypad.pending = none ∧
        ((0xFFE < m.pc.toNat ∧ fault = .outOfBounds m.pc.toNat) ∨
        ∃ w, m.memory.word? m.pc.toNat = some w ∧
          m.advance.execute (.decode w) = .error fault) := by
  constructor
  · intro h
    have hs := stepped m
    cases hm : m.step with
    | mk after result =>
      rw [hm] at hs h
      subst h
      cases hs with
      | unfetched hp hpc => exact ⟨hp, .inl ⟨hpc, rfl⟩⟩
      | refused hp hw he => exact ⟨hp, .inr ⟨_, wordAt_eq_ok_iff.1 hw, he⟩⟩
  · rintro ⟨hp, ⟨hpc, rfl⟩ | ⟨w, hw, he⟩⟩
    · rw [step_of_unfetched hp hpc]
    · rw [step_of_refused hp (wordAt_eq_ok_iff.2 hw) he]

theorem le_of_wordAt {m : Machine} {address : Nat} {w : Word} (hw : m.wordAt address = .ok w) :
    address ≤ 0xFFE := by
  apply Nat.le_of_not_lt
  intro h
  rw [(wordAt_eq_error_iff (m := m)).2 ⟨h, rfl⟩] at hw
  cases hw

/-- A word can be fetched from the last but one byte of memory at the latest, so
the program counter moves past it without wrapping. -/
theorem advance_pc {m : Machine} {w : Word} (hw : m.wordAt m.pc.toNat = .ok w) :
    m.advance.pc.toNat = m.pc.toNat + 2 := by
  have hle := le_of_wordAt hw
  simp only [advance, UInt16.toNat_add, UInt16.reduceToNat]
  omega

end Phosphor.Machine
