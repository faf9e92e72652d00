import Phosphor.Proofs.Stepping

namespace Phosphor.Machine

theorem checkBlock_eq_error_iff {m after : Machine} {x : Nibble} {fault : Fault} :
    m.checkBlock x after = .error fault ↔
      0xFFF < m.index.toNat + x.val ∧ fault = .outOfBounds (m.index.toNat + x.val) := by
  unfold checkBlock Memory.size
  split
  · rename_i h
    simp only [reduceCtorEq, false_iff, not_and]
    omega
  · rename_i h
    have hx : 0xFFF < m.index.toNat + x.val := by omega
    simp only [Except.error.injEq, hx, true_and]
    exact eq_comm

theorem execute_eq_error_iff {m : Machine} {i : Instruction} {fault : Fault} :
    m.execute i = .error fault ↔
      (i = .ret ∧ m.stack = [] ∧ fault = .stackUnderflow) ∨
      ∃ x, (i = .storeRegisters x ∨ i = .loadRegisters x) ∧
        0xFFF < m.index.toNat + x.val ∧ fault = .outOfBounds (m.index.toNat + x.val) := by
  cases i with
  | ret =>
    cases hs : m.stack with
    | nil => simp [execute, hs, eq_comm]
    | cons address stack => simp [execute, hs]
  | storeRegisters x => simp [execute, checkBlock_eq_error_iff]
  | loadRegisters x => simp [execute, checkBlock_eq_error_iff]
  | _ => simp [execute]

theorem decode_block_iff {w : Word} {x : Nibble} :
    (Instruction.decode w = .storeRegisters x ∨ Instruction.decode w = .loadRegisters x) ↔
      (w = .ofNibbles 0xF x 0x5 0x5 ∨ w = .ofNibbles 0xF x 0x6 0x5) :=
  or_congr (Instruction.decode_eq_iff (by simp)) (Instruction.decode_eq_iff (by simp))

theorem decode_ret_iff {w : Word} : Instruction.decode w = .ret ↔ w = 0x00EE :=
  Instruction.decode_eq_iff (by simp)

theorem execute_word_error_iff {m : Machine} {w : Word} {fault : Fault} :
    m.advance.execute (.decode w) = .error fault ↔
      (w = 0x00EE ∧ m.stack = [] ∧ fault = .stackUnderflow) ∨
      ∃ x, (w = .ofNibbles 0xF x 0x5 0x5 ∨ w = .ofNibbles 0xF x 0x6 0x5) ∧
        0xFFF < m.index.toNat + x.val ∧ fault = .outOfBounds (m.index.toNat + x.val) := by
  simp only [execute_eq_error_iff, decode_block_iff, decode_ret_iff]
  rfl

/-- A step fails on a program counter that no word begins at, on a return with
nothing to return to, and on a register block that memory cannot hold, and on
nothing else. No failure moves anything but the program counter. -/
theorem step_fails_iff (m : Machine) :
    (∀ fault, m.step.2 = .error fault ↔
      m.keypad.pending = none ∧
        ((0xFFE < m.pc.toNat ∧ fault = .outOfBounds m.pc.toNat) ∨
        (m.memory.word? m.pc.toNat = some 0x00EE ∧ m.stack = [] ∧ fault = .stackUnderflow) ∨
        ∃ x, (m.memory.word? m.pc.toNat = some (.ofNibbles 0xF x 0x5 0x5) ∨
            m.memory.word? m.pc.toNat = some (.ofNibbles 0xF x 0x6 0x5)) ∧
          0xFFF < m.index.toNat + x.val ∧ fault = .outOfBounds (m.index.toNat + x.val))) ∧
    ∀ fault, m.step.2 = .error fault →
      if 0xFFE < m.pc.toNat then m.step.1 = m
      else m.step.1 = { m with pc := m.pc + 2 } ∧ (m.pc + 2).toNat = m.pc.toNat + 2 := by
  constructor
  · intro fault
    rw [step_error_iff]
    refine and_congr_right fun _ ↦ or_congr_right ?_
    constructor
    · rintro ⟨w, hw, he⟩
      rcases execute_word_error_iff.1 he with ⟨rfl, hs, hf⟩ | ⟨x, hx, hi, hf⟩
      · exact .inl ⟨hw, hs, hf⟩
      · refine .inr ⟨x, ?_, hi, hf⟩
        rcases hx with rfl | rfl
        · exact .inl hw
        · exact .inr hw
    · rintro (⟨hw, hs, hf⟩ | ⟨x, hw | hw, hi, hf⟩)
      · exact ⟨_, hw, execute_word_error_iff.2 (.inl ⟨rfl, hs, hf⟩)⟩
      · exact ⟨_, hw, execute_word_error_iff.2 (.inr ⟨x, .inl rfl, hi, hf⟩)⟩
      · exact ⟨_, hw, execute_word_error_iff.2 (.inr ⟨x, .inr rfl, hi, hf⟩)⟩
  · intro fault h
    obtain ⟨hp, ⟨hpc, -⟩ | ⟨w, hw, he⟩⟩ := step_error_iff.1 h
    · rw [if_pos hpc, step_of_unfetched hp hpc]
    · have hw' := wordAt_eq_ok_iff.2 hw
      have hpc : ¬ 0xFFE < m.pc.toNat := by
        intro hpc
        rw [Memory.word?_eq_none.2 hpc] at hw
        cases hw
      rw [if_neg hpc, step_of_refused hp hw' he]
      exact ⟨rfl, advance_pc hw'⟩

end Phosphor.Machine
