import Phosphor.Machine.Execute

namespace Phosphor.Machine

variable (m : Machine) (x y : Nibble)

theorem keypad_skipIf (condition : Bool) : (m.skipIf condition).keypad = m.keypad := by
  cases condition <;> rfl

theorem keypad_calculate (op : Arithmetic) : (m.calculate x y op).keypad = m.keypad := by
  cases op <;> rfl

theorem pc_calculate (op : Arithmetic) : (m.calculate x y op).pc = m.pc := by
  cases op <;> rfl

theorem checkBlock_eq_ok_iff {m after result : Machine} {x : Nibble} :
    m.checkBlock x after = .ok result ↔ m.index.toNat + x.val < Memory.size ∧ result = after := by
  unfold checkBlock
  split
  · rename_i h
    simp only [Except.ok.injEq, h, true_and]
    exact eq_comm
  · rename_i h
    simp only [reduceCtorEq, h, false_and]

theorem execute_ret_eq_ok_iff {m after : Machine} :
    m.execute .ret = .ok after ↔
      ∃ address stack, m.stack = address :: stack ∧
        after = { m with pc := address, stack := stack } := by
  cases hs : m.stack with
  | nil => simp [execute, hs]
  | cons address stack =>
    simp only [execute, hs, Except.ok.injEq]
    constructor
    · rintro rfl
      exact ⟨address, stack, rfl, rfl⟩
    · rintro ⟨a, rest, h, rfl⟩
      cases h
      rfl

/-- The keypad belongs to the host, but for the wait that one instruction begins. -/
theorem keypad_execute {m after : Machine} {i : Instruction} (hi : ∀ x, i ≠ .awaitKey x)
    (h : m.execute i = .ok after) : after.keypad = m.keypad := by
  cases i with
  | awaitKey x => exact absurd rfl (hi x)
  | ret =>
    obtain ⟨address, stack, -, rfl⟩ := execute_ret_eq_ok_iff.1 h
    rfl
  | storeRegisters x | loadRegisters x =>
    obtain ⟨-, rfl⟩ := checkBlock_eq_ok_iff.1 h
    rfl
  | arithmetic x y op =>
    cases h
    exact keypad_calculate m x y op
  | skipEqual | skipNotEqual | skipSame | skipDifferent | skipIfDown | skipIfUp =>
    cases h
    exact keypad_skipIf m _
  | _ =>
    cases h
    rfl

end Phosphor.Machine
