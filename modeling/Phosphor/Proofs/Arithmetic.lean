import Phosphor.Proofs.Stepping

namespace Phosphor

/-- What the operation with a given last digit makes of two bytes, as integers: a result, and
for five of the digits a flag. -/
inductive Arithmetic.Yields (a b : Nat) : Nibble → Nat → Option Nat → Prop
  | copy : Yields a b 0x0 b none
  | or {r : Nat} : (∀ k, r.testBit k = (a.testBit k || b.testBit k)) → Yields a b 0x1 r none
  | and {r : Nat} : (∀ k, r.testBit k = (a.testBit k && b.testBit k)) → Yields a b 0x2 r none
  | xor {r : Nat} : (∀ k, r.testBit k = (a.testBit k ^^ b.testBit k)) → Yields a b 0x3 r none
  | add {r f : Nat} : r < 256 → r + 256 * f = a + b → Yields a b 0x4 r (some f)
  | sub {r f : Nat} :
      (r : Int) = ((a : Int) - b) % 256 → f ≤ 1 → (f = 1 ↔ b ≤ a) → Yields a b 0x5 r (some f)
  | shiftRight {r f : Nat} : f ≤ 1 → a = 2 * r + f → Yields a b 0x6 r (some f)
  | subFrom {r f : Nat} :
      (r : Int) = ((b : Int) - a) % 256 → f ≤ 1 → (f = 1 ↔ a ≤ b) → Yields a b 0x7 r (some f)
  | shiftLeft {r f : Nat} : r < 256 → 256 * f + r = 2 * a → Yields a b 0xE r (some f)

namespace Arithmetic

variable {a b r s : Nat} {n : Nibble} {f g : Option Nat}

theorem Yields.unique (h : Yields a b n r f) (h' : Yields a b n s g) : r = s ∧ f = g := by
  cases h with
  | copy =>
    cases h'
    exact ⟨rfl, rfl⟩
  | or h =>
    cases h' with
    | or h' => exact ⟨Nat.eq_of_testBit_eq fun k ↦ (h k).trans (h' k).symm, rfl⟩
  | and h =>
    cases h' with
    | and h' => exact ⟨Nat.eq_of_testBit_eq fun k ↦ (h k).trans (h' k).symm, rfl⟩
  | xor h =>
    cases h' with
    | xor h' => exact ⟨Nat.eq_of_testBit_eq fun k ↦ (h k).trans (h' k).symm, rfl⟩
  | _ =>
    cases h'
    rw [Option.some.injEq]
    omega

theorem exists_code (h : n ∈ [0x0, 0x1, 0x2, 0x3, 0x4, 0x5, 0x6, 0x7, 0xE]) :
    ∃ op : Arithmetic, op.code = n := by
  have hdigit : ∀ n : Nibble, n ∈ [0x0, 0x1, 0x2, 0x3, 0x4, 0x5, 0x6, 0x7, 0xE] →
      (ofCode? n.val).isSome := by decide
  obtain ⟨op, hop⟩ := Option.isSome_iff_exists.1 (hdigit n h)
  exact ⟨op, Fin.ext (code_of_ofCode? hop)⟩

theorem Yields.exists_code (h : Yields a b n r f) : ∃ op : Arithmetic, op.code = n := by
  apply Arithmetic.exists_code
  cases h <;> decide

section

variable (a b : UInt8)

theorem toNat_add_carry :
    (a + b).toNat + 256 * (decide (256 ≤ a.toNat + b.toNat)).toNat = a.toNat + b.toNat := by
  have ha := a.toNat_lt
  have hb := b.toNat_lt
  rw [UInt8.toNat_add]
  by_cases h : 256 ≤ a.toNat + b.toNat
  · simp only [h, decide_true, Bool.toNat_true]
    omega
  · simp only [h, decide_false, Bool.toNat_false]
    omega

theorem toNat_sub_emod : ((a - b).toNat : Int) = ((a.toNat : Int) - b.toNat) % 256 := by
  have ha := a.toNat_lt
  have hb := b.toNat_lt
  rw [UInt8.toNat_sub]
  omega

theorem toNat_shiftRight_one :
    a.toNat = 2 * (a >>> 1).toNat + (decide (a % 2 = 1)).toNat := by
  have hbit : a % 2 = 1 ↔ a.toNat % 2 = 1 := by
    rw [← UInt8.toNat_inj, UInt8.toNat_mod]
    rfl
  have hrest : (a >>> 1).toNat = a.toNat / 2 := by
    rw [UInt8.toNat_shiftRight]
    rfl
  rw [hrest]
  by_cases h : a.toNat % 2 = 1
  · rw [decide_eq_true (hbit.2 h), Bool.toNat_true]
    omega
  · rw [decide_eq_false (mt hbit.1 h), Bool.toNat_false]
    omega

theorem toNat_shiftLeft_one :
    256 * (decide (128 ≤ a)).toNat + (a <<< 1).toNat = 2 * a.toNat := by
  have ha := a.toNat_lt
  have hbit : 128 ≤ a ↔ 128 ≤ a.toNat := UInt8.le_iff_toNat_le
  have hrest : (a <<< 1).toNat = 2 * a.toNat % 256 := by
    rw [UInt8.toNat_shiftLeft, Nat.shiftLeft_eq, Nat.mul_comm]
    rfl
  rw [hrest]
  by_cases h : 128 ≤ a.toNat
  · rw [decide_eq_true (hbit.2 h), Bool.toNat_true]
    omega
  · rw [decide_eq_false (mt hbit.1 h), Bool.toNat_false]
    omega

end

theorem toNat_decide_eq_one_iff {p : Prop} [Decidable p] : (decide p).toNat = 1 ↔ p := by
  rw [Bool.toNat_eq_one, decide_eq_true_eq]

theorem yields (op : Arithmetic) (a b : UInt8) :
    Yields a.toNat b.toNat op.code (op.result a b).toNat ((op.flag? a b).map Bool.toNat) := by
  cases op with
  | copy => exact .copy
  | or => exact .or fun k ↦ by rw [result, UInt8.toNat_or, Nat.testBit_or]
  | and => exact .and fun k ↦ by rw [result, UInt8.toNat_and, Nat.testBit_and]
  | xor => exact .xor fun k ↦ by rw [result, UInt8.toNat_xor, Nat.testBit_xor]
  | add => exact .add (a + b).toNat_lt (toNat_add_carry a b)
  | sub =>
    exact .sub (toNat_sub_emod a b) (Bool.toNat_le _)
      (toNat_decide_eq_one_iff.trans UInt8.le_iff_toNat_le)
  | shiftRight => exact .shiftRight (Bool.toNat_le _) (toNat_shiftRight_one a)
  | subFrom =>
    exact .subFrom (toNat_sub_emod b a) (Bool.toNat_le _)
      (toNat_decide_eq_one_iff.trans UInt8.le_iff_toNat_le)
  | shiftLeft => exact .shiftLeft (a <<< 1).toNat_lt (toNat_shiftLeft_one a)

end Arithmetic

namespace Machine

/-- The second machine has a result in register `x`, and the flag, if there is one, in the flag
register, unless the result is there. Otherwise it is the first. -/
structure Leaves (m after : Machine) (x : Nibble) (result : Nat) (flag : Option Nat) : Prop where
  result_eq : (after.register x).toNat = result
  flag_eq : x ≠ flagRegister →
    (after.register flagRegister).toNat = flag.getD (m.register flagRegister).toNat
  other_eq : ∀ k, k ≠ x → k ≠ flagRegister → after.register k = m.register k
  rest_eq : after = { m with registers := after.registers }

section

variable (m : Machine) (x y : Nibble) (value : UInt8)

theorem leaves_setRegister : Leaves m (m.setRegister x value) x value.toNat none where
  result_eq := by rw [register_setRegister, if_pos rfl]
  flag_eq hx := by rw [register_setRegister, if_neg hx, Option.getD_none]
  other_eq k hk _ := by rw [register_setRegister, if_neg hk.symm]
  rest_eq := rfl

theorem toNat_register_setFlag (flag : Bool) :
    ((m.setFlag flag).register flagRegister).toNat = flag.toNat := by
  rw [setFlag, register_setRegister, if_pos rfl]
  cases flag <;> rfl

theorem leaves_setFlag_setRegister (flag : Bool) :
    Leaves m ((m.setFlag flag).setRegister x value) x value.toNat (some flag.toNat) where
  result_eq := by rw [register_setRegister, if_pos rfl]
  flag_eq hx := by
    rw [register_setRegister, if_neg hx, toNat_register_setFlag, Option.getD_some]
  other_eq k hk hf := by rw [register_setRegister, if_neg hk.symm, register_setFlag_of_ne m flag hf]
  rest_eq := rfl

theorem leaves_calculate (op : Arithmetic) :
    Leaves m (m.calculate x y op) x (op.result (m.register x) (m.register y)).toNat
      ((op.flag? (m.register x) (m.register y)).map Bool.toNat) := by
  unfold calculate
  cases hflag : op.flag? (m.register x) (m.register y) with
  | none =>
    simp only [hflag]
    exact leaves_setRegister m x _
  | some flag =>
    simp only [hflag]
    exact leaves_setFlag_setRegister m x _ flag

/-- The register is read before the flag is written, also where it is the flag register. -/
theorem toNat_addToIndex :
    (m.addToIndex x).index.toNat + 65536 * ((m.addToIndex x).register flagRegister).toNat =
      m.index.toNat + (m.register x).toNat := by
  have hindex := m.index.toNat_lt
  have hvalue := (m.register x).toNat_lt
  have hsum : (m.addToIndex x).index.toNat = (m.index.toNat + (m.register x).toNat) % 65536 :=
    UInt16.toNat_ofNat'
  rw [hsum, addToIndex, toNat_register_setFlag]
  by_cases h : 65536 ≤ m.index.toNat + (m.register x).toNat
  · rw [decide_eq_true h, Bool.toNat_true]
    omega
  · rw [decide_eq_false h, Bool.toNat_false]
    omega

end

/-- The arithmetic words have their integer meaning in every state and for any registers as
operands, also for one register twice and for the flag register. They never fail. The operands
are read before anything is written, and the result is written after the flag. -/
theorem arithmetic_exact (m : Machine) :
    (∀ (x y n : Nibble) (result : Nat) (flag : Option Nat),
      Arithmetic.Yields (m.register x).toNat (m.register y).toNat n result flag →
      ∃ after, m.execute (.decode (.ofNibbles 0x8 x y n)) = .ok after ∧
        Leaves m after x result flag) ∧
    (∀ x y n : Nibble, n ∈ [0x0, 0x1, 0x2, 0x3, 0x4, 0x5, 0x6, 0x7, 0xE] →
      ∃ result flag,
        Arithmetic.Yields (m.register x).toNat (m.register y).toNat n result flag) ∧
    (∀ (x : Nibble) (value : UInt8),
      ∃ after, m.execute (.decode (.ofByte 0x7 x value)) = .ok after ∧
        Leaves m after x (((m.register x).toNat + value.toNat) % 256) none) ∧
    ∀ x : Nibble,
      ∃ after, m.execute (.decode (.ofNibbles 0xF x 0x1 0xE)) = .ok after ∧
        after.index.toNat + 65536 * (after.register flagRegister).toNat =
          m.index.toNat + (m.register x).toNat ∧
        (∀ k, k ≠ flagRegister → after.register k = m.register k) ∧
        after = { m with index := after.index, registers := after.registers } := by
  refine ⟨fun x y n result flag h ↦ ?_, fun x y n hn ↦ ?_, fun x value ↦ ?_, fun x ↦ ?_⟩
  · obtain ⟨op, rfl⟩ := h.exists_code
    obtain ⟨rfl, rfl⟩ := h.unique (op.yields (m.register x) (m.register y))
    have hdecode := Instruction.decode_encode (i := .arithmetic x y op) nofun
    exact ⟨m.calculate x y op, congrArg m.execute hdecode, leaves_calculate m x y op⟩
  · obtain ⟨op, rfl⟩ := Arithmetic.exists_code hn
    exact ⟨_, _, op.yields (m.register x) (m.register y)⟩
  · have hdecode := Instruction.decode_encode (i := .addImmediate x value) nofun
    have hleaves := leaves_setRegister m x (m.register x + value)
    rw [UInt8.toNat_add] at hleaves
    exact ⟨_, congrArg m.execute hdecode, hleaves⟩
  · have hdecode := Instruction.decode_encode (i := .addIndex x) nofun
    refine ⟨m.addToIndex x, congrArg m.execute hdecode, toNat_addToIndex m x, fun k hk ↦ ?_, rfl⟩
    exact register_setFlag_of_ne _ _ hk

/-- The flag register added to itself: the sum stays, and its carry is lost. -/
example :
    (((ofSeed 0).setRegister 0xF 0xFF).calculate 0xF 0xF .add).register 0xF = 0xFE := by
  decide +kernel

end Machine

end Phosphor
