import Mathlib.Algebra.GroupWithZero.Nat
import Phosphor.Proofs.BlockTransfer

namespace Phosphor

def IsDecimal (d : Fin 3 → Fin 10) (n : Nat) : Prop :=
  100 * (d 0).val + 10 * (d 1).val + (d 2).val = n

def decimalDigit (n : Nat) (j : Fin 3) : Fin 10 :=
  ⟨n / 10 ^ (2 - j.val) % 10, Nat.mod_lt _ (by decide)⟩

theorem isDecimal_decimalDigit {n : Nat} (h : n < 1000) : IsDecimal (decimalDigit n) n := by
  change 100 * (n / 100 % 10) + 10 * (n / 10 % 10) + n / 1 % 10 = n
  omega

theorem isDecimal_iff {d : Fin 3 → Fin 10} {n : Nat} (h : n < 1000) :
    IsDecimal d n ↔ d = decimalDigit n := by
  constructor
  · intro hd
    have hn : IsDecimal (decimalDigit n) n := isDecimal_decimalDigit h
    unfold IsDecimal at hd hn
    funext j
    match j with
    | 0 | 1 | 2 => omega
  · intro hd
    rw [hd]
    exact isDecimal_decimalDigit h

namespace Machine

theorem getElem?_decimalDigits (value : UInt8) (j : Fin 3) :
    (decimalDigits value)[j.val]? = some (UInt8.ofNat (decimalDigit value.toNat j).val) := by
  have hvalue := value.toNat_lt
  have hhundreds : (value / 100).toNat = value.toNat / 100 := UInt8.toNat_div _ _
  have htens : (value / 10 % 10).toNat = value.toNat / 10 % 10 := by
    rw [UInt8.toNat_mod, UInt8.toNat_div]
    rfl
  have hunits : (value % 10).toNat = value.toNat % 10 := UInt8.toNat_mod _ _
  match j with
  | 0 =>
    change some (value / 100) = some (UInt8.ofNat (value.toNat / 100 % 10))
    rw [← UInt8.ofNat_toNat (x := value / 100), hhundreds, Nat.mod_eq_of_lt (by omega)]
  | 1 =>
    change some (value / 10 % 10) = some (UInt8.ofNat (value.toNat / 10 % 10))
    rw [← htens, UInt8.ofNat_toNat]
  | 2 =>
    change some (value % 10) = some (UInt8.ofNat (value.toNat / 1 % 10))
    rw [Nat.div_one, ← hunits, UInt8.ofNat_toNat]

theorem getElem?_write_decimalDigits (memory : Memory) (value : UInt8) {start : Nat} {j : Fin 3}
    (h : start + j.val < 4096) :
    (Bytes.write memory start (decimalDigits value))[start + j.val]? =
      some (UInt8.ofNat (decimalDigit value.toNat j).val) := by
  have hlength : (decimalDigits value).length = 3 := rfl
  have hj := j.isLt
  rw [Bytes.getElem?_write, if_pos (by omega), Nat.add_sub_cancel_left, getElem?_decimalDigits]

theorem register_loaded_decimal {m : Machine} {value : UInt8} (h : m.index.toNat ≤ 0xFFD)
    (hmemory : ∀ j : Fin 3, m.memory[m.index.toNat + j.val]? =
      some (UInt8.ofNat (decimalDigit value.toNat j).val)) (j : Fin 3) :
    ((m.loaded 2).register (j.castLE (by decide))).toNat = (decimalDigit value.toNat j).val := by
  have hdigit := (decimalDigit value.toNat j).isLt
  have hj : j.castLE (by decide) ≤ (2 : Nibble) := Nat.le_of_lt_succ j.isLt
  have hregister := register_loaded_of_le (x := 2) (Nat.add_le_add_right h 2) hj
  rw [Option.some.inj (hregister.trans (hmemory j)), UInt8.toNat_ofNat']
  omega

/-- The decimal instruction never fails. It writes the three digits of the register, but for
those that would land past the end of memory, and changes nothing else. Where all three fit they
can be loaded back, and are the value again. -/
theorem decimal_exact (m : Machine) (x : Nibble) :
    ∃ after d, m.execute (.decimal x) = .ok after ∧
      (∀ e, IsDecimal e (m.register x).toNat ↔ e = d) ∧
      (∀ j : Fin 3, m.index.toNat + j.val < 4096 →
        after.memory[m.index.toNat + j.val]? = some (UInt8.ofNat (d j).val)) ∧
      (∀ address, address < m.index.toNat ∨ m.index.toNat + 2 < address →
        after.memory[address]? = m.memory[address]?) ∧
      after = { m with memory := after.memory } ∧
      (m.index.toNat ≤ 0xFFD → ∃ loaded, after.execute (.loadRegisters 2) = .ok loaded ∧
        100 * (loaded.register 0).toNat + 10 * (loaded.register 1).toNat +
          (loaded.register 2).toNat = (m.register x).toNat) := by
  have hvalue : (m.register x).toNat < 1000 := Nat.lt_trans (m.register x).toNat_lt (by decide)
  refine ⟨_, decimalDigit (m.register x).toNat, rfl, fun e ↦ isDecimal_iff hvalue,
    fun j hj ↦ getElem?_write_decimalDigits m.memory _ hj, fun address ha ↦ ?_, rfl, fun h ↦ ?_⟩
  · exact Bytes.getElem?_write_of_outside ha
  · have hregister := register_loaded_decimal
      (m := { m with memory := Bytes.write m.memory m.index.toNat (decimalDigits (m.register x)) })
      h fun j ↦ getElem?_write_decimalDigits m.memory (m.register x) (by omega)
    refine ⟨_, execute_loadRegisters (Nat.add_le_add_right h 2), ?_⟩
    have hdecimal := isDecimal_decimalDigit hvalue
    rw [IsDecimal, ← hregister 0, ← hregister 1, ← hregister 2] at hdecimal
    exact hdecimal

end Machine

end Phosphor
