import Phosphor.Proofs.Effects

namespace Phosphor.Machine

def stored (m : Machine) (x : Nibble) : Machine :=
  { m with memory := Bytes.write m.memory m.index.toNat (Bytes.read m.registers 0 (x.val + 1)) }

def loaded (m : Machine) (x : Nibble) : Machine :=
  { m with
    registers := Bytes.write m.registers 0 (Bytes.read m.memory m.index.toNat (x.val + 1)) }

section

variable {m : Machine} {x k : Nibble}

theorem execute_storeRegisters (h : m.index.toNat + x.val ≤ 0xFFF) :
    m.execute (.storeRegisters x) = .ok (m.stored x) :=
  checkBlock_eq_ok_iff.2 ⟨Nat.lt_succ_of_le h, rfl⟩

theorem execute_loadRegisters (h : m.index.toNat + x.val ≤ 0xFFF) :
    m.execute (.loadRegisters x) = .ok (m.loaded x) :=
  checkBlock_eq_ok_iff.2 ⟨Nat.lt_succ_of_le h, rfl⟩

theorem getElem?_registers (m : Machine) (k : Nibble) :
    m.registers[k.val]? = some (m.register k) :=
  Vector.getElem?_eq_getElem k.isLt

theorem length_read_registers (m : Machine) (x : Nibble) :
    (Bytes.read m.registers 0 (x.val + 1)).length = x.val + 1 := by
  have hx := x.isLt
  exact Bytes.length_read (by omega)

theorem getElem?_stored (hk : k ≤ x) (h : m.index.toNat + x.val ≤ 0xFFF) :
    (m.stored x).memory[m.index.toNat + k.val]? = some (m.register k) := by
  have hkx : k.val ≤ x.val := hk
  rw [stored, Bytes.getElem?_write, length_read_registers, if_pos (by omega),
    Nat.add_sub_cancel_left, Bytes.getElem?_read, if_pos (by omega), Nat.zero_add,
    getElem?_registers]

theorem getElem?_stored_of_outside {address : Nat}
    (h : address < m.index.toNat ∨ m.index.toNat + x.val < address) :
    (m.stored x).memory[address]? = m.memory[address]? := by
  apply Bytes.getElem?_write_of_outside
  rw [length_read_registers]
  omega

theorem register_loaded (h : m.index.toNat + x.val ≤ 0xFFF) (k : Nibble) :
    some ((m.loaded x).register k) =
      if k.val ≤ x.val then m.memory[m.index.toNat + k.val]? else some (m.register k) := by
  have hk := k.isLt
  have hlength : (Bytes.read m.memory m.index.toNat (x.val + 1)).length = x.val + 1 :=
    Bytes.length_read (by omega)
  rw [← getElem?_registers, ← getElem?_registers, loaded, Bytes.getElem?_write, hlength]
  by_cases hkx : k.val ≤ x.val
  · rw [if_pos (by omega), if_pos hkx, Nat.sub_zero, Bytes.getElem?_read, if_pos (by omega)]
  · rw [if_neg (by omega), if_neg hkx]

theorem register_loaded_of_le (h : m.index.toNat + x.val ≤ 0xFFF) (hk : k ≤ x) :
    some ((m.loaded x).register k) = m.memory[m.index.toNat + k.val]? := by
  rw [register_loaded h, if_pos (Fin.le_def.1 hk)]

theorem register_loaded_of_lt (h : m.index.toNat + x.val ≤ 0xFFF) (hk : x < k) :
    (m.loaded x).register k = m.register k := by
  apply Option.some.inj
  rw [register_loaded h, if_neg (Nat.not_le.2 hk)]

theorem stored_loaded (h : m.index.toNat + x.val ≤ 0xFFF) : (m.loaded x).stored x = m.loaded x := by
  have hx := x.isLt
  have hlength : (Bytes.read m.memory m.index.toNat (x.val + 1)).length = x.val + 1 :=
    Bytes.length_read (by omega)
  have hback : Bytes.read (m.loaded x).registers 0 (x.val + 1) =
      Bytes.read m.memory m.index.toNat (x.val + 1) :=
    Bytes.read_write hlength (by omega)
  have hmemory : Bytes.write m.memory m.index.toNat
      (Bytes.read (m.loaded x).registers 0 (x.val + 1)) = m.memory := by
    rw [hback, Bytes.write_read]
  exact congrArg (fun memory ↦ { m.loaded x with memory := memory }) hmemory

end

/-- Storing and loading a block of registers are inverse to each other, wherever the block fits
into memory, up to the last byte. -/
theorem block_round_trip (m : Machine) {x : Nibble} (h : m.index.toNat + x.val ≤ 0xFFF) :
    (∃ stored, m.execute (.storeRegisters x) = .ok stored ∧
      (∀ k : Nibble, k ≤ x → stored.memory[m.index.toNat + k.val]? = some (m.register k)) ∧
      (∀ address, address < m.index.toNat ∨ m.index.toNat + x.val < address →
        stored.memory[address]? = m.memory[address]?) ∧
      stored = { m with memory := stored.memory } ∧
      ∀ later : Machine, later.memory = stored.memory → later.index = m.index →
        ∃ loaded, later.execute (.loadRegisters x) = .ok loaded ∧
          (∀ k : Nibble, k ≤ x → loaded.register k = m.register k) ∧
          (∀ k : Nibble, x < k → loaded.register k = later.register k) ∧
          loaded = { later with registers := loaded.registers }) ∧
    ∃ loaded, m.execute (.loadRegisters x) = .ok loaded ∧
      (∀ k : Nibble, k ≤ x → m.memory[m.index.toNat + k.val]? = some (loaded.register k)) ∧
      (∀ k : Nibble, x < k → loaded.register k = m.register k) ∧
      loaded = { m with registers := loaded.registers } ∧
      loaded.execute (.storeRegisters x) = .ok loaded := by
  constructor
  · refine ⟨m.stored x, execute_storeRegisters h, fun k hk ↦ getElem?_stored hk h,
      fun address ha ↦ getElem?_stored_of_outside ha, rfl, fun later hmemory hindex ↦ ?_⟩
    have hfits : later.index.toNat + x.val ≤ 0xFFF := by rwa [hindex]
    refine ⟨later.loaded x, execute_loadRegisters hfits, fun k hk ↦ ?_,
      fun k hk ↦ register_loaded_of_lt hfits hk, rfl⟩
    apply Option.some.inj
    rw [register_loaded_of_le hfits hk, hmemory, hindex, getElem?_stored hk h]
  · exact ⟨m.loaded x, execute_loadRegisters h, fun k hk ↦ (register_loaded_of_le h hk).symm,
      fun k hk ↦ register_loaded_of_lt h hk, rfl,
      (execute_storeRegisters (m := m.loaded x) h).trans (congrArg Except.ok (stored_loaded h))⟩

theorem block_round_trip_brink :
    let m : Machine := { ofSeed 0 with
      index := 0xFF0, registers := Vector.ofFn fun k : Fin 16 ↦ UInt8.ofNat (k.val + 1) }
    m.index.toNat + (0xF : Nibble).val ≤ 0xFFF ∧
      (∃ stored, m.execute (.storeRegisters 0xF) = .ok stored ∧
        stored.memory[4095]? = some 16 ∧
        ∃ loaded, { stored with registers := Vector.replicate 16 0 }.execute
            (.loadRegisters 0xF) = .ok loaded ∧ loaded.register 0xF = 16) ∧
      ∃ loaded, m.execute (.loadRegisters 0xF) = .ok loaded ∧
        loaded.execute (.storeRegisters 0xF) = .ok loaded := by
  intro m
  have hfits : m.index.toNat + (0xF : Nibble).val ≤ 0xFFF := by decide
  obtain ⟨⟨stored, hstored, hbytes, -, hrest, hlater⟩, loaded, hloaded, -, -, -, hagain⟩ :=
    block_round_trip m hfits
  have hindex : stored.index = m.index := by rw [hrest]
  obtain ⟨back, hback, hregisters, -, -⟩ :=
    hlater { stored with registers := Vector.replicate 16 0 } rfl hindex
  exact ⟨hfits, ⟨stored, hstored, hbytes 0xF (by decide), back, hback, hregisters 0xF (by decide)⟩,
    loaded, hloaded, hagain⟩

end Phosphor.Machine
