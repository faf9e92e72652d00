import Phosphor.Proofs.LiveCadence
import Phosphor.Proofs.Sprite
import Phosphor.Strict.Console

namespace Phosphor

namespace Bytes

variable {size : Nat}

theorem read_clipped (v : Vector UInt8 size) (start count : Nat) :
    read v (min start size) (min (min start size + count) size - min start size) =
      read v start count := by
  apply List.ext_getElem?
  intro k
  rw [getElem?_read, getElem?_read]
  by_cases hk : k < count ∧ start + k < size
  · rw [if_pos (by omega), if_pos hk.1, Nat.min_eq_left (by omega)]
  · rw [if_neg (by omega)]
    split
    · rw [Vector.getElem?_eq_none (by omega)]
    · rfl

end Bytes

namespace Instruction

theorem field_eq (n : Nat) {k mask : Nat} (h : mask >>> k = 15) :
    (n &&& mask) >>> k = (n >>> k) % 16 := by
  rw [Nat.shiftRight_and_distrib, h]
  exact Nat.and_two_pow_sub_one_eq_mod _ 4

theorem strictDecode_eq (w : Word) : strictDecode w = .ok (decode w) := by
  have hw := w.toNat_lt
  have hlead : (w.toNat &&& 0xF000) >>> 12 = w.toNat / 4096 := by
    rw [field_eq w.toNat (k := 12) rfl, Nat.shiftRight_eq_div_pow]
    omega
  have hx : (w.toNat &&& 0x0F00) >>> 8 = (Word.nibble w 2).val := field_eq w.toNat rfl
  have hy : (w.toNat &&& 0x00F0) >>> 4 = (Word.nibble w 1).val := field_eq w.toNat rfl
  have hn : w.toNat &&& 0x000F = (Word.nibble w 0).val := field_eq w.toNat (k := 0) rfl
  have hvalue : w.toNat &&& 0x00FF = w.toNat % 256 := Nat.and_two_pow_sub_one_eq_mod _ 8
  have hfield (k : Nibble) : (Strict.narrow 8 k.val >>= Strict.nibble) = .ok k := by
    have := k.isLt
    rw [Strict.narrow_of_lt (by omega), Strict.ok_bind, Strict.nibble_of_lt k.isLt]
  have hleads : Strict.narrow 8 (w.toNat / 4096) = .ok _ := Strict.narrow_of_lt (by omega)
  have hvalues : Strict.narrow 8 (w.toNat % 256) = .ok _ := Strict.narrow_of_lt (by omega)
  unfold strictDecode
  simp only [← bind_assoc]
  rw [hlead, hx, hy, hn, hvalue]
  simp only [hfield, hleads, hvalues, Strict.ok_bind, Strict.pure_eq_ok]
  rfl

end Instruction

namespace Machine

@[simp] theorem strictRegister_eq (m : Machine) (x : Nibble) :
    m.strictRegister x = .ok (m.register x) :=
  Strict.entry_of_lt x.lt_sixteen

@[simp] theorem strictSetRegister_eq (m : Machine) (x : Nibble) (value : UInt8) :
    m.strictSetRegister x value = .ok (m.setRegister x value) := by
  rw [strictSetRegister, Strict.replace_of_lt x.lt_sixteen]
  rfl

@[simp] theorem strictSetFlag_eq (m : Machine) (flag : Bool) :
    m.strictSetFlag flag = .ok (m.setFlag flag) :=
  m.strictSetRegister_eq flagRegister _

theorem strictReset_eq (m : Machine) : m.strictReset = .ok m.reset := by
  have hstop : Font.start + Font.bytes.length = 80 := by rw [Font.start, Font.bytes_length]; rfl
  rw [strictReset, Strict.add_of_lt (by rw [hstop]; decide), Strict.ok_bind,
    Strict.copy_of_length rfl (by rw [hstop]; decide), Strict.ok_bind,
    Strict.narrow_of_lt (by decide), reset, fresh, Memory.withProgram, Bytes.write,
    Memory.powerOn]
  rfl

theorem strictLoad_eq (m : Machine) (program : List UInt8) :
    m.strictLoad program = .ok (m.load program) := by
  unfold strictLoad load
  by_cases h : program.length ≤ Memory.capacity
  · have hfits : Memory.programStart + program.length ≤ 4096 := by
      unfold Memory.capacity Memory.size Memory.programStart at *
      omega
    have hmemory : m.reset.memory = Memory.powerOn := by
      rw [reset, fresh, Memory.withProgram, Bytes.write]
    rw [if_neg (Nat.not_lt.2 h), if_pos h, strictReset_eq, Strict.ok_bind,
      Strict.add_of_lt (by omega), Strict.ok_bind, Strict.copy_of_length rfl hfits, hmemory,
      reset, fresh, fresh, ← Memory.withProgram]
    rfl
  · rw [if_pos (Nat.lt_of_not_le h), if_neg h]
    rfl

theorem strictPress_eq (m : Machine) (key : Nibble) : m.strictPress key = .ok (m.press key) := by
  unfold strictPress press Keypad.press
  rw [Strict.replace_of_lt key.lt_sixteen, Strict.ok_bind]
  cases m.keypad.pending with
  | none => rfl
  | some x => exact strictSetRegister_eq _ x key.toByte

theorem strictRelease_eq (m : Machine) (key : Nibble) :
    m.strictRelease key = .ok (m.release key) := by
  rw [strictRelease, Strict.replace_of_lt key.lt_sixteen]
  rfl

theorem strictWordAt_eq (m : Machine) (address : Nat) (h : address + 2 < 2 ^ 64) :
    m.strictWordAt address = .ok (m.wordAt address) := by
  unfold strictWordAt wordAt
  rw [Strict.add_of_lt h, Strict.ok_bind]
  split
  · rename_i hstop
    unfold Memory.size at hstop
    rw [Strict.entry_of_lt (by omega), Strict.ok_bind, Strict.entry_of_lt (by omega),
      Strict.ok_bind, Memory.word?, Vector.getElem?_eq_getElem (by omega),
      Vector.getElem?_eq_getElem (by omega)]
    rfl
  · rename_i hstop
    unfold Memory.size at hstop
    rw [Memory.word?_eq_none.2 (by omega)]
    rfl

theorem strictBlockEnd_eq (m : Machine) (x : Nibble) :
    m.strictBlockEnd (x.val + 1) =
      .ok (if m.index.toNat + x.val < 4096 then .ok (m.index.toNat + (x.val + 1))
        else .error (.outOfBounds (m.index.toNat + x.val))) := by
  have hindex := m.index.toNat_lt
  have hx := x.isLt
  rw [strictBlockEnd, Strict.add_of_lt (by omega), Strict.ok_bind, Strict.add_of_lt (by omega)]
  rfl

theorem strictStoreRegisters_eq (m : Machine) (x : Nibble) :
    m.strictStoreRegisters x = .ok (m.checkBlock x { m with
      memory := Bytes.write m.memory m.index.toNat (Bytes.read m.registers 0 (x.val + 1)) }) := by
  have hx := x.isLt
  have hlength : (Bytes.read m.registers 0 (x.val + 1)).length = x.val + 1 :=
    Bytes.length_read (by omega)
  rw [strictStoreRegisters, Strict.add_of_lt (by omega), Strict.ok_bind, strictBlockEnd_eq,
    Strict.ok_bind, checkBlock]
  by_cases h : m.index.toNat + x.val < Memory.size
  · have hstop : m.index.toNat + x.val < 4096 := h
    simp only [if_pos h, if_pos hstop]
    rw [Strict.slice_of_le (by omega) (by omega), Strict.ok_bind, Nat.sub_zero,
      Strict.copy_of_length (by rw [hlength]) (by omega)]
    rfl
  · simp only [if_neg h, if_neg (show ¬ m.index.toNat + x.val < 4096 from h)]
    rfl

theorem strictLoadRegisters_eq (m : Machine) (x : Nibble) :
    m.strictLoadRegisters x = .ok (m.checkBlock x { m with
      registers := Bytes.write m.registers 0 (Bytes.read m.memory m.index.toNat (x.val + 1)) }) := by
  have hx := x.isLt
  rw [strictLoadRegisters, Strict.add_of_lt (by omega), Strict.ok_bind, strictBlockEnd_eq,
    Strict.ok_bind, checkBlock]
  by_cases h : m.index.toNat + x.val < Memory.size
  · have hstop : m.index.toNat + x.val < 4096 := h
    simp only [if_pos h, if_pos hstop]
    have hlength : (Bytes.read m.memory m.index.toNat (x.val + 1)).length = x.val + 1 :=
      Bytes.length_read (by omega)
    rw [Strict.slice_of_le (by omega) (by omega), Strict.ok_bind, Nat.add_sub_cancel_left,
      Strict.copy_of_length (by rw [hlength, Nat.zero_add]) (by omega), Strict.ok_bind,
      Strict.slice_of_le (by omega) (by omega), Strict.ok_bind, Nat.sub_zero]
    rw [Bytes.read_write hlength (by omega),
      Strict.copy_of_length (by rw [hlength, Nat.zero_add]) (by omega)]
    rfl
  · simp only [if_neg h, if_neg (show ¬ m.index.toNat + x.val < 4096 from h)]
    rfl

theorem strictKeyHeld_eq (m : Machine) (x : Nibble) : m.strictKeyHeld x = .ok (m.keyHeld x) := by
  rw [strictKeyHeld, strictRegister_eq, Strict.ok_bind, keyHeld]
  cases Nibble.ofByte? (m.register x) with
  | none => rfl
  | some key => exact Strict.entry_of_lt key.lt_sixteen

theorem strictCalculate_eq (m : Machine) (x y : Nibble) (op : Arithmetic) :
    m.strictCalculate x y op = .ok (m.calculate x y op) := by
  simp only [strictCalculate, calculate, strictRegister_eq, Strict.ok_bind]
  cases op.flag? (m.register x) (m.register y) with
  | none => exact strictSetRegister_eq m x _
  | some flag => simp only [strictSetFlag_eq, strictSetRegister_eq, Strict.ok_bind]

theorem strictDrawSprite_eq (m : Machine) (x y height : Nibble) :
    m.strictDrawSprite x y height = .ok (m.drawSprite x y height) := by
  have hleft := (m.register x).toNat_lt
  have htop := (m.register y).toNat_lt
  have hheight := height.isLt
  have hrows : Bytes.read m.memory (min m.index.toNat 4096)
      (min (min m.index.toNat 4096 + height.val) 4096 - min m.index.toNat 4096) =
        Bytes.read m.memory m.index.toNat height.val :=
    Bytes.read_clipped m.memory m.index.toNat height.val
  simp only [strictDrawSprite, drawSprite, strictRegister_eq, Strict.ok_bind, Memory.size]
  rw [Strict.add_of_lt (by omega), Strict.ok_bind, Strict.slice_of_le (by omega) (by omega),
    Strict.ok_bind, hrows, Framebuffer.strictDraw_eq _ (by omega) (by omega), Strict.ok_bind,
    strictSetFlag_eq]

theorem strictGlyph_eq (m : Machine) (x : Nibble) :
    m.strictGlyph x = .ok { m with
      index := UInt16.ofNat (Font.start + (m.register x).toNat * Font.glyphHeight) } := by
  have hdigit := (m.register x).toNat_lt
  have hproduct : (m.register x).toNat * Font.glyphHeight < 2 ^ 16 := by
    unfold Font.glyphHeight
    omega
  have hsum : Font.start + (m.register x).toNat * Font.glyphHeight < 2 ^ 16 := by
    rw [Font.start, Nat.zero_add]
    exact hproduct
  rw [strictGlyph, strictRegister_eq, Strict.ok_bind, Strict.mul_of_lt (by omega), Strict.ok_bind,
    Strict.add_of_lt (by omega), Strict.ok_bind, Strict.narrow_of_lt hsum]
  rfl

theorem strictExecute_eq (m : Machine) (i : Instruction) :
    m.strictExecute i = .ok (m.execute i) := by
  cases i <;>
    simp only [strictExecute, execute, strictRegister_eq, strictSetRegister_eq, strictSetFlag_eq,
      strictKeyHeld_eq, strictCalculate_eq, strictDrawSprite_eq, strictGlyph_eq,
      strictStoreRegisters_eq, strictLoadRegisters_eq, Strict.ok_bind, Strict.pure_eq_ok,
      drawRandom, addToIndex]

theorem strictStep_eq (m : Machine) : m.strictStep = .ok m.step := by
  have hpc := m.pc.toNat_lt
  unfold strictStep step
  cases m.keypad.pending with
  | some x => rfl
  | none =>
    simp only [m.strictWordAt_eq m.pc.toNat (by omega), Strict.ok_bind]
    cases m.wordAt m.pc.toNat with
    | error fault => rfl
    | ok word =>
      simp only [Instruction.strictDecode_eq, strictExecute_eq, Strict.ok_bind]
      cases m.advance.execute (.decode word) <;> rfl

end Machine

namespace Console

theorem strictPresent_eq (c : Console) : c.strictPresent = .ok c.present := by
  rw [strictPresent, Framebuffer.strictComposite_eq]
  rfl

theorem strictSound_eq (c : Console) :
    c.strictSound =
      .ok ({ c with
          machine := { c.machine with soundTimer := countDown c.machine.soundTimer }
          toneOn := c.machine.sounding },
        toneCue c.toneOn c.machine.sounding) := by
  have hcount : UInt8.ofNat (c.machine.soundTimer.toNat - 1) = countDown c.machine.soundTimer := by
    rw [← toNat_countDown, UInt8.ofNat_toNat]
  unfold strictSound
  cases hs : c.machine.sounding with
  | true =>
    have hpos : 1 ≤ c.machine.soundTimer.toNat := UInt8.lt_iff_toNat_lt.1 (of_decide_eq_true hs)
    rw [if_pos rfl, Strict.sub_of_le hpos, Strict.ok_bind, hcount]
    rfl
  | false =>
    have hnot : ¬ 0 < c.machine.soundTimer := of_decide_eq_false hs
    have hzero : c.machine.soundTimer.toNat = 0 :=
      Nat.eq_zero_of_not_pos fun hpos ↦ hnot (UInt8.lt_iff_toNat_lt.2 hpos)
    have htimer : countDown c.machine.soundTimer = c.machine.soundTimer := by
      rw [← UInt8.toNat_inj, toNat_countDown, hzero]
    rw [if_neg Bool.false_ne_true, htimer]
    rfl

theorem strictTick_eq (c : Console) : c.strictTick = .ok c.tick := by
  simp only [strictTick, strictSound_eq, strictPresent_eq, Strict.ok_bind, Strict.pure_eq_ok]
  rfl

/-- Below the cadence the count can be raised: the cadence is itself a 32-bit number. -/
theorem strictCount_eq {c : Console} (h : c.InTime) : c.strictCount = .ok c.count := by
  have hcadence := c.cadence.toNat_lt
  have hcycles : c.cycles.toNat < c.cadence.toNat := h
  have hnext : UInt32.ofNat (c.cycles.toNat + 1) = c.cycles + 1 := by
    rw [← toNat_cycles_succ h, UInt32.ofNat_toNat]
  rw [strictCount, Strict.add_of_lt (by omega), Strict.ok_bind, hnext, count]
  split
  · exact strictTick_eq _
  · rfl

theorem strictStep_eq {c : Console} (h : c.InTime) : c.strictStep = .ok c.step := by
  unfold strictStep step
  rw [Machine.strictStep_eq, Strict.ok_bind]
  rcases c.machine.step with ⟨m, fault | outcome⟩
  · rfl
  · cases hc : outcome.consumes with
    | false => simp only [hc]; rfl
    | true =>
      have hcounted : strictCount { c with machine := m } = .ok _ := strictCount_eq h
      simp only [hc, hcounted]
      rfl

theorem strictSteps_eq (n : Nat) {c : Console} (h : c.InTime) (cues : List Cue) :
    strictSteps n c cues = .ok (repeated step n c cues) := by
  induction n generalizing c cues with
  | zero => rfl
  | succ n ih =>
    have hnext : c.step.console.InTime := inTime_after (e := ⟨c, .step⟩) h
    rw [strictSteps, strictStep_eq h, Strict.ok_bind, repeated]
    rcases hstep : c.step with ⟨next, more, fault | outcome⟩
    · rfl
    · rw [hstep] at hnext
      exact ih hnext (cues ++ more)

theorem strictFrame_eq {c : Console} (h : c.InTime) : c.strictFrame = .ok c.frame := by
  have hsteps : strictSteps c.cadence.toNat { c with presented := false } [] =
      .ok (steps c.cadence.toNat { c with presented := false }) :=
    strictSteps_eq _ (c := { c with presented := false }) h []
  rw [strictFrame, hsteps, Strict.ok_bind, frame]
  rcases steps c.cadence.toNat { c with presented := false } with ⟨next, cues, fault | ⟨⟩⟩
  · rfl
  · cases hp : next.presented with
    | true => simp only [hp]; rfl
    | false =>
      simp only [hp, strictPresent_eq]
      rfl

end Console

/-- No check ever fails. In any state of a machine whatsoever a step, a reset, a load and the
key events are carried out without a trap, a picture is composed and a sprite is drawn at any
64-bit position without one, and so are the steps and frames of a console whose count is below
its cadence. The checked operations then give what the unchecked ones give. -/
theorem never_traps :
    (∀ m : Machine,
      m.strictStep = .ok m.step ∧
      m.strictReset = .ok m.reset ∧
      (∀ key, m.strictPress key = .ok (m.press key) ∧
        m.strictRelease key = .ok (m.release key)) ∧
      ∀ program, m.strictLoad program = .ok (m.load program)) ∧
    (∀ fb : Framebuffer,
      fb.strictComposite = .ok fb.composite ∧
      ∀ (x y : UInt64) (rows : List UInt8),
        fb.strictDraw x.toNat y.toNat rows = .ok (fb.draw x.toNat y.toNat rows)) ∧
    ∀ c : Console, c.cycles < c.cadence →
      c.strictStep = .ok c.step ∧ c.strictFrame = .ok c.frame := by
  refine ⟨fun m ↦ ?_, fun fb ↦ ?_, fun c hc ↦ ?_⟩
  · exact ⟨m.strictStep_eq, m.strictReset_eq,
      fun key ↦ ⟨m.strictPress_eq key, m.strictRelease_eq key⟩, m.strictLoad_eq⟩
  · exact ⟨fb.strictComposite_eq, fun x y rows ↦ fb.strictDraw_eq x.toNat_lt y.toNat_lt rows⟩
  · have hcycles : c.InTime := UInt32.lt_iff_toNat_lt.1 hc
    exact ⟨Console.strictStep_eq hcycles, Console.strictFrame_eq hcycles⟩

/-- A sprite in the far corner, and a console one instruction before the largest cadence. -/
theorem never_traps_brink :
    let c : Console := ⟨.ofSeed 0, 4294967295, 4294967294, false, false⟩
    c.cycles < c.cadence ∧ c.strictStep = .ok c.step ∧
      Framebuffer.dark.strictDraw 18446744073709551615 18446744073709551615 [0xFF, 0xFF] =
        .ok (Framebuffer.dark.draw 18446744073709551615 18446744073709551615 [0xFF, 0xFF]) := by
  intro c
  have hc : c.cycles < c.cadence := by decide
  obtain ⟨-, hframebuffer, hconsole⟩ := never_traps
  exact ⟨hc, (hconsole c hc).1,
    (hframebuffer .dark).2 18446744073709551615 18446744073709551615 [0xFF, 0xFF]⟩

/-- With a count beyond the cadence the sum can overflow. -/
example (m : Machine) :
    Console.strictCount ⟨m, 5, 4294967295, false, false⟩ = .error .overflow := rfl

end Phosphor
