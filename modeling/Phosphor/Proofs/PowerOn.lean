import Phosphor.Proofs.MemoryListing

namespace Phosphor

namespace Memory

def layout (program : List UInt8) : List UInt8 :=
  Font.bytes ++ List.replicate (0x200 - 80) 0 ++ program ++
    List.replicate (4096 - 0x200 - program.length) 0

theorem toList_withProgram {program : List UInt8} (h : program.length ≤ 3584) :
    (withProgram program).toList = layout program := by
  have hfont : Font.bytes.length = 80 := Font.bytes_length
  have hget {bytes : List UInt8} {k : Nat} (hk : k < bytes.length) :
      some (bytes.getD k 0) = bytes[k]? := by
    rw [List.getD_eq_getElem?_getD, List.getElem?_eq_getElem hk, Option.getD_some]
  apply List.ext_getElem?
  intro k
  rw [Vector.getElem?_toList, getElem?_withProgram]
  simp only [layout, image, List.getElem?_append, List.getElem?_replicate, List.length_append,
    List.length_replicate, hfont, Nat.reduceSub, Nat.reduceAdd]
  have hregion : k < 80 ∨ (80 ≤ k ∧ k < 512) ∨ (512 ≤ k ∧ k < 512 + program.length) ∨
      (512 + program.length ≤ k ∧ k < 4096) ∨ 4096 ≤ k := by omega
  rcases hregion with hglyph | hgap | hprogram | hrest | hbeyond
  · rw [if_pos (by omega), if_pos hglyph, if_pos (by omega), if_pos (by omega), if_pos hglyph,
      hget (by omega)]
  · rw [if_pos (by omega), if_neg (by omega), if_neg (by omega), if_pos (by omega),
      if_pos hgap.2, if_neg (by omega), if_pos (by omega)]
  · rw [if_pos (by omega), if_neg (by omega), if_pos hprogram, if_pos hprogram.2,
      if_neg (by omega), hget (by omega)]
  · rw [if_pos hrest.2, if_neg (by omega), if_neg (by omega), if_neg (by omega),
      if_pos (by omega)]
  · rw [if_neg (by omega), if_neg (by omega), if_neg (by omega)]

end Memory

namespace Machine

/-- A machine that has just been switched on with a program in memory. It owes nothing to
what was before but the state of its random source. -/
structure SwitchedOn (program : List UInt8) (random : RandomSource) (m : Machine) : Prop where
  memory : m.memory.toList = Memory.layout program
  screen : ∀ x y, m.display.screen.lit x y = false
  history : m.display.history = []
  pc : m.pc = 0x200
  index : m.index = 0
  registers : ∀ x, m.register x = 0
  stack : m.stack = []
  delayTimer : m.delayTimer = 0
  soundTimer : m.soundTimer = 0
  keys : ∀ key, m.keypad.isDown key = false
  wait : m.keypad.pending = none
  random : m.random = random

variable {program : List UInt8} {random : RandomSource}

theorem switchedOn_fresh (h : program.length ≤ 3584) (random : RandomSource) :
    SwitchedOn program random (fresh program random) where
  memory := Memory.toList_withProgram h
  screen := Screen.lit_blank
  history := rfl
  pc := rfl
  index := rfl
  registers x := Vector.getElem_replicate x.isLt
  stack := rfl
  delayTimer := rfl
  soundTimer := rfl
  keys key := Vector.getElem_replicate key.isLt
  wait := rfl
  random := rfl

theorem SwitchedOn.unique {m n : Machine} (hm : SwitchedOn program random m)
    (hn : SwitchedOn program random n) : m = n := by
  have hmemory : m.memory = n.memory := Vector.toList_inj.1 (hm.memory.trans hn.memory.symm)
  have hscreen : m.display.screen = n.display.screen :=
    Screen.lit_ext fun x y ↦ (hm.screen x y).trans (hn.screen x y).symm
  have hregisters : m.registers = n.registers := by
    apply Vector.ext
    intro k hk
    exact (hm.registers ⟨k, hk⟩).trans (hn.registers ⟨k, hk⟩).symm
  have hdown : m.keypad.down = n.keypad.down := by
    apply Vector.ext
    intro k hk
    exact (hm.keys ⟨k, hk⟩).trans (hn.keys ⟨k, hk⟩).symm
  obtain ⟨_, ⟨_, _, _⟩, _, _, _, _, _, _, ⟨_, _⟩, _⟩ := m
  obtain ⟨_, ⟨_, _, _⟩, _, _, _, _, _, _, ⟨_, _⟩, _⟩ := n
  simp only [Machine.mk.injEq, Framebuffer.mk.injEq, Keypad.mk.injEq]
  exact ⟨hmemory, ⟨hscreen, hm.history.trans hn.history.symm⟩, hm.pc.trans hn.pc.symm,
    hm.index.trans hn.index.symm, hregisters, hm.stack.trans hn.stack.symm,
    hm.delayTimer.trans hn.delayTimer.symm, hm.soundTimer.trans hn.soundTimer.symm,
    ⟨hdown, hm.wait.trans hn.wait.symm⟩, hm.random.trans hn.random.symm⟩

theorem switchedOn_iff (h : program.length ≤ 3584) {m : Machine} :
    SwitchedOn program random m ↔ m = fresh program random := by
  constructor
  · intro hm
    exact hm.unique (switchedOn_fresh h random)
  · rintro rfl
    exact switchedOn_fresh h random

/-- A load forgets everything but the random source. A program that fits makes of any machine
the one that a new machine with the same random source becomes, and no other than the one
described; a program that is too long is refused and leaves the machine as it was. A reset is
the load of the empty program, and a second one changes nothing. -/
theorem load_forgets (m : Machine) (program : List UInt8) :
    (program.length ≤ 3584 → ∃ after,
      m.load program = .ok after ∧ (fresh [] m.random).load program = .ok after ∧
      m.serve (.load program) = after ∧ ∀ n, SwitchedOn program m.random n ↔ n = after) ∧
    (3584 < program.length →
      m.load program = .error (.programTooLarge ⟨program.length, 3584⟩) ∧
      (Fault.programTooLarge ⟨program.length, 3584⟩).message =
        "Program is too large (" ++ toString program.length ++
          " bytes), max size is " ++ toString 3584 ++ " bytes" ∧
      m.serve (.load program) = m) ∧
    m.load [] = .ok m.reset ∧ (∀ n, SwitchedOn [] m.random n ↔ n = m.reset) ∧
    m.reset.reset = m.reset ∧
    ∀ other : Machine, other.random = m.random →
      other.load program = m.load program ∧ other.reset = m.reset := by
  refine ⟨fun hfits ↦ ?_, fun hlong ↦ ?_, ?_, fun n ↦ ?_, ?_, fun other hrandom ↦ ?_⟩
  · refine ⟨fresh program m.random, load_of_fits hfits m, ?_, ?_, fun n ↦ switchedOn_iff hfits⟩
    · rw [load_of_fits hfits, (switchedOn_fresh (Nat.zero_le _) m.random).random]
    · simp only [serve, load_of_fits hfits]
  · refine ⟨load_of_long hlong m, ?_, ?_⟩
    · unfold Fault.message
      rfl
    · simp only [serve, load_of_long hlong]
  · exact load_of_fits (Nat.zero_le _) m
  · exact switchedOn_iff (Nat.zero_le _)
  · simp only [reset, fresh]
  · simp only [load, reset, hrandom, and_self]

end Machine

end Phosphor
