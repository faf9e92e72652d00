import Phosphor.Proofs.Effects
import Phosphor.Proofs.Stepping

namespace Phosphor

namespace Bytes

variable {size : Nat}

theorem length_read_le (v : Vector UInt8 size) (start count : Nat) :
    (read v start count).length ≤ count := by
  induction count generalizing start with
  | zero => exact Nat.le_refl 0
  | succ count ih =>
    rw [read]
    split
    · exact Nat.succ_le_succ (ih (start + 1))
    · exact Nat.zero_le _

theorem bounds_of_write_ne {v : Vector UInt8 size} {start k : Nat} {bytes : List UInt8}
    (hk : k < size) (h : (write v start bytes)[k] ≠ v[k]) :
    start ≤ k ∧ k < start + bytes.length := by
  have hw := getElem?_write v start bytes k
  rw [Vector.getElem?_eq_getElem hk, Vector.getElem?_eq_getElem hk] at hw
  split at hw
  · rename_i hb
    exact ⟨hb.1, hb.2.1⟩
  · exact absurd (Option.some.inj hw) h

end Bytes

namespace Machine

inductive Part
  | byte (address : Address)
  | screen
  | history
  | stack
  | index
  | delayTimer
  | soundTimer
  | keys
  | wait
  | random
  | register (k : Nibble)

def Part.Changes (m after : Machine) : Part → Prop
  | .byte address => after.memory[address] ≠ m.memory[address]
  | .screen => after.display.screen ≠ m.display.screen
  | .history => after.display.history ≠ m.display.history
  | .stack => after.stack ≠ m.stack
  | .index => after.index ≠ m.index
  | .delayTimer => after.delayTimer ≠ m.delayTimer
  | .soundTimer => after.soundTimer ≠ m.soundTimer
  | .keys => after.keypad.down ≠ m.keypad.down
  | .wait => after.keypad.pending ≠ m.keypad.pending
  | .random => after.random ≠ m.random
  | .register k => after.register k ≠ m.register k

/-- The parts that a word may write, given the index register. The history and
the keys are written by no word. -/
inductive Writes (index : UInt16) : Word → Part → Prop
  | decimal {x : Nibble} {address : Address} :
      index.toNat ≤ address.val → address.val ≤ index.toNat + 2 →
      Writes index (.ofNibbles 0xF x 0x3 0x3) (.byte address)
  | storeRegisters {x : Nibble} {address : Address} :
      index.toNat ≤ address.val → address.val ≤ index.toNat + x.val →
      Writes index (.ofNibbles 0xF x 0x5 0x5) (.byte address)
  | clearScreen : Writes index 0x00E0 .screen
  | draw {x y height : Nibble} : Writes index (.ofNibbles 0xD x y height) .screen
  | call {target : Address} : Writes index (.ofAddress 0x2 target) .stack
  | ret : Writes index 0x00EE .stack
  | setIndex {value : Address} : Writes index (.ofAddress 0xA value) .index
  | addIndex {x : Nibble} : Writes index (.ofNibbles 0xF x 0x1 0xE) .index
  | glyph {x : Nibble} : Writes index (.ofNibbles 0xF x 0x2 0x9) .index
  | setDelay {x : Nibble} : Writes index (.ofNibbles 0xF x 0x1 0x5) .delayTimer
  | setSound {x : Nibble} : Writes index (.ofNibbles 0xF x 0x1 0x8) .soundTimer
  | awaitKey {x : Nibble} : Writes index (.ofNibbles 0xF x 0x0 0xA) .wait
  | random {x : Nibble} {mask : UInt8} : Writes index (.ofByte 0xC x mask) .random
  | setRegister {x : Nibble} {value : UInt8} : Writes index (.ofByte 0x6 x value) (.register x)
  | addImmediate {x : Nibble} {value : UInt8} : Writes index (.ofByte 0x7 x value) (.register x)
  | arithmetic {x y n : Nibble} :
      n ∈ [0x0, 0x1, 0x2, 0x3, 0x4, 0x5, 0x6, 0x7, 0xE] →
      Writes index (.ofNibbles 0x8 x y n) (.register x)
  | randomRegister {x : Nibble} {mask : UInt8} : Writes index (.ofByte 0xC x mask) (.register x)
  | readDelay {x : Nibble} : Writes index (.ofNibbles 0xF x 0x0 0x7) (.register x)
  | loadRegisters {x k : Nibble} :
      k.val ≤ x.val → Writes index (.ofNibbles 0xF x 0x6 0x5) (.register k)
  | arithmeticFlag {x y n : Nibble} :
      n ∈ [0x4, 0x5, 0x6, 0x7, 0xE] → Writes index (.ofNibbles 0x8 x y n) (.register 0xF)
  | drawFlag {x y height : Nibble} : Writes index (.ofNibbles 0xD x y height) (.register 0xF)
  | addIndexFlag {x : Nibble} : Writes index (.ofNibbles 0xF x 0x1 0xE) (.register 0xF)

section

variable {m after : Machine} {p : Part}

theorem not_changes_self : ¬ p.Changes m m := by
  cases p <;> exact fun h ↦ h rfl

theorem not_changes_pc {address : UInt16} : ¬ p.Changes m { m with pc := address } := by
  cases p <;> exact fun h ↦ h rfl

theorem changes_setRegister {x : Nibble} {value : UInt8}
    (h : p.Changes m (after.setRegister x value)) : p.Changes m after ∨ p = .register x := by
  cases p with
  | register k =>
    by_cases hk : x = k
    · exact .inr (congrArg Part.register hk.symm)
    · rw [Part.Changes, register_setRegister, if_neg hk] at h
      exact .inl h
  | _ => exact .inl h

theorem not_changes_skipIf {condition : Bool} : ¬ p.Changes m (m.skipIf condition) := by
  cases condition with
  | false => exact not_changes_self
  | true => exact not_changes_pc

theorem changes_calculate {x y : Nibble} {op : Arithmetic}
    (h : p.Changes m (m.calculate x y op)) :
    p = .register x ∨
      (p = .register flagRegister ∧ op.flag? (m.register x) (m.register y) ≠ none) := by
  unfold calculate at h
  rcases changes_setRegister h with h | h
  · cases hf : op.flag? (m.register x) (m.register y) with
    | none =>
      simp only [hf] at h
      exact absurd h not_changes_self
    | some flag =>
      simp only [hf] at h
      have hflag := (changes_setRegister h).resolve_left not_changes_self
      exact .inr ⟨hflag, Option.some_ne_none flag⟩
  · exact .inl h

theorem changes_index {value : UInt16} (h : p.Changes m { m with index := value }) :
    p = .index := by
  cases p with
  | index => rfl
  | _ => exact absurd rfl h

theorem changes_stack {address : UInt16} {stack : List UInt16}
    (h : p.Changes m { m with pc := address, stack := stack }) : p = .stack := by
  cases p with
  | stack => rfl
  | _ => exact absurd rfl h

theorem changes_screen {screen : Screen}
    (h : p.Changes m { m with display := { m.display with screen := screen } }) :
    p = .screen := by
  cases p with
  | screen => rfl
  | _ => exact absurd rfl h

theorem changes_memory {bytes : List UInt8}
    (h : p.Changes m { m with memory := Bytes.write m.memory m.index.toNat bytes }) :
    ∃ address : Address, p = .byte address ∧
      m.index.toNat ≤ address.val ∧ address.val < m.index.toNat + bytes.length := by
  cases p with
  | byte address => exact ⟨address, rfl, Bytes.bounds_of_write_ne address.isLt h⟩
  | _ => exact absurd rfl h

theorem changes_registers {bytes : List UInt8}
    (h : p.Changes m { m with registers := Bytes.write m.registers 0 bytes }) :
    ∃ k : Nibble, p = .register k ∧ k.val < bytes.length := by
  cases p with
  | register k =>
    have hk := (Bytes.bounds_of_write_ne k.isLt h).2
    exact ⟨k, rfl, by omega⟩
  | _ => exact absurd rfl h

end

theorem code_of_flag? {op : Arithmetic} {a b : UInt8} (h : op.flag? a b ≠ none) :
    op.code ∈ [0x4, 0x5, 0x6, 0x7, 0xE] := by
  cases op with
  | copy | or | and | xor => exact absurd rfl h
  | _ => decide

theorem execute_writes {m after : Machine} {i : Instruction} (h : m.execute i = .ok after)
    {p : Part} (hp : p.Changes m after) : Writes m.index i.encode p := by
  cases i with
  | idle | unknown w =>
    cases h
    exact absurd hp not_changes_self
  | jump | jumpPlusV0 =>
    cases h
    exact absurd hp not_changes_pc
  | skipEqual | skipNotEqual | skipSame | skipDifferent | skipIfDown | skipIfUp =>
    cases h
    exact absurd hp not_changes_skipIf
  | clearScreen =>
    cases h
    cases changes_screen hp
    exact .clearScreen
  | ret =>
    obtain ⟨address, stack, -, rfl⟩ := execute_ret_eq_ok_iff.1 h
    cases changes_stack hp
    exact .ret
  | call target =>
    cases h
    cases changes_stack hp
    exact .call
  | setRegister x value =>
    cases h
    cases (changes_setRegister hp).resolve_left not_changes_self
    exact .setRegister
  | addImmediate x value =>
    cases h
    cases (changes_setRegister hp).resolve_left not_changes_self
    exact .addImmediate
  | readDelay x =>
    cases h
    cases (changes_setRegister hp).resolve_left not_changes_self
    exact .readDelay
  | arithmetic x y op =>
    cases h
    rcases changes_calculate hp with rfl | ⟨rfl, hf⟩
    · exact .arithmetic (by cases op <;> decide)
    · exact .arithmeticFlag (code_of_flag? hf)
  | random x mask =>
    cases h
    rcases changes_setRegister hp with hp | rfl
    · cases p with
      | random => exact .random
      | _ => exact absurd rfl hp
    · exact .randomRegister
  | setIndex value =>
    cases h
    cases changes_index hp
    exact .setIndex
  | addIndex x =>
    cases h
    rcases changes_setRegister hp with hp | rfl
    · cases changes_index hp
      exact .addIndex
    · exact .addIndexFlag
  | glyph x =>
    cases h
    cases changes_index hp
    exact .glyph
  | draw x y height =>
    cases h
    rcases changes_setRegister hp with hp | rfl
    · cases changes_screen hp
      exact .draw
    · exact .drawFlag
  | awaitKey x =>
    cases h
    cases p with
    | wait => exact .awaitKey
    | _ => exact absurd rfl hp
  | setDelay x =>
    cases h
    cases p with
    | delayTimer => exact .setDelay
    | _ => exact absurd rfl hp
  | setSound x =>
    cases h
    cases p with
    | soundTimer => exact .setSound
    | _ => exact absurd rfl hp
  | decimal x =>
    cases h
    obtain ⟨address, rfl, hl, hu⟩ := changes_memory hp
    exact .decimal hl (Nat.lt_succ_iff.1 hu)
  | storeRegisters x =>
    obtain ⟨-, rfl⟩ := checkBlock_eq_ok_iff.1 h
    obtain ⟨address, rfl, hl, hu⟩ := changes_memory hp
    have hr := Bytes.length_read_le m.registers 0 (x.val + 1)
    exact .storeRegisters hl (by omega)
  | loadRegisters x =>
    obtain ⟨-, rfl⟩ := checkBlock_eq_ok_iff.1 h
    obtain ⟨k, rfl, hk⟩ := changes_registers hp
    have hr := Bytes.length_read_le m.memory m.index.toNat (x.val + 1)
    exact .loadRegisters (by omega)

inductive Restacked (m after : Machine) (w : Word) : Prop
  | pushed {target : Address} :
      w = .ofAddress 0x2 target → after.stack = m.pc :: m.stack → Restacked m after w
  | popped : w = 0x00EE → m.stack = after.pc :: after.stack → Restacked m after w
  | kept : (∀ target, w ≠ .ofAddress 0x2 target) → w ≠ 0x00EE → after.stack = m.stack →
      Restacked m after w

theorem restacked {m after : Machine} {w : Word} (h : m.execute (.decode w) = .ok after) :
    Restacked m after w := by
  by_cases hc : ∃ target, w = .ofAddress 0x2 target
  · obtain ⟨target, rfl⟩ := hc
    cases execute_of_decode (i := .call target) nofun h
    exact .pushed rfl rfl
  · by_cases hr : w = 0x00EE
    · subst hr
      obtain ⟨address, stack, hs, rfl⟩ :=
        execute_ret_eq_ok_iff.1 (execute_of_decode (i := .ret) nofun h)
      exact .popped rfl hs
    · refine .kept (not_exists.1 hc) hr ?_
      apply Decidable.byContradiction
      intro hs
      have hw : Writes m.index (Instruction.decode w).encode .stack := execute_writes h hs
      rw [Instruction.encode_decode] at hw
      cases hw with
      | call => exact hc ⟨_, rfl⟩
      | ret => exact hr rfl

/-- The frame law: a step that does not fail changes only parts that its word may
write. A call pushes one address, a return pops one, and `Fx0A` begins a wait. -/
theorem step_writes {m : Machine} {w : Word} {outcome : Outcome}
    (hp : m.keypad.pending = none) (hw : m.wordAt m.pc.toNat = .ok w)
    (ho : m.step.2 = .ok outcome) :
    (∀ p : Part, p.Changes m m.step.1 → Writes m.index w p) ∧
    (∀ target, w = .ofAddress 0x2 target → ∃ address, m.step.1.stack = address :: m.stack) ∧
    (w = 0x00EE → ∃ address, m.stack = address :: m.step.1.stack) ∧
    ∀ x, w = .ofNibbles 0xF x 0x0 0xA → m.step.1.keypad.pending = some x := by
  have he := execute_of_step_ok hp hw ho
  refine ⟨?_, ?_, ?_, ?_⟩
  · intro p hc
    have hc' : p.Changes m.advance m.step.1 := by
      cases p <;> exact hc
    have hwrites := execute_writes he hc'
    rw [Instruction.encode_decode] at hwrites
    exact hwrites
  · rintro target rfl
    have hcall := execute_of_decode (i := .call target) nofun he
    exact ⟨m.advance.pc, congrArg Machine.stack (Except.ok.inj hcall).symm⟩
  · rintro rfl
    obtain ⟨address, stack, hs, hafter⟩ :=
      execute_ret_eq_ok_iff.1 (execute_of_decode (i := .ret) nofun he)
    rw [hafter]
    exact ⟨address, hs⟩
  · rintro x rfl
    have hwait := execute_of_decode (i := .awaitKey x) nofun he
    exact congrArg (·.keypad.pending) (Except.ok.inj hwait).symm

theorem step_writes_storeRegisters :
    let m := fresh [0xF3, 0x55] (.ofSeed 0)
    m.keypad.pending = none ∧ m.wordAt m.pc.toNat = .ok 0xF355 ∧ m.step.2 = .ok .executed ∧
      ∀ p : Part, p.Changes m m.step.1 → Writes m.index 0xF355 p := by
  intro m
  have hw : m.wordAt m.pc.toNat = .ok 0xF355 := wordAt_eq_ok_iff.2 (by decide +kernel)
  have ho : m.step.2 = .ok .executed := congrArg Prod.snd (step_of_done rfl hw rfl)
  exact ⟨rfl, hw, ho, (step_writes rfl hw ho).1⟩

end Machine

end Phosphor
