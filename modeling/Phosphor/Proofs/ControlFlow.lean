import Phosphor.Proofs.Footprint
import Phosphor.Proofs.MachineRun

namespace Phosphor.Machine

def HoldsDown (m : Machine) (x : Nibble) : Prop :=
  ∃ key : Nibble, (m.register x).toNat = key.val ∧ m.keypad.isDown key = true

inductive Skips (m : Machine) : Word → Prop
  | equal {x : Nibble} {value : UInt8} :
      m.register x = value → Skips m (.ofByte 0x3 x value)
  | notEqual {x : Nibble} {value : UInt8} :
      m.register x ≠ value → Skips m (.ofByte 0x4 x value)
  | same {x y : Nibble} : m.register x = m.register y → Skips m (.ofNibbles 0x5 x y 0x0)
  | different {x y : Nibble} : m.register x ≠ m.register y → Skips m (.ofNibbles 0x9 x y 0x0)
  | down {x : Nibble} : HoldsDown m x → Skips m (.ofNibbles 0xE x 0x9 0xE)
  | up {x : Nibble} : ¬ HoldsDown m x → Skips m (.ofNibbles 0xE x 0xA 0x1)

inductive Transfers : Word → Prop
  | jump {target : Address} : Transfers (.ofAddress 0x1 target)
  | call {target : Address} : Transfers (.ofAddress 0x2 target)
  | jumpPlusV0 {base : Address} : Transfers (.ofAddress 0xB base)
  | ret : Transfers 0x00EE

/-- The address that control goes to after a word, as a natural number. -/
inductive Leads (m : Machine) : Word → Nat → Prop
  | jump {target : Address} : Leads m (.ofAddress 0x1 target) target.val
  | call {target : Address} : Leads m (.ofAddress 0x2 target) target.val
  | jumpPlusV0 {base : Address} :
      Leads m (.ofAddress 0xB base) (base.val + (m.register 0).toNat)
  | ret {address : UInt16} {stack : List UInt16} :
      m.stack = address :: stack → Leads m 0x00EE address.toNat
  | skip {w : Word} : Skips m w → Leads m w (m.pc.toNat + 4)
  | next {w : Word} : ¬ Skips m w → ¬ Transfers w → Leads m w (m.pc.toNat + 2)

def skips (m : Machine) : Instruction → Bool
  | .skipEqual x value => m.register x == value
  | .skipNotEqual x value => m.register x != value
  | .skipSame x y => m.register x == m.register y
  | .skipDifferent x y => m.register x != m.register y
  | .skipIfDown x => m.keyHeld x
  | .skipIfUp x => !m.keyHeld x
  | _ => false

theorem keyHeld_iff {m : Machine} {x : Nibble} : m.keyHeld x = true ↔ HoldsDown m x := by
  unfold keyHeld HoldsDown Nibble.ofByte?
  by_cases hx : (m.register x).toNat < 16
  · simp only [dif_pos hx]
    constructor
    · intro h
      exact ⟨_, rfl, h⟩
    · rintro ⟨key, hkey, h⟩
      have he : key = ⟨(m.register x).toNat, hx⟩ := Fin.ext hkey.symm
      exact he ▸ h
  · simp only [dif_neg hx]
    refine iff_of_false Bool.false_ne_true ?_
    rintro ⟨key, hkey, -⟩
    exact hx (hkey ▸ key.isLt)

theorem skips_decode_encode {m : Machine} {i : Instruction} (h : m.skips i = true) :
    m.skips (.decode i.encode) = true := by
  rw [Instruction.decode_encode]
  · exact h
  · rintro w rfl
    cases h

theorem Skips.skips {m : Machine} {w : Word} (h : Skips m w) : m.skips (.decode w) = true := by
  cases h with
  | @equal x value h => exact skips_decode_encode (i := .skipEqual x value) (beq_iff_eq.2 h)
  | @notEqual x value h =>
    exact skips_decode_encode (i := .skipNotEqual x value) (bne_iff_ne.2 h)
  | @same x y h => exact skips_decode_encode (i := .skipSame x y) (beq_iff_eq.2 h)
  | @different x y h => exact skips_decode_encode (i := .skipDifferent x y) (bne_iff_ne.2 h)
  | @down x h => exact skips_decode_encode (i := .skipIfDown x) (keyHeld_iff.2 h)
  | @up x h =>
    have hk : m.keyHeld x = false := Bool.eq_false_iff.2 (mt keyHeld_iff.1 h)
    exact skips_decode_encode (i := .skipIfUp x) (congrArg not hk)

theorem skips_encode {m : Machine} {i : Instruction} (h : m.skips i = true) :
    Skips m i.encode := by
  cases i with
  | skipEqual x value => exact .equal (beq_iff_eq.1 h)
  | skipNotEqual x value => exact .notEqual (bne_iff_ne.1 h)
  | skipSame x y => exact .same (beq_iff_eq.1 h)
  | skipDifferent x y => exact .different (bne_iff_ne.1 h)
  | skipIfDown x => exact .down (keyHeld_iff.1 h)
  | skipIfUp x =>
    have hk : m.keyHeld x = false := by simpa only [skips, Bool.not_eq_true'] using h
    exact .up (mt keyHeld_iff.2 (Bool.eq_false_iff.1 hk))
  | _ => exact absurd h Bool.false_ne_true

theorem skips_iff {m : Machine} {w : Word} : Skips m w ↔ m.skips (.decode w) = true := by
  constructor
  · exact Skips.skips
  · intro h
    have he := skips_encode h
    rwa [Instruction.encode_decode] at he

theorem Transfers.not_skips {m : Machine} {w : Word} (h : Transfers w) : ¬ Skips m w := by
  have hne {i : Instruction} (hi : ∀ u, i ≠ .unknown u) (hs : m.skips i = false) :
      ¬ Skips m i.encode := by
    rw [skips_iff, Instruction.decode_encode hi, hs]
    exact Bool.false_ne_true
  cases h with
  | @jump target => exact hne (i := .jump target) nofun rfl
  | @call target => exact hne (i := .call target) nofun rfl
  | @jumpPlusV0 base => exact hne (i := .jumpPlusV0 base) nofun rfl
  | ret => exact hne (i := .ret) nofun rfl

theorem pc_execute {m after : Machine} {i : Instruction} (ht : ¬ Transfers i.encode)
    (h : m.execute i = .ok after) : after.pc = (m.skipIf (m.skips i)).pc := by
  cases i with
  | jump => exact absurd .jump ht
  | call => exact absurd .call ht
  | jumpPlusV0 => exact absurd .jumpPlusV0 ht
  | ret => exact absurd .ret ht
  | storeRegisters | loadRegisters =>
    obtain ⟨-, rfl⟩ := checkBlock_eq_ok_iff.1 h
    rfl
  | arithmetic x y op =>
    cases h
    exact pc_calculate m x y op
  | _ =>
    cases h
    rfl

theorem pc_skipIf_advance {m : Machine} (h : m.pc.toNat ≤ 0x10FE) (condition : Bool) :
    (m.advance.skipIf condition).pc.toNat = m.pc.toNat + if condition then 4 else 2 := by
  cases condition with
  | false =>
    change (m.pc + 2).toNat = m.pc.toNat + 2
    simp only [UInt16.toNat_add, UInt16.reduceToNat]
    omega
  | true =>
    change (m.pc + 2 + 2).toNat = m.pc.toNat + 4
    simp only [UInt16.toNat_add, UInt16.reduceToNat]
    omega

theorem toNat_jumpPlusV0 (base : Address) (v : UInt8) :
    (Address.toWord base + v.toUInt16).toNat = base.val + v.toNat := by
  have hb := base.isLt
  have hv := v.toNat_lt
  simp only [UInt16.toNat_add, Address.toNat_toWord, UInt8.toNat_toUInt16]
  omega

theorem pc_of_leads {m after : Machine} {w : Word} {address : Nat} (hl : Leads m w address)
    (he : m.advance.execute (.decode w) = .ok after) (hpc : m.pc.toNat ≤ 0x10FE) :
    after.pc.toNat = address := by
  have hstay (ht : ¬ Transfers w) :
      after.pc.toNat = m.pc.toNat + if m.skips (.decode w) then 4 else 2 := by
    have hs : m.advance.skips (.decode w) = m.skips (.decode w) := by
      cases Instruction.decode w <;> rfl
    rw [pc_execute (by rwa [Instruction.encode_decode]) he, hs, pc_skipIf_advance hpc]
  cases hl with
  | @jump target =>
    cases execute_of_decode (i := .jump target) nofun he
    exact Address.toNat_toWord target
  | @call target =>
    cases execute_of_decode (i := .call target) nofun he
    exact Address.toNat_toWord target
  | @jumpPlusV0 base =>
    cases execute_of_decode (i := .jumpPlusV0 base) nofun he
    exact toNat_jumpPlusV0 base (m.register 0)
  | ret hs =>
    obtain ⟨_, _, hs', rfl⟩ :=
      execute_ret_eq_ok_iff.1 (execute_of_decode (i := .ret) nofun he)
    cases hs.symm.trans hs'
    rfl
  | skip hs =>
    have ht : ¬ Transfers w := fun ht ↦ ht.not_skips hs
    rw [hstay ht, if_pos (skips_iff.1 hs)]
  | next hs ht => rw [hstay ht, if_neg (mt skips_iff.2 hs)]

theorem exists_leads {m after : Machine} {w : Word}
    (he : m.advance.execute (.decode w) = .ok after) : ∃ address, Leads m w address := by
  by_cases ht : Transfers w
  · cases ht with
    | jump => exact ⟨_, .jump⟩
    | call => exact ⟨_, .call⟩
    | jumpPlusV0 => exact ⟨_, .jumpPlusV0⟩
    | ret =>
      obtain ⟨_, _, hs, -⟩ := execute_ret_eq_ok_iff.1 (execute_of_decode (i := .ret) nofun he)
      exact ⟨_, .ret hs⟩
  · by_cases hs : Skips m w
    · exact ⟨_, .skip hs⟩
    · exact ⟨_, .next hs ht⟩

theorem pc_eq_iff_leads {m after : Machine} {w : Word} {address : Nat}
    (he : m.advance.execute (.decode w) = .ok after) (hpc : m.pc.toNat ≤ 0x10FE) :
    after.pc.toNat = address ↔ Leads m w address := by
  constructor
  · rintro rfl
    obtain ⟨address, hl⟩ := exists_leads he
    rwa [pc_of_leads hl he hpc]
  · intro hl
    exact pc_of_leads hl he hpc

/-- The bounds that every run keeps. `Bnnn` reaches the greatest program counter. -/
structure InBounds (m : Machine) : Prop where
  pc_le : m.pc.toNat ≤ 0x10FE
  stack_mem : ∀ address ∈ m.stack, 2 ≤ address.toNat ∧ address.toNat ≤ 0x1000

theorem inBounds_fresh (program : List UInt8) (random : RandomSource) :
    InBounds (fresh program random) where
  pc_le := show (UInt16.ofNat Memory.programStart).toNat ≤ 0x10FE by decide
  stack_mem := fun _ h ↦ absurd h List.not_mem_nil

theorem inBounds_execute {m after : Machine} {w : Word} (h : InBounds m)
    (hw : m.wordAt m.pc.toNat = .ok w) (he : m.advance.execute (.decode w) = .ok after) :
    InBounds after := by
  have hfetch : m.pc.toNat ≤ 0xFFE := le_of_wordAt hw
  have hadvance := advance_pc hw
  constructor
  -- the bound is kept because a fetched word lies low and a return address too
  · obtain ⟨address, hl⟩ := exists_leads he
    rw [pc_of_leads hl he h.pc_le]
    cases hl with
    | @jump target | @call target =>
      have ht := target.isLt
      omega
    | @jumpPlusV0 base =>
      have hb := base.isLt
      have hv := (m.register 0).toNat_lt
      omega
    | ret hs =>
      have ha := (h.stack_mem _ (hs ▸ List.mem_cons_self)).2
      omega
    | skip => omega
    | next => omega
  · intro address ha
    cases restacked he with
    | pushed _ hs =>
      rw [hs] at ha
      rcases List.mem_cons.1 ha with rfl | ha
      · omega
      · exact h.stack_mem address ha
    | popped _ hs => exact h.stack_mem address (hs ▸ List.mem_cons_of_mem _ ha)
    | kept _ _ hs => exact h.stack_mem address (hs ▸ ha)

theorem inBounds_step {m : Machine} (h : InBounds m) : InBounds m.step.1 := by
  have hs := stepped m
  generalize m.step = r at hs
  cases hs with
  | suspended => exact h
  | unfetched => exact h
  | refused _ hw _ =>
    have hpc := le_of_wordAt hw
    have hadvance := advance_pc hw
    have hle : m.advance.pc.toNat ≤ 0x10FE := by omega
    exact ⟨hle, h.stack_mem⟩
  | done _ hw he => exact inBounds_execute h hw he

theorem inBounds_serve {m : Machine} (h : InBounds m) (r : Request) : InBounds (m.serve r) := by
  cases r with
  | load program =>
    cases hl : m.load program with
    | ok after =>
      simp only [serve, hl, (load_eq_ok_iff.1 hl).2]
      exact inBounds_fresh program m.random
    | error fault =>
      simp only [serve, hl]
      exact h
  | reset => exact inBounds_fresh [] m.random
  | step => exact inBounds_step h
  | press key =>
    have hpress : m.serve (.press key) = _ := press_eq m key
    rw [hpress]
    exact ⟨h.pc_le, h.stack_mem⟩
  | release key => exact ⟨h.pc_le, h.stack_mem⟩

theorem inBounds_run {m : Machine} (h : InBounds m) (requests : List Request) :
    InBounds (m.run requests) := by
  induction requests generalizing m with
  | nil => exact h
  | cons r requests ih => exact ih (inBounds_serve h r)

/-- Control flow never wraps: the program counter and the return addresses stay far
below the end of the sixteen bits, so each addition is the one of the natural
numbers, and a step that does not fail goes where the table says. -/
theorem control_flow (random : RandomSource) (requests : List Request) :
    let m := (fresh [] random).run requests
    m.pc.toNat ≤ 0x10FE ∧
    (∀ address ∈ m.stack, 2 ≤ address.toNat ∧ address.toNat ≤ 0x1000) ∧
    m.advance.pc.toNat = m.pc.toNat + 2 ∧
    (m.advance.skipIf true).pc.toNat = m.pc.toNat + 4 ∧
    (∀ base after, m.execute (.jumpPlusV0 base) = .ok after →
      after.pc.toNat = base.val + (m.register 0).toNat) ∧
    ∀ outcome, m.keypad.pending = none → m.pc.toNat ≤ 0xFFE → m.step.2 = .ok outcome →
      ∃ w, m.wordAt m.pc.toNat = .ok w ∧
        ∀ address, m.step.1.pc.toNat = address ↔ Leads m w address := by
  intro m
  obtain ⟨hpc, hstack⟩ : InBounds m := inBounds_run (inBounds_fresh [] random) requests
  refine ⟨hpc, hstack, pc_skipIf_advance hpc false, pc_skipIf_advance hpc true, ?_, ?_⟩
  · intro base after h
    cases h
    exact toNat_jumpPlusV0 base (m.register 0)
  · intro outcome hp hfetch ho
    cases hw : m.wordAt m.pc.toNat with
    | error fault => exact absurd (wordAt_eq_error_iff.1 hw).1 (Nat.not_lt.2 hfetch)
    | ok w =>
      refine ⟨w, rfl, ?_⟩
      intro address
      exact pc_eq_iff_leads (execute_of_step_ok hp hw ho) hpc

end Phosphor.Machine
