import Phosphor.Listing
import Phosphor.Proofs.Faults
import Phosphor.Proofs.MachineRun

namespace Phosphor

theorem Mnemonic.text_ne_empty {mnemonic : Mnemonic} (h : mnemonic.name ≠ "") :
    mnemonic.text ≠ "" := by
  intro htext
  unfold text at htext
  split at htext
  · exact h htext
  · rw [String.append_eq_empty_iff, String.append_eq_empty_iff] at htext
    exact h htext.1.1

theorem Arithmetic.name_ne_empty (op : Arithmetic) (x y : Nibble) :
    (op.mnemonic x y).name ≠ "" := by
  cases op <;> simp [mnemonic]

namespace Instruction

theorem name_ne_empty {i : Instruction} {mnemonic : Mnemonic} (h : i.mnemonic? = some mnemonic) :
    mnemonic.name ≠ "" := by
  cases i with
  | unknown w => cases h
  | arithmetic x y op =>
    cases h
    exact op.name_ne_empty x y
  | _ =>
    cases h
    simp

theorem text_eq_empty_iff {i : Instruction} : i.text = "" ↔ ∃ w, i = .unknown w := by
  rw [← mnemonic?_eq_none, text]
  cases h : i.mnemonic? with
  | none => simp
  | some mnemonic => simpa using Mnemonic.text_ne_empty (name_ne_empty h)

theorem exists_decode_unknown_iff {w : Word} :
    (∃ u, decode w = .unknown u) ↔ decode w = .unknown w := by
  constructor
  · intro h
    obtain ⟨u, hu⟩ := h
    rw [hu, decode_unknown hu]
  · intro h
    exact ⟨w, h⟩

theorem outcome_eq_unknown_iff {i : Instruction} {u : Word} :
    i.outcome = .unknown u ↔ i = .unknown u := by
  cases i <;> simp [outcome]

end Instruction

theorem disassemble_eq_empty_iff {w : Word} :
    disassemble w = "" ↔ Instruction.decode w = .unknown w :=
  Instruction.text_eq_empty_iff.trans Instruction.exists_decode_unknown_iff

namespace Machine

variable {m : Machine} {w u : Word}

theorem memory_fresh (program : List UInt8) (random : RandomSource) :
    (fresh program random).memory = Memory.withProgram program := rfl

theorem step_of_unknown (hp : m.keypad.pending = none) (hw : m.wordAt m.pc.toNat = .ok w)
    (hu : Instruction.decode w = .unknown u) : m.step = (m.advance, .ok (.unknown u)) := by
  have he : m.advance.execute (.decode w) = .ok m.advance := by
    rw [hu]
    rfl
  rw [step_of_done hp hw he, hu]
  rfl

theorem step_eq_unknown_iff (hp : m.keypad.pending = none) (hw : m.wordAt m.pc.toNat = .ok w) :
    m.step.2 = .ok (.unknown u) ↔ Instruction.decode w = .unknown u := by
  constructor
  · intro h
    have he := execute_of_step_ok hp hw h
    rw [step_of_done hp hw he] at h
    exact Instruction.outcome_eq_unknown_iff.1 (Except.ok.inj h)
  · intro h
    rw [step_of_unknown hp hw h]

theorem step_of_disassembled (hp : m.keypad.pending = none) (hw : m.wordAt m.pc.toNat = .ok w)
    (hd : disassemble w ≠ "") :
    m.step.2 = .ok .executed ∨
      (w = 0x00EE ∧ m.stack = [] ∧ m.step.2 = .error .stackUnderflow) ∨
      ∃ x, (w = .ofNibbles 0xF x 0x5 0x5 ∨ w = .ofNibbles 0xF x 0x6 0x5) ∧
        0xFFF < m.index.toNat + x.val ∧
        m.step.2 = .error (.outOfBounds (m.index.toNat + x.val)) := by
  cases he : m.advance.execute (.decode w) with
  | error fault =>
    rw [step_of_refused hp hw he]
    rcases execute_word_error_iff.1 he with ⟨hret, hstack, hfault⟩ | ⟨x, hblock, hx, hfault⟩
    · exact .inr (.inl ⟨hret, hstack, congrArg Except.error hfault⟩)
    · exact .inr (.inr ⟨x, hblock, hx, congrArg Except.error hfault⟩)
  | ok after =>
    have hknown : ∀ u, Instruction.decode w ≠ .unknown u := fun u hu ↦
      hd (disassemble_eq_empty_iff.2 (Instruction.exists_decode_unknown_iff.1 ⟨u, hu⟩))
    rw [step_of_done hp hw he, outcome_eq_executed_iff.2 hknown]
    exact .inl rfl

end Machine

namespace Listing

theorem Line.text_eq_iff {l : Line} :
    l.text = Hex.text 4 l.address ++ ": " ++ Hex.text 4 l.word.toNat ++ " " ↔
      disassemble l.word = "" :=
  String.append_eq_left_iff

theorem word?_of_mem_lines {memory : Memory} {start stop : Nat} {l : Line}
    (h : l ∈ lines memory start stop) : memory.word? l.address = some l.word := by
  obtain ⟨address, -, hl⟩ := List.mem_filterMap.1 h
  obtain ⟨w, hw, rfl⟩ := Option.map_eq_some_iff.1 hl
  exact hw

theorem run_of_load {before loaded : Machine} {program : List UInt8}
    (h : before.load program = .ok loaded) (options : ListingOptions) :
    run options (.ok program) =
      ⟨0, (lines loaded.memory (start options) (stop options program)).map Line.text, ""⟩ := by
  obtain ⟨hfits, rfl⟩ := Machine.load_eq_ok_iff.1 h
  have hload := Machine.load_of_fits hfits (.ofSeed 0)
  have hlisted : ofProgram options program =
      .ok (lines (Memory.withProgram program) (start options) (stop options program)) := by
    rw [ofProgram, hload]
    rfl
  rw [run, Machine.memory_fresh]
  simp only [bind, Except.bind, hlisted]
  rfl

theorem step_at_line {before loaded : Machine} {program : List UInt8} {l : Line}
    (h : before.load program = .ok loaded) (hl : loaded.memory.word? l.address = some l.word) :
    { loaded with pc := UInt16.ofNat l.address }.step.2 = .ok (.unknown l.word) ↔
      disassemble l.word = "" := by
  obtain ⟨-, rfl⟩ := Machine.load_eq_ok_iff.1 h
  have haddress : l.address < 4095 := by
    apply Nat.lt_of_not_le
    intro hle
    rw [Memory.word?_eq_none.2 hle] at hl
    cases hl
  have hpc : (UInt16.ofNat l.address).toNat = l.address := by
    rw [UInt16.toNat_ofNat']
    omega
  rw [disassemble_eq_empty_iff]
  apply Machine.step_eq_unknown_iff
  · rfl
  · rw [Machine.wordAt_eq_ok_iff, hpc]
    exact hl

end Listing

/-- Printer, decoder and interpreter agree on every word. In any state that can fetch one, a
step calls the word unknown exactly when it has no text and does not decode, and then moves
past it and does nothing else. Any other word is carried out, or fails as its instruction
may. So the lines of a listing that have no mnemonic are those at which the loaded machine
would meet an unknown word. -/
theorem disassembly_exact :
    (∀ m : Machine, m.keypad.pending = none → m.pc.toNat ≤ 0xFFE →
      ∃ w, m.memory.word? m.pc.toNat = some w ∧
        ((∃ opcode, m.step.2 = .ok (.unknown opcode)) ↔ disassemble w = "") ∧
        (disassemble w = "" ↔ Instruction.decode w = .unknown w) ∧
        (∀ opcode, m.step.2 = .ok (.unknown opcode) →
          opcode = w ∧ m.step.1 = { m with pc := m.pc + 2 } ∧
            (m.pc + 2).toNat = m.pc.toNat + 2) ∧
        (disassemble w ≠ "" →
          m.step.2 = .ok .executed ∨
          (w = 0x00EE ∧ m.stack = [] ∧ m.step.2 = .error .stackUnderflow) ∨
          ∃ x, (w = .ofNibbles 0xF x 0x5 0x5 ∨ w = .ofNibbles 0xF x 0x6 0x5) ∧
            0xFFF < m.index.toNat + x.val ∧
            m.step.2 = .error (.outOfBounds (m.index.toNat + x.val)))) ∧
    ∀ (options : ListingOptions) (program : List UInt8) (before loaded : Machine),
      before.load program = .ok loaded →
      ∃ lines : List Listing.Line,
        Listing.run options (.ok program) = ⟨0, lines.map Listing.Line.text, ""⟩ ∧
        ∀ l ∈ lines,
          loaded.memory.word? l.address = some l.word ∧
          (l.text = Hex.text 4 l.address ++ ": " ++ Hex.text 4 l.word.toNat ++ " " ↔
            { loaded with pc := UInt16.ofNat l.address }.step.2 = .ok (.unknown l.word)) := by
  constructor
  · intro m hp hpc
    obtain ⟨w, hword⟩ : ∃ w, m.memory.word? m.pc.toNat = some w := by
      apply Option.ne_none_iff_exists'.1
      intro hnone
      have hfar := Memory.word?_eq_none.1 hnone
      omega
    have hw := Machine.wordAt_eq_ok_iff.2 hword
    refine ⟨w, hword, ?_, disassemble_eq_empty_iff, fun opcode hstep ↦ ?_,
      Machine.step_of_disassembled hp hw⟩
    · rw [disassemble_eq_empty_iff, ← Instruction.exists_decode_unknown_iff]
      exact exists_congr fun u ↦ Machine.step_eq_unknown_iff hp hw
    · have hdecode := (Machine.step_eq_unknown_iff hp hw).1 hstep
      rw [Machine.step_of_unknown hp hw hdecode]
      exact ⟨Instruction.decode_unknown hdecode, rfl, Machine.advance_pc hw⟩
  · intro options program before loaded hload
    refine ⟨_, Listing.run_of_load hload options, fun l hl ↦ ?_⟩
    have hword := Listing.word?_of_mem_lines hl
    exact ⟨hword, Listing.Line.text_eq_iff.trans (Listing.step_at_line hload hword).symm⟩

/-- A gap among the system words, met by a machine and by a listing. -/
theorem disassembly_exact_gap :
    let m := Machine.fresh [0x00, 0xE1] (.ofSeed 0)
    m.memory.word? m.pc.toNat = some 0x00E1 ∧ disassemble 0x00E1 = "" ∧
    m.step.2 = .ok (.unknown 0x00E1) ∧ m.step.1 = { m with pc := m.pc + 2 } ∧
    ∃ lines : List Listing.Line,
      Listing.run ⟨"", none, none⟩ (.ok [0x00, 0xE1]) = ⟨0, lines.map Listing.Line.text, ""⟩ ∧
      ∀ l ∈ lines, m.memory.word? l.address = some l.word := by
  intro m
  have hstart : m.memory.word? m.pc.toNat = some 0x00E1 ∧ m.pc.toNat ≤ 0xFFE := by
    decide +kernel
  obtain ⟨hword, hpc⟩ := hstart
  have hgap : disassemble 0x00E1 = "" := by decide +kernel
  obtain ⟨hsteps, hlistings⟩ := disassembly_exact
  obtain ⟨w, hw, hunknown, -, hmoves, -⟩ := hsteps m rfl hpc
  cases hword.symm.trans hw
  obtain ⟨opcode, hopcode⟩ := hunknown.2 hgap
  obtain ⟨hsame, hafter, -⟩ := hmoves opcode hopcode
  have hload : (Machine.ofSeed 0).load [0x00, 0xE1] = .ok m :=
    Machine.load_of_fits (by decide) _
  obtain ⟨lines, hlines, hshown⟩ := hlistings ⟨"", none, none⟩ [0x00, 0xE1] (.ofSeed 0) m hload
  exact ⟨hword, hgap, hsame ▸ hopcode, hafter, lines, hlines, fun l hl ↦ (hshown l hl).1⟩

end Phosphor
