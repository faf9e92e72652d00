import Mathlib.Data.List.Forall2
import Phosphor.Proofs.MemoryListing

namespace Phosphor

theorem Numeral.natural?_digits {width n : Nat} (hw : 0 < width) (h : n < 16 ^ width) :
    natural? 16 (Hex.digits width n) = some n := by
  have hne : Hex.digits width n ≠ [] := by
    rw [← List.length_pos_iff, Hex.digits_length]
    exact hw
  have hread := foldlM_digits width n
  rw [Nat.mod_eq_of_lt h] at hread
  unfold natural?
  split
  · rename_i hnil
    exact absurd hnil hne
  · exact hread

namespace Assembly

def separates (c : Char) : Bool := c == ' ' || c == ','

def tokens (cs : List Char) : List (List Char) :=
  (cs.splitOnP separates).filter fun t ↦ !t.isEmpty

def IsToken (cs : List Char) : Prop := cs ≠ [] ∧ ∀ c ∈ cs, separates c = false

def symbol? : List Char → Option Operand
  | ['V', c] => (Numeral.digit? 16 c).map fun n ↦ .register (Fin.ofNat 16 n)
  | ['I'] => some .index
  | ['[', 'I', ']'] => some .memory
  | ['D', 'T'] => some .delayTimer
  | ['S', 'T'] => some .soundTimer
  | ['K'] => some .key
  | ['F'] => some .font
  | ['B'] => some .decimal
  | _ => none

/-- Numbers are told apart by their width. One digit is a height if the instruction has one. -/
def operand? (height : Bool) (cs : List Char) : Option Operand :=
  match Numeral.natural? 16 cs, cs.length with
  | some n, 1 => if height then some (.height (Fin.ofNat 16 n)) else symbol? cs
  | some n, 2 => some (.byte (UInt8.ofNat n))
  | some n, 3 => some (.address (Fin.ofNat 4096 n))
  | _, _ => symbol? cs

/-- The operand that a shift does not write is taken as zero. -/
def instruction? : String → List Operand → Option Instruction
  | "NOP", [] => some .idle
  | "CLS", [] => some .clearScreen
  | "RET", [] => some .ret
  | "JP", [.address a] => some (.jump a)
  | "JP", [.register _, .address a] => some (.jumpPlusV0 a)
  | "CALL", [.address a] => some (.call a)
  | "SE", [.register x, .byte v] => some (.skipEqual x v)
  | "SNE", [.register x, .byte v] => some (.skipNotEqual x v)
  | "SE", [.register x, .register y] => some (.skipSame x y)
  | "SNE", [.register x, .register y] => some (.skipDifferent x y)
  | "LD", [.register x, .byte v] => some (.setRegister x v)
  | "ADD", [.register x, .byte v] => some (.addImmediate x v)
  | "LD", [.register x, .register y] => some (.arithmetic x y .copy)
  | "OR", [.register x, .register y] => some (.arithmetic x y .or)
  | "AND", [.register x, .register y] => some (.arithmetic x y .and)
  | "XOR", [.register x, .register y] => some (.arithmetic x y .xor)
  | "ADD", [.register x, .register y] => some (.arithmetic x y .add)
  | "SUB", [.register x, .register y] => some (.arithmetic x y .sub)
  | "SHR", [.register x] => some (.arithmetic x 0 .shiftRight)
  | "SUBN", [.register x, .register y] => some (.arithmetic x y .subFrom)
  | "SHL", [.register x] => some (.arithmetic x 0 .shiftLeft)
  | "RND", [.register x, .byte v] => some (.random x v)
  | "LD", [.index, .address a] => some (.setIndex a)
  | "ADD", [.index, .register x] => some (.addIndex x)
  | "DRW", [.register x, .register y, .height n] => some (.draw x y n)
  | "SKP", [.register x] => some (.skipIfDown x)
  | "SKNP", [.register x] => some (.skipIfUp x)
  | "LD", [.register x, .key] => some (.awaitKey x)
  | "LD", [.register x, .delayTimer] => some (.readDelay x)
  | "LD", [.delayTimer, .register x] => some (.setDelay x)
  | "LD", [.soundTimer, .register x] => some (.setSound x)
  | "LD", [.font, .register x] => some (.glyph x)
  | "LD", [.decimal, .register x] => some (.decimal x)
  | "LD", [.memory, .register x] => some (.storeRegisters x)
  | "LD", [.register x, .memory] => some (.loadRegisters x)
  | _, _ => none

def ofTokens? : List (List Char) → Option Instruction
  | [] => none
  | name :: operands =>
    (operands.mapM (operand? (String.ofList name == "DRW"))).bind
      (instruction? (String.ofList name))

def assemble? (text : String) : Option Word :=
  (ofTokens? (tokens text.toList)).map Instruction.encode

section

variable {t rest : List Char} {c : Char}

theorem tokens_of_isToken (h : IsToken t) : tokens t = [t] := by
  have hne : t.isEmpty = false := List.isEmpty_eq_false_iff.2 h.1
  rw [tokens, List.splitOnP_eq_singleton h.2]
  simp only [List.filter_cons, hne, Bool.not_false, if_true, List.filter_nil]

theorem tokens_append (h : IsToken t) (hc : separates c = true) :
    tokens (t ++ c :: rest) = t :: tokens rest := by
  have hne : t.isEmpty = false := List.isEmpty_eq_false_iff.2 h.1
  rw [tokens, List.splitOnP_append_cons_of_forall_mem h.2 c hc, tokens]
  simp only [List.filter_cons, hne, Bool.not_false, if_true]

theorem tokens_cons (hc : separates c = true) : tokens (c :: rest) = tokens rest := by
  have hnone : ∀ x ∈ ([] : List Char), separates x = false := nofun
  have hsplit := List.splitOnP_append_cons_of_forall_mem hnone c hc rest
  rw [List.nil_append] at hsplit
  rw [tokens, hsplit, tokens]
  rfl

theorem tokens_intercalate {ts : List (List Char)} (h : ∀ t ∈ ts, IsToken t) (hne : ts ≠ []) :
    tokens ([',', ' '].intercalate ts) = ts := by
  induction ts with
  | nil => exact absurd rfl hne
  | cons t ts ih =>
    obtain ⟨ht, hrest⟩ := List.forall_mem_cons.1 h
    cases ts with
    | nil =>
      rw [List.intercalate_singleton]
      exact tokens_of_isToken ht
    | cons t' ts =>
      rw [List.intercalate_cons_cons, List.append_assoc, List.cons_append, List.cons_append,
        List.nil_append, tokens_append ht rfl, tokens_cons rfl,
        ih hrest (List.cons_ne_nil t' ts)]

end

section

variable {cs : List Char}

theorem isToken_of_all (h : (!cs.isEmpty && cs.all fun c ↦ !separates c) = true) :
    IsToken cs := by
  obtain ⟨hne, hall⟩ := Bool.and_eq_true_iff.1 h
  constructor
  · exact List.isEmpty_eq_false_iff.1 (Bool.not_eq_eq_eq_not.1 hne)
  · exact fun c hc ↦ Bool.not_eq_eq_eq_not.1 (List.all_eq_true.1 hall c hc)

theorem isToken_digits {width n : Nat} (hw : 0 < width) : IsToken (Hex.digits width n) := by
  have hdigits : IsToken "0123456789ABCDEF".toList := isToken_of_all rfl
  constructor
  · rw [← List.length_pos_iff, Hex.digits_length]
    exact hw
  · exact fun c hc ↦ hdigits.2 c (Hex.mem_digits hc)

theorem IsToken.cons {c : Char} (hc : separates c = false) (h : IsToken cs) : IsToken (c :: cs) :=
  ⟨List.cons_ne_nil c cs, List.forall_mem_cons.2 ⟨hc, h.2⟩⟩

end

end Assembly

namespace Operand

open Assembly

theorem toList_text_register (x : Nibble) : (register x).text.toList = 'V' :: Hex.digits 1 x.val := by
  rw [text, Hex.text_of_lt (by decide) x.isLt]
  simp only [String.toList_append, String.toList_ofList]
  rfl

theorem toList_text_byte (value : UInt8) :
    (byte value).text.toList = Hex.digits 2 value.toNat := by
  rw [text, Hex.text_of_lt (by decide) value.toNat_lt, String.toList_ofList]

theorem toList_text_address (a : Address) : (address a).text.toList = Hex.digits 3 a.val := by
  rw [text, Hex.text_of_lt (by decide) a.isLt, String.toList_ofList]

theorem toList_text_height (n : Nibble) : (height n).text.toList = Hex.digits 1 n.val := by
  rw [text, Hex.text_of_lt (by decide) n.isLt, String.toList_ofList]

theorem isToken_text (o : Operand) : IsToken o.text.toList := by
  cases o with
  | register x =>
    rw [toList_text_register]
    exact (isToken_digits (by decide)).cons rfl
  | byte value =>
    rw [toList_text_byte]
    exact isToken_digits (by decide)
  | address a =>
    rw [toList_text_address]
    exact isToken_digits (by decide)
  | height n =>
    rw [toList_text_height]
    exact isToken_digits (by decide)
  | _ => exact isToken_of_all rfl

def fits (withHeight : Bool) : Operand → Bool
  | .height _ => withHeight
  | .font | .decimal => !withHeight
  | _ => true

/-- Only a height and the letters of the two digit forms could be mistaken for each other. -/
theorem operand?_text {withHeight : Bool} {o : Operand} (h : o.fits withHeight = true) :
    operand? withHeight o.text.toList = some o := by
  cases o with
  | register x =>
    have hdigit : Numeral.digit? 16 (Hex.digit (x.val % 16)) = some (x.val % 16) :=
      Numeral.digit?_digit (Nat.mod_lt _ (by decide))
    rw [toList_text_register]
    change (Numeral.digit? 16 (Hex.digit (x.val % 16))).map _ = _
    rw [hdigit, Nat.mod_eq_of_lt x.isLt]
    exact congrArg (fun k ↦ some (register k)) (Fin.ofNat_val_eq_self x)
  | byte value =>
    have hnumber := Numeral.natural?_digits (show 0 < 2 by decide) value.toNat_lt
    rw [toList_text_byte, operand?, hnumber, Hex.digits_length]
    exact congrArg (fun v ↦ some (byte v)) UInt8.ofNat_toNat
  | address a =>
    have hnumber := Numeral.natural?_digits (show 0 < 3 by decide) a.isLt
    rw [toList_text_address, operand?, hnumber, Hex.digits_length]
    exact congrArg (fun k ↦ some (address k)) (Fin.ofNat_val_eq_self a)
  | height n =>
    have hnumber := Numeral.natural?_digits (show 0 < 1 by decide) n.isLt
    have hheight : withHeight = true := h
    rw [toList_text_height, operand?, hnumber, Hex.digits_length, hheight]
    exact congrArg (fun k ↦ some (height k)) (Fin.ofNat_val_eq_self n)
  | font | decimal =>
    have hheight : withHeight = false := by simpa only [fits, Bool.not_eq_true'] using h
    subst hheight
    decide
  | _ => cases withHeight <;> decide

end Operand

/-- What the text of an instruction says of it: all, but for the register that a shift does not
read. -/
def Instruction.written : Instruction → Instruction
  | .arithmetic x _ .shiftRight => .arithmetic x 0 .shiftRight
  | .arithmetic x _ .shiftLeft => .arithmetic x 0 .shiftLeft
  | i => i

namespace Assembly

theorem tokens_text {m : Mnemonic} (h : IsToken m.name.toList) :
    tokens m.text.toList = m.name.toList :: m.operands.map fun o ↦ o.text.toList := by
  unfold Mnemonic.text
  split
  · rename_i hnone
    rw [hnone, tokens_of_isToken h]
    rfl
  · rename_i hsome
    have hparts : ∀ t ∈ m.operands.map fun o ↦ o.text.toList, IsToken t := by
      intro t ht
      obtain ⟨o, -, rfl⟩ := List.mem_map.1 ht
      exact o.isToken_text
    have hne : (m.operands.map fun o ↦ o.text.toList) ≠ [] := mt List.map_eq_nil_iff.1 hsome
    have htext : (m.name ++ " " ++ ", ".intercalate (m.operands.map Operand.text)).toList =
        m.name.toList ++ ' ' :: [',', ' '].intercalate (m.operands.map fun o ↦ o.text.toList) := by
      rw [String.toList_append, String.toList_append, String.toList_intercalate, List.map_map,
        List.append_assoc]
      rfl
    rw [htext, tokens_append h rfl, tokens_intercalate hparts hne]

theorem mapM_operand? {withHeight : Bool} {operands : List Operand}
    (h : operands.all (Operand.fits withHeight) = true) :
    (operands.map fun o ↦ o.text.toList).mapM (operand? withHeight) = some operands := by
  have hread := mapM_map_of_forall fun o ho ↦ Operand.operand?_text (List.all_eq_true.1 h o ho)
  rwa [List.map_id'] at hread

theorem instruction?_mnemonic {i : Instruction} {m : Mnemonic} (h : i.mnemonic? = some m) :
    IsToken m.name.toList ∧
      m.operands.all (Operand.fits (m.name == "DRW")) = true ∧
      instruction? m.name m.operands = some i.written := by
  cases i with
  | unknown w => cases h
  | arithmetic x y op =>
    cases op <;> cases h <;> dsimp only [Arithmetic.mnemonic] <;>
      exact ⟨isToken_of_all rfl, rfl, rfl⟩
  | _ =>
    cases h
    dsimp only
    exact ⟨isToken_of_all rfl, rfl, rfl⟩

theorem ofTokens?_text {i : Instruction} (h : i.text ≠ "") :
    ofTokens? (tokens i.text.toList) = some i.written := by
  cases hm : i.mnemonic? with
  | none => exact absurd (Instruction.text_eq_empty_iff.2 (Instruction.mnemonic?_eq_none.1 hm)) h
  | some m =>
    obtain ⟨hname, hfits, hform⟩ := instruction?_mnemonic hm
    have htext : i.text = m.text := by rw [Instruction.text, hm]; rfl
    rw [htext, tokens_text hname, ofTokens?, String.ofList_toList, mapM_operand? hfits]
    exact hform

end Assembly

namespace Instruction

theorem decode_injective : Function.Injective decode :=
  Function.LeftInverse.injective encode_decode

theorem written_cases (i : Instruction) :
    i.written = i ∨ ∃ (x y : Nibble) (op : Arithmetic), (op = .shiftRight ∨ op = .shiftLeft) ∧
      i = .arithmetic x y op ∧ i.written = .arithmetic x 0 op := by
  cases i with
  | arithmetic x y op =>
    cases op with
    | shiftRight => exact .inr ⟨x, y, .shiftRight, .inl rfl, rfl, rfl⟩
    | shiftLeft => exact .inr ⟨x, y, .shiftLeft, .inr rfl, rfl, rfl⟩
    | _ => exact .inl rfl
  | _ => exact .inl rfl

theorem written_written (i : Instruction) : i.written.written = i.written := by
  rcases i.written_cases with h | ⟨x, y, op, rfl | rfl, -, h⟩
  · rw [h, h]
  · rw [h]
    rfl
  · rw [h]
    rfl

theorem text_written (i : Instruction) : i.written.text = i.text := by
  rcases i.written_cases with h | ⟨x, y, op, rfl | rfl, rfl, -⟩
  · rw [h]
  · rfl
  · rfl

end Instruction

namespace Word

/-- The words are the same, or both shift one register in one direction. -/
def SameButUnread (w v : Word) : Prop :=
  w = v ∨ ∃ x y z n : Nibble, (n = 0x6 ∨ n = 0xE) ∧
    w = .ofNibbles 0x8 x y n ∧ v = .ofNibbles 0x8 x z n

theorem sameButUnread_of_arithmetic {w v : Word} {x y z : Nibble} {op : Arithmetic}
    (hop : op = .shiftRight ∨ op = .shiftLeft)
    (hw : Instruction.decode w = .arithmetic x y op)
    (hv : Instruction.decode v = .arithmetic x z op) : w.SameButUnread v := by
  have hencode (y : Nibble) : ∀ u, Instruction.arithmetic x y op ≠ .unknown u := nofun
  refine .inr ⟨x, y, z, op.code, ?_, (Instruction.decode_eq_iff (hencode y)).1 hw,
    (Instruction.decode_eq_iff (hencode z)).1 hv⟩
  rcases hop with rfl | rfl
  · exact .inl rfl
  · exact .inr rfl

theorem sameButUnread_iff {w v : Word} :
    w.SameButUnread v ↔ (Instruction.decode w).written = (Instruction.decode v).written := by
  constructor
  · intro h
    have hwritten (x y : Nibble) (op : Arithmetic) :
        (Instruction.decode (.ofNibbles 0x8 x y op.code)).written =
          (Instruction.arithmetic x y op).written :=
      congrArg Instruction.written (Instruction.decode_encode (i := .arithmetic x y op) nofun)
    rcases h with rfl | ⟨x, y, z, n, rfl | rfl, rfl, rfl⟩
    · rfl
    · exact (hwritten x y .shiftRight).trans (hwritten x z .shiftRight).symm
    · exact (hwritten x y .shiftLeft).trans (hwritten x z .shiftLeft).symm
  · intro h
    rcases (Instruction.decode w).written_cases with hw | ⟨x, y, op, hop, hw, hw'⟩ <;>
      rcases (Instruction.decode v).written_cases with hv | ⟨x', z, op', hop', hv, hv'⟩
    · rw [hw, hv] at h
      exact .inl (Instruction.decode_injective h)
    · rw [hw, hv'] at h
      exact sameButUnread_of_arithmetic hop' h hv
    · rw [hw', hv] at h
      exact sameButUnread_of_arithmetic hop hw h.symm
    · rw [hw', hv'] at h
      cases h
      exact sameButUnread_of_arithmetic hop hw hv

end Word

section

variable {w v : Word}

theorem disassemble_eq_iff (hw : disassemble w ≠ "") (hv : disassemble v ≠ "") :
    disassemble w = disassemble v ↔ w.SameButUnread v := by
  rw [Word.sameButUnread_iff]
  constructor
  · intro h
    have hread : Assembly.ofTokens? (Assembly.tokens (disassemble w).toList) =
        some (Instruction.decode w).written := Assembly.ofTokens?_text hw
    rw [h] at hread
    exact Option.some.inj (hread.symm.trans (Assembly.ofTokens?_text hv))
  · intro h
    rw [disassemble, ← Instruction.text_written, h, Instruction.text_written, disassemble]

theorem assemble?_disassemble (hw : disassemble w ≠ "") :
    Assembly.assemble? (disassemble w) = some (Instruction.decode w).written.encode := by
  have hread := Assembly.ofTokens?_text hw
  rw [Assembly.assemble?, disassemble, hread, Option.map_some]

theorem sameButUnread_encode_written (hw : disassemble w ≠ "") :
    w.SameButUnread (Instruction.decode w).written.encode := by
  have hknown : ∀ u, (Instruction.decode w).written ≠ .unknown u := by
    intro u hu
    rw [disassemble, ← Instruction.text_written] at hw
    exact hw (Instruction.text_eq_empty_iff.2 ⟨u, hu⟩)
  rw [Word.sameButUnread_iff, Instruction.decode_encode hknown, Instruction.written_written]

end

/-- Different words read differently, and mnemonics tell words apart up to the nibble that a
shift does not read. So a listing can be assembled again, up to these nibbles. -/
theorem mnemonics_identify :
    Function.Injective Instruction.decode ∧
    (∀ w v : Word, disassemble w ≠ "" → disassemble v ≠ "" →
      (disassemble w = disassemble v ↔ w.SameButUnread v)) ∧
    ∀ ws : List Word, (∀ w ∈ ws, disassemble w ≠ "") →
      ∃ vs, (ws.map disassemble).mapM Assembly.assemble? = some vs ∧
        List.Forall₂ Word.SameButUnread ws vs := by
  refine ⟨Instruction.decode_injective, fun w v hw hv ↦ disassemble_eq_iff hw hv, fun ws hws ↦ ?_⟩
  refine ⟨_, mapM_map_of_forall fun w hw ↦ assemble?_disassemble (hws w hw), ?_⟩
  rw [List.forall₂_map_right_iff, List.forall₂_same]
  exact fun w hw ↦ sameButUnread_encode_written (hws w hw)

/-- Two shifts that differ in the register that is not read, and two forms of `LD` with the
letter `B` for the digits, for a register and in a value. -/
theorem mnemonics_identify_forms :
    let words : List Word := [0x8AB6, 0x8AC6, 0xFB33, 0x6B0B]
    (∀ w ∈ words, disassemble w ≠ "") ∧ disassemble 0x8AB6 = disassemble 0x8AC6 ∧
      disassemble 0xFB33 ≠ disassemble 0x6B0B ∧
      ∃ vs, (words.map disassemble).mapM Assembly.assemble? = some vs ∧
        List.Forall₂ Word.SameButUnread words vs := by
  intro words
  have hknown : ∀ w ∈ words, Instruction.decode w ≠ .unknown w := by
    simp only [words, List.forall_mem_cons, List.not_mem_nil, false_imp_iff, implies_true, and_true]
    decide
  have htexts : ∀ w ∈ words, disassemble w ≠ "" := fun w hw h ↦
    hknown w hw (disassemble_eq_empty_iff.1 h)
  obtain ⟨-, hsame, hassembled⟩ := mnemonics_identify
  have hshift : Word.SameButUnread 0x8AB6 0x8AC6 :=
    .inr ⟨0xA, 0xB, 0xC, 0x6, .inl rfl, by decide, by decide⟩
  refine ⟨htexts, ?_, fun h ↦ ?_, hassembled words htexts⟩
  · exact (hsame 0x8AB6 0x8AC6 (htexts _ (by decide)) (htexts _ (by decide))).2 hshift
  · have hforms := (hsame 0xFB33 0x6B0B (htexts _ (by decide)) (htexts _ (by decide))).1 h
    rcases hforms with heq | ⟨x, y, z, n, -, hdigits, -⟩
    · revert heq
      decide
    · have hlead := Word.lead_ofNibbles 0x8 x y n
      rw [← hdigits] at hlead
      revert hlead
      decide

end Phosphor
