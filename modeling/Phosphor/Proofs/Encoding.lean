import Phosphor.Instruction.Decode

namespace Phosphor

namespace Word

def ofNibbles (a b c d : Nibble) : Word :=
  UInt16.ofNat (a.val * 4096 + b.val * 256 + c.val * 16 + d.val)

def ofByte (a b : Nibble) (value : UInt8) : Word :=
  UInt16.ofNat (a.val * 4096 + b.val * 256 + value.toNat)

def ofAddress (a : Nibble) (address : Address) : Word :=
  UInt16.ofNat (a.val * 4096 + address.val)

section

variable (a b c d : Nibble) (value : UInt8) (target : Address)

theorem toNat_ofNibbles :
    (ofNibbles a b c d).toNat = a.val * 4096 + b.val * 256 + c.val * 16 + d.val := by
  have ha := a.isLt
  have hb := b.isLt
  have hc := c.isLt
  have hd := d.isLt
  simp only [ofNibbles, UInt16.toNat_ofNat']
  omega

theorem toNat_ofByte : (ofByte a b value).toNat = a.val * 4096 + b.val * 256 + value.toNat := by
  have ha := a.isLt
  have hb := b.isLt
  have hv := value.toNat_lt
  simp only [ofByte, UInt16.toNat_ofNat']
  omega

theorem toNat_ofAddress : (ofAddress a target).toNat = a.val * 4096 + target.val := by
  have ha := a.isLt
  have hn := target.isLt
  simp only [ofAddress, UInt16.toNat_ofNat']
  omega

theorem lead_ofNibbles : (ofNibbles a b c d).toNat / 4096 = a.val := by
  rw [toNat_ofNibbles]
  omega

theorem lead_ofByte : (ofByte a b value).toNat / 4096 = a.val := by
  have hv := value.toNat_lt
  rw [toNat_ofByte]
  omega

theorem lead_ofAddress : (ofAddress a target).toNat / 4096 = a.val := by
  rw [toNat_ofAddress]
  omega

theorem nibble_two_ofNibbles : nibble (ofNibbles a b c d) 2 = b := by
  apply Fin.ext
  simp only [nibble, toNat_ofNibbles]
  omega

theorem nibble_one_ofNibbles : nibble (ofNibbles a b c d) 1 = c := by
  apply Fin.ext
  simp only [nibble, toNat_ofNibbles]
  omega

theorem nibble_zero_ofNibbles : nibble (ofNibbles a b c d) 0 = d := by
  apply Fin.ext
  simp only [nibble, toNat_ofNibbles]
  omega

theorem nibble_two_ofByte : nibble (ofByte a b value) 2 = b := by
  have hv := value.toNat_lt
  apply Fin.ext
  simp only [nibble, toNat_ofByte]
  omega

theorem mod_ofNibbles : (ofNibbles a b c d).toNat % 256 = c.val * 16 + d.val := by
  rw [toNat_ofNibbles]
  omega

theorem digit_ofNibbles : (ofNibbles a b c d).toNat % 16 = d.val := by
  rw [toNat_ofNibbles]
  omega

theorem low_ofByte : low (ofByte a b value) = value := by
  have hv := value.toNat_lt
  apply UInt8.toNat_inj.1
  simp only [low, toNat_ofByte, UInt8.toNat_ofNat']
  omega

theorem address_ofAddress : address (ofAddress a target) = target := by
  apply Fin.ext
  simp only [address, toNat_ofAddress]
  omega

end

theorem ofNibbles_eq {a b c d : Nibble} {w : Word}
    (h : w.toNat = a.val * 4096 + b.val * 256 + c.val * 16 + d.val) : ofNibbles a b c d = w :=
  UInt16.toNat_inj.1 ((toNat_ofNibbles a b c d).trans h.symm)

theorem ofByte_low {a b : Nibble} {w : Word}
    (h : w.toNat = a.val * 4096 + b.val * 256 + w.toNat % 256) : ofByte a b (low w) = w := by
  apply UInt16.toNat_inj.1
  rw [toNat_ofByte, low, UInt8.toNat_ofNat', Nat.mod_mod_of_dvd _ (by decide)]
  exact h.symm

theorem ofAddress_address {a : Nibble} {w : Word}
    (h : w.toNat = a.val * 4096 + w.toNat % 4096) : ofAddress a (address w) = w :=
  UInt16.toNat_inj.1 ((toNat_ofAddress a (address w)).trans h.symm)

end Word

def Arithmetic.code : Arithmetic → Nibble
  | .copy => 0x0
  | .or => 0x1
  | .and => 0x2
  | .xor => 0x3
  | .add => 0x4
  | .sub => 0x5
  | .shiftRight => 0x6
  | .subFrom => 0x7
  | .shiftLeft => 0xE

theorem Arithmetic.ofCode?_code (op : Arithmetic) : ofCode? op.code.val = some op := by
  cases op <;> rfl

theorem Arithmetic.code_of_ofCode? {n : Nat} {op : Arithmetic} (h : ofCode? n = some op) :
    op.code.val = n := by
  unfold ofCode? at h
  split at h <;> simp_all <;> subst op <;> rfl

namespace Instruction

open Word

def encode : Instruction → Word
  | .idle => 0x0000
  | .clearScreen => 0x00E0
  | .ret => 0x00EE
  | .jump target => ofAddress 0x1 target
  | .call target => ofAddress 0x2 target
  | .skipEqual x value => ofByte 0x3 x value
  | .skipNotEqual x value => ofByte 0x4 x value
  | .skipSame x y => ofNibbles 0x5 x y 0x0
  | .setRegister x value => ofByte 0x6 x value
  | .addImmediate x value => ofByte 0x7 x value
  | .arithmetic x y op => ofNibbles 0x8 x y op.code
  | .skipDifferent x y => ofNibbles 0x9 x y 0x0
  | .setIndex value => ofAddress 0xA value
  | .jumpPlusV0 base => ofAddress 0xB base
  | .random x mask => ofByte 0xC x mask
  | .draw x y height => ofNibbles 0xD x y height
  | .skipIfDown x => ofNibbles 0xE x 0x9 0xE
  | .skipIfUp x => ofNibbles 0xE x 0xA 0x1
  | .readDelay x => ofNibbles 0xF x 0x0 0x7
  | .awaitKey x => ofNibbles 0xF x 0x0 0xA
  | .setDelay x => ofNibbles 0xF x 0x1 0x5
  | .setSound x => ofNibbles 0xF x 0x1 0x8
  | .addIndex x => ofNibbles 0xF x 0x1 0xE
  | .glyph x => ofNibbles 0xF x 0x2 0x9
  | .decimal x => ofNibbles 0xF x 0x3 0x3
  | .storeRegisters x => ofNibbles 0xF x 0x5 0x5
  | .loadRegisters x => ofNibbles 0xF x 0x6 0x5
  | .unknown w => w

theorem encode_decodeSystem (w : Word) : encode (decodeSystem w) = w := by
  unfold decodeSystem
  split
  · rename_i h; exact h.symm
  · split
    · rename_i h; exact h.symm
    · split
      · rename_i h; exact h.symm
      · rfl

theorem encode_decodeArithmetic {w : Word} (h : w.toNat / 4096 = 0x8) :
    encode (decodeArithmetic w (nibble w 2) (nibble w 1)) = w := by
  unfold decodeArithmetic
  split
  · rename_i op hop
    have hcode := Arithmetic.code_of_ofCode? hop
    apply ofNibbles_eq
    simp only [nibble, hcode]
    omega
  · rfl

theorem encode_decodeKey {w : Word} (h : w.toNat / 4096 = 0xE) :
    encode (decodeKey w (nibble w 2)) = w := by
  unfold decodeKey
  split
  case h_3 => rfl
  all_goals
    rename_i hlow
    apply ofNibbles_eq
    simp only [nibble]
    omega

theorem encode_decodeTransfer {w : Word} (h : w.toNat / 4096 = 0xF) :
    encode (decodeTransfer w (nibble w 2)) = w := by
  unfold decodeTransfer
  split
  case h_10 => rfl
  all_goals
    rename_i hlow
    apply ofNibbles_eq
    simp only [nibble]
    omega

theorem encode_decode (w : Word) : encode (decode w) = w := by
  have hlt := w.toNat_lt
  unfold decode
  split
  case h_1 => exact encode_decodeSystem w
  case h_9 h => exact encode_decodeArithmetic h
  case h_15 h => exact encode_decodeKey h
  case h_2 | h_3 | h_11 | h_12 => exact ofAddress_address (by omega)
  case h_4 | h_5 | h_7 | h_8 | h_13 => exact ofByte_low (by simp only [nibble]; omega)
  case h_14 => exact ofNibbles_eq (by simp only [nibble]; omega)
  case h_6 h | h_10 h =>
    dsimp only
    split
    · rename_i hn
      have hn' : (w.toNat >>> (4 * 0)) % 16 = 0 := congrArg Fin.val hn
      exact ofNibbles_eq (by simp only [nibble]; omega)
    · rfl
  case h_16 =>
    have hlead : w.toNat / 4096 = 0xF := by
      simp only [imp_false] at *
      omega
    exact encode_decodeTransfer hlead

theorem decode_encode {i : Instruction} (hi : ∀ w, i ≠ .unknown w) : decode (encode i) = i := by
  cases i with
  | unknown w => exact absurd rfl (hi w)
  | idle | clearScreen | ret => rfl
  | arithmetic x y op =>
    have hop := Arithmetic.ofCode?_code op
    simp only [encode, decode, lead_ofNibbles, decodeArithmetic, digit_ofNibbles, hop,
      nibble_two_ofNibbles, nibble_one_ofNibbles]
    rfl
  | jump | call | setIndex | jumpPlusV0 =>
    simp only [encode, decode, lead_ofAddress, address_ofAddress]
    rfl
  | skipEqual | skipNotEqual | setRegister | addImmediate | random =>
    simp only [encode, decode, lead_ofByte, nibble_two_ofByte, low_ofByte]
    rfl
  | _ =>
    simp only [encode, decode, lead_ofNibbles, nibble_two_ofNibbles, nibble_one_ofNibbles,
      nibble_zero_ofNibbles, decodeKey, decodeTransfer, mod_ofNibbles]
    rfl

theorem decode_eq_iff {i : Instruction} (hi : ∀ w, i ≠ .unknown w) {w : Word} :
    decode w = i ↔ w = encode i := by
  constructor
  · intro h
    rw [← h, encode_decode]
  · intro h
    rw [h, decode_encode hi]

end Instruction

end Phosphor
