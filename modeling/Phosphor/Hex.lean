namespace Phosphor.Hex

def digit (d : Nat) : Char :=
  if d < 10 then Char.ofNat (48 + d) else Char.ofNat (55 + d)

def digits : Nat → Nat → List Char
  | 0, _ => []
  | width + 1, n => digits width (n / 16) ++ [digit (n % 16)]

def length (n : Nat) : Nat := n.log2 / 4 + 1

/-- Upper-case hexadecimal, with leading zeros up to `width` digits and more
digits when the number needs them. -/
def text (width n : Nat) : String := String.ofList (digits (max width (length n)) n)

theorem digits_length (width n : Nat) : (digits width n).length = width := by
  induction width generalizing n with
  | zero => rfl
  | succ width ih => simp [digits, ih]

theorem text_of_lt {width n : Nat} (hw : 0 < width) (hn : n < Nat.pow 16 width) :
    text width n = String.ofList (digits width n) := by
  have hl : length n ≤ width := by
    unfold length
    by_cases h0 : n = 0
    · subst h0
      exact hw
    · have hlog : n.log2 < 4 * width := by
        rw [Nat.log2_lt h0, Nat.pow_mul]
        exact hn
      omega
  rw [text, Nat.max_eq_left hl]

end Phosphor.Hex
