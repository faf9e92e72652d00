namespace Phosphor

/-- One line of the picture. Column zero is the most significant bit. -/
abbrev Row := BitVec 64

abbrev Screen := Vector Row 32

namespace Screen

def width : Nat := 64

def height : Nat := 32

def blank : Screen := Vector.replicate 32 0#64

/-- Cells outside the grid count as dark. -/
def lit (s : Screen) (x y : Nat) : Bool :=
  match s[y]? with
  | some row => row.getMsbD x
  | none => false

/-- Eight sprite cells moved `x` columns to the right. What leaves the line is
dropped. -/
def spriteRow (x : Nat) (cells : UInt8) : Row := (cells.toBitVec ++ 0#56) >>> x

def mask (x y : Nat) (rows : List UInt8) : Screen :=
  Vector.ofFn fun line : Fin 32 ↦
    if y ≤ line.val then ((rows[line.val - y]?).map (spriteRow x)).getD 0#64 else 0#64

def flip (s cells : Screen) : Screen := s.zipWith (· ^^^ ·) cells

def overlaps (s cells : Screen) : Bool := (s.zipWith (· &&& ·) cells).any (· != 0#64)

def litColumns (row : Row) : List Nat := (List.range 64).filter fun x ↦ row.getMsbD x

/-- The lit cells as `(x, y)`, line by line from the top, each line from the
left. -/
def litCells (s : Screen) : List (Nat × Nat) :=
  s.toList.zipIdx.flatMap fun line ↦ (litColumns line.1).map fun x ↦ (x, line.2)

theorem getMsbD_spriteRow (x : Nat) (cells : UInt8) (px : Nat) :
    (spriteRow x cells).getMsbD px =
      (decide (px < 64) && decide (x ≤ px) && cells.toBitVec.getMsbD (px - x)) := by
  simp only [spriteRow, BitVec.getMsbD_ushiftRight, BitVec.getMsbD_append, BitVec.getMsbD_zero]
  by_cases h : px < x
  · simp [h, Nat.not_le.2 h]
  · by_cases h8 : px - x < 8
    · simp [h, Nat.not_le.2 h8, Nat.not_lt.1 h]
    · simp [h, Nat.not_lt.1 h8]

theorem lt_of_lit {s : Screen} {x y : Nat} (h : s.lit x y = true) : x < 64 ∧ y < 32 := by
  unfold lit at h
  split at h
  · rename_i row hrow
    exact ⟨BitVec.lt_of_getMsbD h, (Vector.getElem?_eq_some_iff.1 hrow).1⟩
  · cases h

theorem lit_of_lt (s : Screen) (x : Nat) {y : Nat} (h : y < 32) : s.lit x y = s[y].getMsbD x := by
  rw [lit, Vector.getElem?_eq_getElem h]

theorem lit_ext {s t : Screen} (h : ∀ x y, s.lit x y = t.lit x y) : s = t := by
  apply Vector.ext
  intro y hy
  apply BitVec.eq_of_getMsbD_eq
  intro x _
  rw [← lit_of_lt s x hy, ← lit_of_lt t x hy]
  exact h x y

theorem lit_blank (x y : Nat) : blank.lit x y = false := by
  unfold lit blank
  split
  · rename_i row hrow
    obtain ⟨hy, rfl⟩ := Vector.getElem?_eq_some_iff.1 hrow
    rw [Vector.getElem_replicate, BitVec.getMsbD_zero]
  · rfl

theorem lit_flip (s cells : Screen) (x y : Nat) :
    (s.flip cells).lit x y = (s.lit x y ^^ cells.lit x y) := by
  unfold lit flip
  by_cases hy : y < 32
  · simp only [Vector.getElem?_eq_getElem hy, Vector.getElem_zipWith, BitVec.getMsbD_xor]
  · simp [Vector.getElem?_eq_none (Nat.not_lt.1 hy)]

end Screen

end Phosphor
