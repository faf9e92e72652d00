import Phosphor.Proofs.Sprite

namespace Phosphor

structure Sprite where
  x : Nat
  y : Nat
  rows : List UInt8
  deriving DecidableEq, Repr

namespace Screen

variable {x y px py : Nat} {rows : List UInt8}

theorem covers_iff :
    Covers x y rows px py ↔
      x ≤ px ∧ y ≤ py ∧ (rows[py - y]?).any (·.toBitVec.getMsbD (px - x)) = true := by
  constructor
  · intro h
    obtain ⟨hx, hy⟩ := le_of_covers h
    obtain ⟨r, c, cells, hr, -, hset, hxc, hyr⟩ := h
    refine ⟨hx, hy, ?_⟩
    rw [show py - y = r by omega, show px - x = c by omega, hr]
    exact hset
  · intro ⟨hx, hy, hset⟩
    obtain ⟨cells, hr, hbit⟩ := (Option.any_eq_true _ _).1 hset
    exact ⟨py - y, px - x, cells, hr, BitVec.lt_of_getMsbD hbit, hbit, by omega, by omega⟩

instance : Decidable (Covers x y rows px py) := decidable_of_iff _ covers_iff.symm

theorem lit_mask_of_lt (hx : px < 64) (hy : py < 32) :
    (mask x y rows).lit px py = decide (Covers x y rows px py) := by
  rw [Bool.eq_iff_iff, lit_mask, decide_eq_true_eq, and_iff_right hx, and_iff_right hy]

theorem overlaps_mask_iff {s : Screen} :
    s.overlaps (mask x y rows) = true ↔
      ∃ (px : Fin 64) (py : Fin 32), Covers x y rows px py ∧ s.lit px py = true := by
  rw [overlaps_iff]
  constructor
  · intro ⟨px, py, hmask, hlit⟩
    obtain ⟨hx, hy, hcovers⟩ := lit_mask.1 hmask
    exact ⟨⟨px, hx⟩, ⟨py, hy⟩, hcovers, hlit⟩
  · intro ⟨px, py, hcovers, hlit⟩
    exact ⟨px, py, lit_mask.2 ⟨px.isLt, py.isLt, hcovers⟩, hlit⟩

end Screen

namespace Framebuffer

section

variable (fb : Framebuffer) (x y : Nat) (rows : List UInt8)

theorem lit_draw (px py : Nat) :
    (fb.draw x y rows).1.screen.lit px py =
      (fb.screen.lit px py ^^ (Screen.mask x y rows).lit px py) :=
  Screen.lit_flip fb.screen (Screen.mask x y rows) px py

theorem draw_hits_iff :
    (fb.draw x y rows).2 = true ↔
      ∃ px py, (Screen.mask x y rows).lit px py = true ∧ fb.screen.lit px py = true :=
  Screen.overlaps_iff

end

/-- Drawing is pixelwise. Every cell of the grid is flipped if the sprite covers it and stays
as it was if not, the flag tells whether a covered cell was lit before, and the snapshots stay.
The picture and the flag are those of a loop over the cells of the sprite that stops at the
edges, and no sum in that loop overflows, wherever the corner of the sprite is. -/
theorem draw_pixelwise (fb : Framebuffer) (x y : UInt64) (rows : List UInt8) :
    let drawn := fb.draw x.toNat y.toNat rows
    (∀ (px : Fin 64) (py : Fin 32), drawn.1.screen.lit px py =
      (fb.screen.lit px py ^^ decide (Screen.Covers x.toNat y.toNat rows px py))) ∧
    (drawn.2 = true ↔ ∃ (px : Fin 64) (py : Fin 32),
      Screen.Covers x.toNat y.toNat rows px py ∧ fb.screen.lit px py = true) ∧
    drawn.1.history = fb.history ∧
    fb.strictDraw x.toNat y.toNat rows = .ok drawn := by
  intro drawn
  refine ⟨fun px py ↦ ?_, Screen.overlaps_mask_iff, rfl, ?_⟩
  · rw [lit_draw, Screen.lit_mask_of_lt px.isLt py.isLt]
  · exact fb.strictDraw_eq x.toNat_lt y.toNat_lt rows

def drawAll (fb : Framebuffer) : List Sprite → Framebuffer × List Bool
  | [] => (fb, [])
  | s :: sprites =>
    let drawn := fb.draw s.x s.y s.rows
    let rest := drawn.1.drawAll sprites
    (rest.1, drawn.2 :: rest.2)

def coverage (sprites : List Sprite) (px py : Nat) : Nat :=
  sprites.countP fun s ↦ (Screen.mask s.x s.y s.rows).lit px py

section

variable (fb : Framebuffer) (sprites : List Sprite)

theorem coverage_cons (s : Sprite) (px py : Nat) :
    coverage (s :: sprites) px py =
      ((Screen.mask s.x s.y s.rows).lit px py).toNat + coverage sprites px py := by
  rw [coverage, List.countP_cons, Nat.add_comm]
  cases (Screen.mask s.x s.y s.rows).lit px py <;> rfl

theorem history_drawAll : (fb.drawAll sprites).1.history = fb.history := by
  induction sprites generalizing fb with
  | nil => rfl
  | cons s sprites ih => exact ih (fb.draw s.x s.y s.rows).1

theorem lit_drawAll (px py : Nat) :
    (fb.drawAll sprites).1.screen.lit px py =
      (fb.screen.lit px py ^^ decide (coverage sprites px py % 2 = 1)) := by
  induction sprites generalizing fb with
  | nil => exact (Bool.xor_false _).symm
  | cons s sprites ih =>
    rw [drawAll, ih, lit_draw, coverage_cons, Bool.xor_assoc]
    congr 1
    cases (Screen.mask s.x s.y s.rows).lit px py with
    | false => rw [Bool.false_xor, Bool.toNat_false, Nat.zero_add]
    | true =>
      rw [Bool.true_xor, ← decide_not, decide_eq_decide, Bool.toNat_true]
      omega

theorem meets_iff {lit covered : Bool} {n : Nat} :
    ((covered = true ∧ lit = true) ∨ 2 ≤ (lit ^^ covered).toNat + n) ↔
      2 ≤ lit.toNat + (covered.toNat + n) := by
  cases lit with
  | false => simp only [Bool.false_eq_true, and_false, false_or, Bool.false_xor, Bool.toNat_false,
      Nat.zero_add]
  | true =>
    cases covered with
    | false => simp only [Bool.false_eq_true, false_and, false_or, Bool.xor_false, Bool.toNat_true,
        Bool.toNat_false, Nat.zero_add]
    | true =>
      refine iff_of_true (.inl ⟨rfl, rfl⟩) ?_
      rw [Bool.toNat_true]
      omega

/-- Some drawing meets a lit cell exactly when some cell is lit and covered, or covered by
two sprites of which the second finds what the first has lit. -/
theorem or_drawAll_iff :
    (fb.drawAll sprites).2.or = true ↔
      ∃ px py, 2 ≤ (fb.screen.lit px py).toNat + coverage sprites px py := by
  induction sprites generalizing fb with
  | nil =>
    refine iff_of_false nofun fun ⟨px, py, h⟩ ↦ ?_
    have hle := Bool.toNat_le (fb.screen.lit px py)
    exact absurd (Nat.le_trans h hle) (by decide)
  | cons s sprites ih =>
    rw [drawAll, List.or_cons, Bool.or_eq_true, ih, draw_hits_iff]
    simp only [← exists_or]
    refine exists_congr fun px ↦ exists_congr fun py ↦ ?_
    rw [lit_draw, coverage_cons]
    exact meets_iff

end

/-- The order of drawings makes no difference to the picture, nor to whether one of them meets
a lit cell. -/
theorem drawing_order_free {a b : List Sprite} (h : a.Perm b) (fb : Framebuffer) :
    (fb.drawAll a).1 = (fb.drawAll b).1 ∧ (fb.drawAll a).2.or = (fb.drawAll b).2.or := by
  have hcoverage (px py : Nat) : coverage a px py = coverage b px py := h.countP_eq _
  constructor
  · rw [Framebuffer.mk.injEq]
    refine ⟨Screen.lit_ext fun px py ↦ ?_, ?_⟩
    · rw [lit_drawAll, lit_drawAll, hcoverage]
    · rw [history_drawAll, history_drawAll]
  · rw [Bool.eq_iff_iff, or_drawAll_iff, or_drawAll_iff]
    simp only [hcoverage]

/-- Which of the drawings meets a lit cell does depend on the order. -/
theorem drawing_order_free_flags :
    let dot (x : Nat) : Sprite := ⟨x, 31, [0x80, 0xFF]⟩
    let a := [dot 0, dot 63, dot 0]
    let b := [dot 0, dot 0, dot 63]
    a.Perm b ∧ (Framebuffer.dark.drawAll a).2 = [false, false, true] ∧
      (Framebuffer.dark.drawAll b).2 = [false, true, false] ∧
      (Framebuffer.dark.drawAll a).1 = (Framebuffer.dark.drawAll b).1 ∧
      (Framebuffer.dark.drawAll a).2.or = (Framebuffer.dark.drawAll b).2.or := by
  intro dot a b
  have h : a.Perm b := by decide
  exact ⟨h, by decide +kernel, by decide +kernel, drawing_order_free h Framebuffer.dark⟩

end Framebuffer

end Phosphor
