import Phosphor.Strict.Picture

namespace Phosphor

namespace Screen

/-- A sprite at `(x, y)` has a set cell at `(px, py)`. -/
def Covers (x y : Nat) (rows : List UInt8) (px py : Nat) : Prop :=
  ∃ r c cells, rows[r]? = some cells ∧ c < 8 ∧ cells.toBitVec.getMsbD c = true ∧
    px = x + c ∧ py = y + r

theorem not_covers_nil {x y px py : Nat} : ¬ Covers x y [] px py := by
  intro ⟨r, c, cells, hr, _⟩
  cases hr

theorem covers_cons {x y px py : Nat} {cells : UInt8} {rows : List UInt8} :
    Covers x y (cells :: rows) px py ↔ Covers x y [cells] px py ∨ Covers x (y + 1) rows px py := by
  constructor
  · intro ⟨r, c, line, hr, hc, hset, hx, hy⟩
    cases r with
    | zero => exact .inl ⟨0, c, line, hr, hc, hset, hx, hy⟩
    | succ r => exact .inr ⟨r, c, line, hr, hc, hset, hx, by omega⟩
  · rintro (⟨r, c, line, hr, hc, hset, hx, hy⟩ | ⟨r, c, line, hr, hc, hset, hx, hy⟩)
    · cases r with
      | zero => exact ⟨0, c, line, hr, hc, hset, hx, hy⟩
      | succ r => cases hr
    · exact ⟨r + 1, c, line, hr, hc, hset, hx, by omega⟩

theorem le_of_covers {x y px py : Nat} {rows : List UInt8} (h : Covers x y rows px py) :
    x ≤ px ∧ y ≤ py := by
  obtain ⟨r, c, cells, -, -, -, rfl, rfl⟩ := h
  exact ⟨Nat.le_add_right x c, Nat.le_add_right y r⟩

theorem lit_mask {x y px py : Nat} {rows : List UInt8} :
    (mask x y rows).lit px py = true ↔ px < 64 ∧ py < 32 ∧ Covers x y rows px py := by
  constructor
  · intro h
    obtain ⟨hpx, hpy⟩ := lt_of_lit h
    refine ⟨hpx, hpy, ?_⟩
    rw [lit_of_lt _ px hpy] at h
    simp only [mask, Vector.getElem_ofFn] at h
    split at h
    · rename_i hy
      cases hr : rows[py - y]? with
      | none =>
        rw [hr] at h
        simp at h
      | some cells =>
        rw [hr, Option.map_some, Option.getD_some, getMsbD_spriteRow] at h
        simp only [Bool.and_eq_true, decide_eq_true_eq] at h
        exact ⟨py - y, px - x, cells, hr, BitVec.lt_of_getMsbD h.2, h.2, by omega, by omega⟩
    · simp at h
  · intro ⟨hpx, hpy, r, c, cells, hr, hc, hset, hx, hy⟩
    rw [lit_of_lt _ px hpy]
    simp only [mask, Vector.getElem_ofFn]
    rw [if_pos (by omega), show py - y = r by omega, hr, Option.map_some, Option.getD_some,
      getMsbD_spriteRow, show px - x = c by omega, hset]
    simp only [Bool.and_true, Bool.and_eq_true, decide_eq_true_eq]
    omega

theorem overlaps_iff {s cells : Screen} :
    s.overlaps cells = true ↔ ∃ px py, cells.lit px py = true ∧ s.lit px py = true := by
  simp only [overlaps, Vector.any_eq_true, Vector.getElem_zipWith, bne_iff_ne]
  constructor
  · intro ⟨py, hpy, hne⟩
    apply Classical.byContradiction
    intro hnone
    apply hne
    apply BitVec.eq_of_getMsbD_eq
    intro px _
    rw [BitVec.getMsbD_and, BitVec.getMsbD_zero, ← lit_of_lt s px hpy, ← lit_of_lt cells px hpy,
      Bool.and_eq_false_imp]
    intro hs
    exact Bool.eq_false_iff.2 fun hcells ↦ hnone ⟨px, py, hcells, hs⟩
  · intro ⟨px, py, hcells, hs⟩
    have hpy := (lt_of_lit hs).2
    refine ⟨py, hpy, fun hzero ↦ ?_⟩
    rw [lit_of_lt _ px hpy] at hcells hs
    have hbit := congrArg (BitVec.getMsbD · px) hzero
    simp only [BitVec.getMsbD_and, BitVec.getMsbD_zero, hs, hcells] at hbit
    cases hbit

/-- From one state of a drawing to another, the cells of a set are flipped, and the flag rises
if one of them was lit. -/
structure Flips (cells : Nat → Nat → Prop) (before after : Screen × Bool) : Prop where
  lit : ∀ px py, after.1.lit px py = true ↔ ¬ (before.1.lit px py = true ↔ cells px py)
  hit : after.2 = true ↔ before.2 = true ∨ ∃ px py, cells px py ∧ before.1.lit px py = true

namespace Flips

variable {p q : Nat → Nat → Prop} {a b c : Screen × Bool}

theorem congr (h : Flips p a b) (hpq : ∀ px py, q px py ↔ p px py) : Flips q a b where
  lit px py := by
    rw [hpq]
    exact h.lit px py
  hit := by
    simp only [hpq]
    exact h.hit

theorem of_empty (h : ∀ px py, ¬ p px py) : Flips p a a where
  lit px py := by simp only [h, iff_false, Decidable.not_not]
  hit := by simp only [h, false_and, exists_const, or_false]

theorem trans (hab : Flips p a b) (hbc : Flips q b c) (h : ∀ px py, p px py → ¬ q px py) :
    Flips (fun px py ↦ p px py ∨ q px py) a c where
  lit px py := by
    rw [hbc.lit, hab.lit]
    by_cases hp : p px py
    · simp only [hp, h px py hp, iff_true, iff_false, true_or, Decidable.not_not]
    · simp only [hp, iff_false, false_or, Decidable.not_not]
  hit := by
    have hsame : (∃ px py, q px py ∧ b.1.lit px py = true) ↔
        ∃ px py, q px py ∧ a.1.lit px py = true := by
      refine exists_congr fun px ↦ exists_congr fun py ↦ and_congr_right fun hq ↦ ?_
      have hp : ¬ p px py := fun hp ↦ h px py hp hq
      simp only [hab.lit, hp, iff_false, Decidable.not_not]
    rw [hbc.hit, hab.hit, hsame, or_assoc]
    simp only [← exists_or, ← or_and_right]

theorem unique (hb : Flips p a b) (hc : Flips p a c) : b = c := by
  refine Prod.ext (lit_ext fun px py ↦ ?_) ?_
  · rw [Bool.eq_iff_iff, hb.lit, hc.lit]
  · rw [Bool.eq_iff_iff, hb.hit, hc.hit]

end Flips

theorem flips_flip {p : Nat → Nat → Prop} {s cells : Screen} {hit : Bool}
    (h : ∀ px py, p px py ↔ cells.lit px py = true) :
    Flips p (s, hit) (s.flip cells, hit || s.overlaps cells) where
  lit px py := by
    rw [lit_flip, h, ← Bool.eq_iff_iff]
    exact bne_iff_ne
  hit := by
    simp only [Bool.or_eq_true, overlaps_iff, h]

theorem getMsbD_spriteRow_single (px x : Nat) :
    (spriteRow px 0x80).getMsbD x = decide (x < 64 ∧ x = px) := by
  have htop (k : Nat) : (0x80 : UInt8).toBitVec.getMsbD k = decide (k = 0) := by
    by_cases hk : k < 8
    · exact (show ∀ k < 8, (0x80 : UInt8).toBitVec.getMsbD k = decide (k = 0) by decide) k hk
    · rw [BitVec.getMsbD_of_ge _ k (Nat.not_lt.1 hk), decide_eq_false (by omega)]
  rw [getMsbD_spriteRow, htop, ← Bool.decide_and, ← Bool.decide_and, decide_eq_decide]
  omega

theorem lit_set (s : Screen) (row : Row) {py : Nat} (hpy : py < 32) (x y : Nat) :
    Screen.lit (s.set py row) x y = if y = py then row.getMsbD x else s.lit x y := by
  split
  · rename_i hy
    subst hy
    rw [lit_of_lt _ x hpy, Vector.getElem_set_self]
  · rename_i hy
    rw [lit, Vector.getElem?_set_ne hpy (Ne.symm hy)]
    rfl

theorem strictFlip_eq (s : Screen) {px py : Nat} (hpx : px < 64) (hpy : py < 32) (hit : Bool) :
    ∃ flipped, s.strictFlip px py = .ok flipped ∧
      Flips (fun x y ↦ x = px ∧ y = py) (s, hit) (flipped.1, hit || flipped.2) := by
  refine ⟨(s.set py (s[py] ^^^ spriteRow px 0x80), s.lit px py), ?_, ?_, ?_⟩
  · rw [strictFlip, Strict.entry_of_lt hpy, Strict.ok_bind, strictCell,
      if_pos (show px < width from hpx), Strict.ok_bind, Strict.replace_of_lt hpy,
      lit_of_lt s px hpy]
    rfl
  · intro x y
    rw [lit_set s _ hpy]
    split
    · rename_i hy
      subst hy
      rw [BitVec.getMsbD_xor, getMsbD_spriteRow_single, lit_of_lt s x hpy]
      by_cases hx : x = px
      · simp [hx, hpx]
      · simp [hx]
    · rename_i hy
      simp only [hy, and_false, iff_false, Decidable.not_not]
  · simp only [Bool.or_eq_true, and_assoc, exists_and_left, exists_eq_left]

def LineFrom (x line : Nat) (cells : UInt8) (column px py : Nat) : Prop :=
  px < 64 ∧ py = line ∧ ∃ c, column ≤ c ∧ c < 8 ∧ cells.toBitVec.getMsbD c = true ∧ px = x + c

theorem lineFrom_succ {x line column px py : Nat} {cells : UInt8} (hcolumn : column < 8)
    (hx : x + column < 64) :
    LineFrom x line cells column px py ↔
      (cells.toBitVec.getMsbD column = true ∧ px = x + column ∧ py = line) ∨
        LineFrom x line cells (column + 1) px py := by
  constructor
  · intro ⟨hpx, hpy, c, hc, hc8, hset, hxc⟩
    rcases Nat.eq_or_lt_of_le hc with rfl | hlt
    · exact .inl ⟨hset, hxc, hpy⟩
    · exact .inr ⟨hpx, hpy, c, hlt, hc8, hset, hxc⟩
  · rintro (⟨hset, hxc, hpy⟩ | ⟨hpx, hpy, c, hc, hc8, hset, hxc⟩)
    · exact ⟨by omega, hpy, column, Nat.le_refl column, hcolumn, hset, hxc⟩
    · exact ⟨hpx, hpy, c, by omega, hc8, hset, hxc⟩

theorem lineFrom_zero {x line px py : Nat} {cells : UInt8} :
    LineFrom x line cells 0 px py ↔ px < 64 ∧ Covers x line [cells] px py := by
  constructor
  · intro ⟨hpx, hpy, c, _, hc, hset, hxc⟩
    exact ⟨hpx, 0, c, cells, rfl, hc, hset, hxc, hpy⟩
  · intro ⟨hpx, r, c, _, hr, hc, hset, hxc, hpy⟩
    cases r with
    | zero =>
      cases hr
      exact ⟨hpx, hpy, c, Nat.zero_le c, hc, hset, hxc⟩
    | succ r => cases hr

/-- The columns past the edge are not reached, so no sum is formed there. -/
theorem strictLine_eq {x line : Nat} (cells : UInt8) (hline : line < 32) (n : Nat) :
    ∀ (column : Nat) (drawn : Screen × Bool), column + n = 8 → x + column < 2 ^ 64 →
      ∃ after, strictLine x line cells (List.range' column n) drawn = .ok after ∧
        Flips (LineFrom x line cells column) drawn after := by
  induction n with
  | zero =>
    intro column drawn hn _
    refine ⟨drawn, rfl, .of_empty fun px py ⟨_, _, c, hc, hc8, _⟩ ↦ ?_⟩
    omega
  | succ n ih =>
    intro column drawn hn hx
    rw [List.range'_succ, strictLine, Strict.add_of_lt hx, Strict.ok_bind]
    by_cases hedge : 64 ≤ x + column
    · refine ⟨drawn, if_pos hedge, .of_empty fun px py ⟨hpx, _, c, hc, _, _, hxc⟩ ↦ ?_⟩
      omega
    have hcolumn : column < 8 := by omega
    rw [if_neg (show ¬ width ≤ x + column from hedge), Strict.bit_of_lt hcolumn, Strict.ok_bind]
    by_cases hset : cells.toBitVec.getMsbD column = true
    · obtain ⟨flipped, hflip, hfirst⟩ :=
        strictFlip_eq drawn.1 (Nat.lt_of_not_le hedge) hline drawn.2
      obtain ⟨after, hafter, hrest⟩ :=
        ih (column + 1) (flipped.1, drawn.2 || flipped.2) (by omega) (by omega)
      refine ⟨after, ?_, (hfirst.trans hrest fun px py hcell ⟨_, _, c, hc, _, _, hxc⟩ ↦ ?_).congr
        fun px py ↦ ?_⟩
      · rw [if_pos hset, hflip, Strict.ok_bind, hafter]
      · omega
      · rw [lineFrom_succ hcolumn (Nat.lt_of_not_le hedge), and_iff_right hset]
    · obtain ⟨after, hafter, hrest⟩ := ih (column + 1) drawn (by omega) (by omega)
      refine ⟨after, ?_, hrest.congr fun px py ↦ ?_⟩
      · rw [if_neg hset, hafter]
      · rw [lineFrom_succ hcolumn (Nat.lt_of_not_le hedge), or_iff_right fun h ↦ hset h.1]

theorem strictLines_eq {x y : Nat} (hx : x < 2 ^ 64) (rows : List UInt8) :
    ∀ (row : Nat) (drawn : Screen × Bool), y + row < 2 ^ 64 →
      ∃ after, strictLines x y row rows drawn = .ok after ∧
        Flips (fun px py ↦ px < 64 ∧ py < 32 ∧ Covers x (y + row) rows px py) drawn after := by
  induction rows with
  | nil => exact fun row drawn _ ↦ ⟨drawn, rfl, .of_empty fun px py h ↦ not_covers_nil h.2.2⟩
  | cons cells rows ih =>
    intro row drawn hy
    rw [strictLines, Strict.add_of_lt hy, Strict.ok_bind]
    by_cases hedge : 32 ≤ y + row
    · refine ⟨drawn, if_pos hedge, .of_empty fun px py ⟨_, hpy, hcovers⟩ ↦ ?_⟩
      have := le_of_covers hcovers
      omega
    rw [if_neg (show ¬ height ≤ y + row from hedge)]
    obtain ⟨between, hbetween, hfirst⟩ :=
      strictLine_eq (x := x) cells (Nat.lt_of_not_le hedge) 8 0 drawn rfl hx
    obtain ⟨after, hafter, hrest⟩ := ih (row + 1) between (by omega)
    refine ⟨after, ?_, (hfirst.trans hrest fun px py hline ⟨_, _, hcovers⟩ ↦ ?_).congr
      fun px py ↦ ?_⟩
    · rw [List.range_eq_range', hbetween, Strict.ok_bind, hafter]
    · have := le_of_covers hcovers
      have := hline.2.1
      omega
    · have hline (h : LineFrom x (y + row) cells 0 px py) : py < 32 := by
        have := h.2.1
        omega
      rw [covers_cons, Nat.add_assoc, and_or_left, and_or_left]
      refine or_congr_left ⟨fun h ↦ lineFrom_zero.2 ⟨h.1, h.2.2⟩, fun h ↦ ?_⟩
      exact ⟨(lineFrom_zero.1 h).1, hline h, (lineFrom_zero.1 h).2⟩

end Screen

namespace Framebuffer

theorem flips_draw (fb : Framebuffer) (x y : Nat) (rows : List UInt8) :
    Screen.Flips (fun px py ↦ px < 64 ∧ py < 32 ∧ Screen.Covers x y rows px py)
      (fb.screen, false) ((fb.draw x y rows).1.screen, (fb.draw x y rows).2) :=
  Screen.flips_flip fun _ _ ↦ Screen.lit_mask.symm

/-- Drawing cell by cell, with every index and sum checked, gives the picture and the flag that
the masks give. -/
theorem strictDraw_eq (fb : Framebuffer) {x y : Nat} (hx : x < 2 ^ 64) (hy : y < 2 ^ 64)
    (rows : List UInt8) : fb.strictDraw x y rows = .ok (fb.draw x y rows) := by
  obtain ⟨after, hafter, hflips⟩ := Screen.strictLines_eq hx rows 0 (fb.screen, false) hy
  rw [strictDraw, hafter, hflips.unique (fb.flips_draw x y rows)]
  rfl

theorem push_eq_snapshot (fb : Framebuffer) : fb.push = fb.snapshot := by
  have hretained : (if fb.history.length = depth then fb.history.tail else fb.history) ++
      [fb.screen] = retained (fb.history ++ [fb.screen]) := by
    have hlength := fb.history_length_le
    unfold retained depth
    rw [List.length_append, List.length_singleton]
    split
    · rename_i hfull
      rw [hfull, List.drop_append_of_le_length (by omega), List.drop_one]
    · rw [show fb.history.length + 1 - 6 = 0 by omega, List.drop_zero]
  simp only [push, snapshot, hretained]

theorem strictComposite_eq (fb : Framebuffer) : fb.strictComposite = .ok fb.composite := by
  have hlevel (shot : Screen × Nat) (hshot : shot ∈ fb.snapshot.history.zipIdx) :
      ((Screen.litCells shot.1).mapM fun cell ↦ do
        let level ← Strict.narrow 8 shot.2
        return (⟨cell.1, cell.2, level⟩ : GlowCell)) =
      .ok ((Screen.litCells shot.1).map fun cell ↦ ⟨cell.1, cell.2, shot.2⟩) := by
    have hrank := (List.mem_zipIdx hshot).2.1
    have hlength := fb.snapshot.history_length_le
    refine Strict.mapM_eq_ok fun cell _ ↦ ?_
    rw [Strict.narrow_of_lt (by omega)]
    rfl
  rw [strictComposite, push_eq_snapshot, Strict.mapM_eq_ok hlevel, composite, glow,
    List.flatMap_def]
  rfl

end Framebuffer

end Phosphor
