import Phosphor.Machine.Execute
import Phosphor.Proofs.Drawing

namespace Phosphor

namespace Screen

variable {s cells : Screen}

theorem flip_flip : (s.flip cells).flip cells = s := by
  apply lit_ext
  intro px py
  rw [lit_flip, lit_flip, Bool.xor_assoc, Bool.xor_self, Bool.xor_false]

theorem flip_of_dark (h : ∀ px py, cells.lit px py = false) : s.flip cells = s := by
  apply lit_ext
  intro px py
  rw [lit_flip, h, Bool.xor_false]

theorem lit_flip_of_lit {px py : Nat} (h : cells.lit px py = true) :
    (s.flip cells).lit px py = !s.lit px py := by
  rw [lit_flip, h, Bool.xor_true]

end Screen

namespace Machine

/-- The bit for a cell stands in one of the first `height` bytes at the index register, within
memory. -/
def Draws (m : Machine) (x y height : Nibble) (px py : Nat) : Prop :=
  ∃ r c, r < height.val ∧ c < 8 ∧
    (∃ h : m.index.toNat + r < 4096, m.memory[m.index.toNat + r].toBitVec.getMsbD c = true) ∧
    px = (m.register x).toNat + c ∧ py = (m.register y).toNat + r

def sprite (m : Machine) (x y height : Nibble) : Screen :=
  Screen.mask (m.register x).toNat (m.register y).toNat
    (Bytes.read m.memory m.index.toNat height.val)

section

variable {m : Machine} {x y height : Nibble} {px py : Nat}

theorem draws_iff_covers :
    m.Draws x y height px py ↔
      Screen.Covers (m.register x).toNat (m.register y).toNat
        (Bytes.read m.memory m.index.toNat height.val) px py := by
  have hrow (r : Nat) (cells : UInt8) :
      (Bytes.read m.memory m.index.toNat height.val)[r]? = some cells ↔
        r < height.val ∧ ∃ h : m.index.toNat + r < 4096, m.memory[m.index.toNat + r] = cells := by
    rw [Bytes.getElem?_read]
    split
    · rename_i hr
      rw [and_iff_right hr, Vector.getElem?_eq_some_iff]
    · rename_i hr
      exact iff_of_false nofun fun h ↦ hr h.1
  constructor
  · intro ⟨r, c, hr, hc, ⟨hin, hset⟩, hx, hy⟩
    exact ⟨r, c, _, (hrow r _).2 ⟨hr, hin, rfl⟩, hc, hset, hx, hy⟩
  · intro ⟨r, c, cells, hr, hc, hset, hx, hy⟩
    obtain ⟨hlt, hin, rfl⟩ := (hrow r cells).1 hr
    exact ⟨r, c, hlt, hc, ⟨hin, hset⟩, hx, hy⟩

instance : Decidable (m.Draws x y height px py) := decidable_of_iff _ draws_iff_covers.symm

theorem lit_sprite_iff :
    (m.sprite x y height).lit px py = true ↔ px < 64 ∧ py < 32 ∧ m.Draws x y height px py := by
  rw [draws_iff_covers]
  exact Screen.lit_mask

theorem lit_sprite (px : Fin 64) (py : Fin 32) :
    (m.sprite x y height).lit px py = decide (m.Draws x y height px py) := by
  rw [sprite, Screen.lit_mask_of_lt px.isLt py.isLt, decide_eq_decide]
  exact draws_iff_covers.symm

theorem not_draws (h : 4096 ≤ m.index.toNat ∨ height = 0) : ¬ m.Draws x y height px py := by
  intro ⟨r, c, hr, _, ⟨hin, _⟩, _⟩
  rcases h with h | rfl
  · omega
  · exact absurd hr (Nat.not_lt_zero r)

theorem overlaps_sprite (s : Screen) :
    s.overlaps (m.sprite x y height) =
      decide (∃ (px : Fin 64) (py : Fin 32), m.Draws x y height px py ∧ s.lit px py = true) := by
  rw [Bool.eq_iff_iff, decide_eq_true_eq]
  simp only [draws_iff_covers]
  exact Screen.overlaps_mask_iff

theorem drawSprite_eq (m : Machine) (x y height : Nibble) :
    m.drawSprite x y height =
      { m with
        display := { m.display with screen := m.display.screen.flip (m.sprite x y height) }
        registers := m.registers.set 15
          (if m.display.screen.overlaps (m.sprite x y height) then 1 else 0) } := rfl

theorem register_drawSprite {k : Nibble} (hk : k ≠ flagRegister) :
    (m.drawSprite x y height).register k = m.register k :=
  register_setFlag_of_ne _ _ hk

theorem sprite_drawSprite (hx : x ≠ flagRegister) (hy : y ≠ flagRegister) :
    (m.drawSprite x y height).sprite x y height = m.sprite x y height := by
  rw [sprite, register_drawSprite hx, register_drawSprite hy]
  rfl

theorem overlaps_flip_sprite (s : Screen) :
    (s.flip (m.sprite x y height)).overlaps (m.sprite x y height) =
      decide (∃ (px : Fin 64) (py : Fin 32), m.Draws x y height px py ∧ s.lit px py = false) := by
  rw [overlaps_sprite, decide_eq_decide]
  refine exists_congr fun px ↦ exists_congr fun py ↦ and_congr_right fun hdraws ↦ ?_
  have hcell := lit_sprite_iff.2 ⟨px.isLt, py.isLt, hdraws⟩
  rw [Screen.lit_flip_of_lit hcell, Bool.not_eq_true']

end

/-- The drawing instruction, and its round trip. It never fails. It flips the cells of the grid
for which memory holds a set bit, placed by the registers as they were before, raises the flag
register if one of these cells was lit, lowers it if none was, and changes nothing else. Carried
out again it takes the drawing back and raises the flag register if one of the cells was dark,
unless the flag register is itself a coordinate. -/
theorem draw_round_trip (m : Machine) (x y height : Nibble) :
    ∃ after, m.execute (.draw x y height) = .ok after ∧
      (∀ (px : Fin 64) (py : Fin 32), after.display.screen.lit px py =
        (m.display.screen.lit px py ^^ decide (m.Draws x y height px py))) ∧
      after = { m with
        display := { m.display with screen := after.display.screen }
        registers := m.registers.set 15
          (if ∃ (px : Fin 64) (py : Fin 32),
              m.Draws x y height px py ∧ m.display.screen.lit px py = true
            then 1 else 0) } ∧
      (4096 ≤ m.index.toNat ∨ height = 0 → after = { m with registers := m.registers.set 15 0 }) ∧
      (x ≠ 15 → y ≠ 15 → after.execute (.draw x y height) = .ok { m with
        registers := m.registers.set 15
          (if ∃ (px : Fin 64) (py : Fin 32),
              m.Draws x y height px py ∧ m.display.screen.lit px py = false
            then 1 else 0) }) := by
  refine ⟨m.drawSprite x y height, rfl, fun px py ↦ ?_, ?_, fun h ↦ ?_, fun hx hy ↦ ?_⟩
  · rw [← lit_sprite]
    exact Screen.lit_flip _ _ _ _
  · rw [drawSprite_eq, overlaps_sprite]
    simp only [decide_eq_true_eq]
  · have hnone (px py : Nat) : (m.sprite x y height).lit px py = false := by
      rw [Bool.eq_false_iff, Ne, lit_sprite_iff]
      exact fun hcell ↦ not_draws h hcell.2.2
    have hmiss : m.display.screen.overlaps (m.sprite x y height) = false := by
      rw [Bool.eq_false_iff, Ne, Screen.overlaps_iff]
      intro hmet
      obtain ⟨px, py, hcell, -⟩ := hmet
      rw [hnone] at hcell
      cases hcell
    rw [drawSprite_eq, Screen.flip_of_dark hnone, hmiss]
    rfl
  · have hagain := drawSprite_eq (m.drawSprite x y height) x y height
    rw [sprite_drawSprite hx hy] at hagain
    rw [execute, hagain, drawSprite_eq]
    simp only [Screen.flip_flip, overlaps_flip_sprite, decide_eq_true_eq, Vector.set_set]

/-- With the flag register as a coordinate the second drawing goes elsewhere. -/
example :
    let m : Machine := { Machine.ofSeed 0 with registers := (Vector.replicate 16 0).set 15 9 }
    ((m.drawSprite 15 0 5).drawSprite 15 0 5).display.screen ≠ m.display.screen := by
  decide +kernel

end Machine

end Phosphor
