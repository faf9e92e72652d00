import Mathlib.Data.Nat.SuccPred
import Phosphor.Desktop.Surface
import Phosphor.Proofs.Afterglow

namespace Phosphor.Desktop

theorem Colour.palette_ofLevel {level : Nat} (h : level ≤ 5) :
    palette[level]? = some (ofLevel level) := by
  have hmin : min level 5 = level := Nat.min_eq_left h
  rw [Vector.getElem?_eq_getElem (by omega)]
  simp only [ofLevel, hmin]
  rfl

namespace Surface

variable {s t : Surface} {x y : Nat}

def lay (s : Surface) (picture : List GlowCell) : Surface :=
  picture.foldl (fun s cell ↦ s.put cell.x cell.y (.ofLevel cell.level)) s

theorem offset_add_le (hx : x < 64) (hy : y < 32) : offset x y + 4 ≤ 8192 := by
  unfold offset Screen.width
  omega

theorem colour_congr (h : ∀ k < 4, s[offset x y + k]? = t[offset x y + k]?) :
    s.colour x y = t.colour x y := by
  have hread : Bytes.read s (offset x y) 4 = Bytes.read t (offset x y) 4 := by
    apply List.ext_getElem?
    intro k
    rw [Bytes.getElem?_read, Bytes.getElem?_read]
    split
    · rename_i hk
      exact h k hk
    · rfl
  unfold colour
  rw [hread]

theorem colour_eq_some {c : Colour} (h : ∀ k < 4, s[offset x y + k]? = c.bytes[k]?) :
    s.colour x y = some c := by
  have hread : Bytes.read s (offset x y) 4 = c.bytes := by
    apply List.ext_getElem?
    intro k
    rw [Bytes.getElem?_read]
    split
    · rename_i hk
      exact h k hk
    · rename_i hk
      exact (List.getElem?_eq_none (Nat.not_lt.1 hk)).symm
  unfold colour
  rw [hread]
  rfl

theorem read_of_colour {c : Colour} (h : s.colour x y = some c) :
    Bytes.read s (offset x y) 4 = c.bytes := by
  unfold colour at h
  split at h
  · rename_i hread
    cases h
    exact hread
  · cases h

theorem colour_put_self (hx : x < 64) (hy : y < 32) (c : Colour) :
    (s.put x y c).colour x y = some c := by
  have hin := offset_add_le hx hy
  apply colour_eq_some
  intro k hk
  have hlength : c.bytes.length = 4 := rfl
  rw [put, Bytes.getElem?_write, if_pos (by omega), Nat.add_sub_cancel_left]

theorem colour_put_of_ne {u v : Nat} (hx : x < 64) (hu : u < 64) (h : ¬ (u = x ∧ v = y))
    (c : Colour) : (s.put u v c).colour x y = s.colour x y := by
  apply colour_congr
  intro k hk
  have hlength : c.bytes.length = 4 := rfl
  have hoffset : ¬ (offset u v ≤ offset x y + k ∧ offset x y + k < offset u v + 4) := by
    unfold offset Screen.width
    omega
  rw [put, Bytes.getElem?_write, if_neg (by omega)]

theorem getElem?_fill (s : Surface) (c : Colour) {n : Nat} (hn : n ≤ 2048) (k : Nat) :
    (s.fill c n)[k]? = if k < n * 4 then c.bytes[k % 4]? else s[k]? := by
  induction n with
  | zero => simp [fill]
  | succ n ih =>
    have hlength : c.bytes.length = 4 := rfl
    have hfill : s.fill c (n + 1) = Bytes.write (s.fill c n) (n * 4) c.bytes := by
      simp only [fill, List.range_succ, List.foldl_append, List.foldl_cons, List.foldl_nil]
    rw [hfill, Bytes.getElem?_write, ih (by omega)]
    by_cases hk : n * 4 ≤ k ∧ k < n * 4 + 4
    · rw [if_pos (by omega), if_pos (by omega)]
      congr 1
      omega
    · rw [if_neg (by omega)]
      by_cases hlt : k < n * 4
      · rw [if_pos hlt, if_pos (by omega)]
      · rw [if_neg hlt, if_neg (by omega)]

theorem fill_eq (s t : Surface) (c : Colour) : s.fill c 2048 = t.fill c 2048 := by
  apply Vector.ext
  intro k hk
  have hs := getElem?_fill s c (Nat.le_refl 2048) k
  have ht := getElem?_fill t c (Nat.le_refl 2048) k
  rw [if_pos (by omega), Vector.getElem?_eq_getElem hk] at hs ht
  exact Option.some.inj (hs.trans ht.symm)

theorem colour_fill (hx : x < 64) (hy : y < 32) (c : Colour) :
    (s.fill c 2048).colour x y = some c := by
  have hin := offset_add_le hx hy
  apply colour_eq_some
  intro k hk
  rw [getElem?_fill s c (Nat.le_refl _), if_pos (by omega)]
  congr 1
  unfold offset
  omega

theorem lay_snoc (s : Surface) (picture : List GlowCell) (cell : GlowCell) :
    s.lay (picture ++ [cell]) = (s.lay picture).put cell.x cell.y (.ofLevel cell.level) := by
  simp only [lay, List.foldl_append, List.foldl_cons, List.foldl_nil]

theorem colour_lay_of_unlit (hx : x < 64) {picture : List GlowCell}
    (hin : ∀ c ∈ picture, c.x < 64) (h : ∀ c ∈ picture, ¬ (c.x = x ∧ c.y = y)) :
    (s.lay picture).colour x y = s.colour x y := by
  induction picture using List.reverseRecOn with
  | nil => rfl
  | append_singleton picture cell ih =>
    simp only [List.forall_mem_append, List.forall_mem_singleton] at hin h
    rw [lay_snoc, colour_put_of_ne hx hin.2 h.2, ih hin.1 h.1]

/-- Levels rise along a picture, so what stays on show is the newest. -/
theorem colour_lay_of_newest (hx : x < 64) (hy : y < 32) {picture : List GlowCell}
    (hin : ∀ c ∈ picture, c.x < 64) (horder : picture.Pairwise GlowCell.Before) {level : Nat}
    (hmem : ⟨x, y, level⟩ ∈ picture)
    (hnewest : ∀ c ∈ picture, c.x = x ∧ c.y = y → c.level ≤ level) :
    (s.lay picture).colour x y = some (.ofLevel level) := by
  induction picture using List.reverseRecOn with
  | nil => cases hmem
  | append_singleton picture cell ih =>
    simp only [List.forall_mem_append, List.forall_mem_singleton] at hin hnewest
    obtain ⟨hfront, -, hlast⟩ := List.pairwise_append.1 horder
    rw [lay_snoc]
    by_cases hcell : cell.x = x ∧ cell.y = y
    · have hlevel : cell.level = level := by
        rcases List.mem_append.1 hmem with hold | hnew
        · have hbefore := hlast _ hold cell (List.mem_singleton_self cell)
          have hle := hnewest.2 hcell
          simp only [GlowCell.Before] at hbefore
          omega
        · rw [← List.mem_singleton.1 hnew]
      rw [← hcell.1, ← hcell.2, ← hlevel]
      exact colour_put_self (hcell.1 ▸ hx) (hcell.2 ▸ hy) _
    · have hold : ⟨x, y, level⟩ ∈ picture := by
        refine (List.mem_append.1 hmem).resolve_right fun hnew ↦ hcell ?_
        rw [← List.mem_singleton.1 hnew]
        exact ⟨rfl, rfl⟩
      rw [colour_put_of_ne hx hin.2 hcell]
      exact ih hin.1 hfront hold hnewest.1

end Surface

def litLevels (history : List Screen) (x y : Nat) : Set Nat :=
  {level | ∃ shot, history[level]? = some shot ∧ shot.lit x y = true}

/-- The colour that a cell is shown in: that of the newest snapshot in which it is lit, or of
the background. -/
inductive Shows (history : List Screen) (x y : Nat) : Colour → Prop
  | dark : (∀ shot ∈ history, shot.lit x y = false) → Shows history x y .background
  | lit {level : Nat} {shade : Colour} :
      IsGreatest (litLevels history x y) level → Colour.palette[level]? = some shade →
      Shows history x y shade

theorem eq_zero_of_mem_litLevels {shot : Screen} {x y level : Nat}
    (h : level ∈ litLevels [shot] x y) : level = 0 := by
  obtain ⟨other, hget, -⟩ := h
  exact Nat.lt_one_iff.1 (List.getElem?_eq_some_iff.1 hget).1

theorem Shows.eq_of_singleton {shot : Screen} {x y : Nat} {shade : Colour}
    (h : Shows [shot] x y shade) (hlit : shot.lit x y = true) : shade = .ofLevel 0 := by
  cases h with
  | dark hdark =>
    rw [hdark shot List.mem_cons_self] at hlit
    cases hlit
  | lit hgreatest hshade =>
    obtain rfl := eq_zero_of_mem_litLevels hgreatest.1
    rw [Colour.palette_ofLevel (Nat.zero_le 5)] at hshade
    exact (Option.some.inj hshade).symm

theorem Shows.eq_of_nil {x y : Nat} {shade : Colour} (h : Shows [] x y shade) :
    shade = .background := by
  cases h with
  | dark => rfl
  | lit hgreatest =>
    obtain ⟨shot, hshot, -⟩ := hgreatest.1
    cases hshot

section

variable {fb : Framebuffer}

theorem mem_glow_iff_litLevels {c : GlowCell} :
    c ∈ fb.glow ↔ c.level ∈ litLevels fb.history c.x c.y := Framebuffer.mem_glow

theorem lt_of_mem_glow {c : GlowCell} (hc : c ∈ fb.glow) : c.x < 64 ∧ c.y < 32 := by
  obtain ⟨shot, -, hlit⟩ := Framebuffer.mem_glow.1 hc
  exact Screen.lt_of_lit hlit

theorem lt_of_mem_litLevels {x y level : Nat} (h : level ∈ litLevels fb.history x y) :
    level < 6 := by
  obtain ⟨shot, hshot, -⟩ := h
  exact Nat.lt_of_lt_of_le (List.getElem?_eq_some_iff.1 hshot).1 fb.history_length_le

theorem dark_of_litLevels_empty {x y : Nat} (h : litLevels fb.history x y = ∅) :
    ∀ shot ∈ fb.history, shot.lit x y = false := by
  intro shot hshot
  obtain ⟨level, hlevel⟩ := List.mem_iff_getElem?.1 hshot
  rw [Bool.eq_false_iff]
  intro hlit
  have hmem : level ∈ litLevels fb.history x y := ⟨shot, hlevel, hlit⟩
  rw [h] at hmem
  exact hmem

theorem shows_paint (fb : Framebuffer) (s : Surface) (x : Fin 64) (y : Fin 32) :
    ∃ shade, (s.paint fb.glow).colour x y = some shade ∧ Shows fb.history x y shade := by
  change ∃ shade, ((s.fill .background 2048).lay fb.glow).colour x y = some shade ∧ _
  have hin : ∀ c ∈ fb.glow, c.x < 64 := fun c hc ↦ (lt_of_mem_glow hc).1
  have hlevel : ∀ c ∈ fb.glow, c.x = x ∧ c.y = y → c.level ∈ litLevels fb.history x y := by
    intro c hc hplace
    rw [← hplace.1, ← hplace.2]
    exact mem_glow_iff_litLevels.1 hc
  rcases (litLevels fb.history x y).eq_empty_or_nonempty with hnone | hsome
  · refine ⟨.background, ?_, .dark (dark_of_litLevels_empty hnone)⟩
    rw [Surface.colour_lay_of_unlit x.isLt hin, Surface.colour_fill x.isLt y.isLt]
    intro c hc hplace
    have hmem := hlevel c hc hplace
    rw [hnone] at hmem
    exact hmem
  · have hbound : BddAbove (litLevels fb.history x y) :=
      ⟨6, fun level h ↦ Nat.le_of_lt (lt_of_mem_litLevels h)⟩
    obtain ⟨level, hgreatest⟩ := hbound.exists_isGreatest_of_nonempty hsome
    have hle : level ≤ 5 := Nat.le_of_lt_succ (lt_of_mem_litLevels hgreatest.1)
    refine ⟨.ofLevel level, ?_, .lit hgreatest (Colour.palette_ofLevel hle)⟩
    apply Surface.colour_lay_of_newest x.isLt y.isLt hin fb.glow_pairwise
    · exact mem_glow_iff_litLevels.2 hgreatest.1
    · intro c hc hplace
      exact hgreatest.2 (hlevel c hc hplace)

end

open Framebuffer in
theorem history_run_of_still (fb : Framebuffer) {later : List Request}
    (h : ∀ r ∈ later, r ≠ .composite ∧ r ≠ .reset) : (fb.run later).history = fb.history := by
  induction later generalizing fb with
  | nil => rfl
  | cons r later ih =>
    obtain ⟨hfirst, hrest⟩ := List.forall_mem_cons.1 h
    have hserve : (fb.serve r).history = fb.history := by
      cases r with
      | draw | clear => rfl
      | reset => exact absurd rfl hfirst.2
      | composite => exact absurd rfl hfirst.1
    exact (ih (fb.serve r) hrest).trans hserve

/-- From snapshots to colours. The list that a composite returns after any run is painted
inside the surface. It leaves every cell in the colour of the newest snapshot that has it lit,
or of the background, and nothing of what the surface held before. Until the next composite or
reset those snapshots are the ones that the framebuffer holds. -/
theorem picture_painted (past : List Framebuffer.Request) (s : Surface) :
    let taken := (Framebuffer.dark.run past).composite
    let painted := s.paint taken.2
    (∀ c ∈ taken.2, Surface.offset c.x c.y + 4 ≤ 8192 ∧
      Colour.palette[c.level]? = some (.ofLevel c.level)) ∧
    (∀ (x : Fin 64) (y : Fin 32), ∃ shade : Colour,
      Bytes.read painted ((y.val * 64 + x.val) * 4) 4 =
        [shade.red, shade.green, shade.blue, shade.alpha] ∧
      Shows taken.1.history x y shade) ∧
    (∀ other : Surface, other.paint taken.2 = painted) ∧
    ∀ later, (∀ r ∈ later, r ≠ .composite ∧ r ≠ .reset) →
      let fb := Framebuffer.dark.run (past ++ .composite :: later)
      fb.history = taken.1.history ∧
      ∀ (x : Fin 64) (y : Fin 32), ∃ shade : Colour,
        Bytes.read painted ((y.val * 64 + x.val) * 4) 4 =
          [shade.red, shade.green, shade.blue, shade.alpha] ∧
        Shows fb.history x y shade := by
  intro taken painted
  have hshown (x : Fin 64) (y : Fin 32) : ∃ shade : Colour,
      Bytes.read painted ((y.val * 64 + x.val) * 4) 4 =
        [shade.red, shade.green, shade.blue, shade.alpha] ∧ Shows taken.1.history x y shade := by
    obtain ⟨shade, hcolour, hshows⟩ := shows_paint taken.1 s x y
    exact ⟨shade, Surface.read_of_colour hcolour, hshows⟩
  refine ⟨?_, hshown, ?_, ?_⟩
  · intro c hc
    obtain ⟨hx, hy⟩ := lt_of_mem_glow hc
    have hlevel := lt_of_mem_litLevels (mem_glow_iff_litLevels.1 hc)
    exact ⟨Surface.offset_add_le hx hy, Colour.palette_ofLevel (Nat.le_of_lt_succ hlevel)⟩
  · intro other
    exact congrArg (Surface.lay · taken.2) (Surface.fill_eq other s .background)
  · intro later hlater fb
    have hsplit : fb = taken.1.run later := List.foldl_append
    have hhistory : fb.history = taken.1.history := by
      rw [hsplit]
      exact history_run_of_still taken.1 hlater
    rw [hhistory]
    exact ⟨rfl, hshown⟩

/-- A cell that is lit in the older of two snapshots only, while the next picture is drawn. -/
theorem picture_painted_fading :
    let past : List Framebuffer.Request := [.draw 0 0 [0x80], .composite, .clear]
    let later : List Framebuffer.Request := [.draw 8 8 [0xFF]]
    let picture := (Framebuffer.dark.run past).composite.2
    let fb := Framebuffer.dark.run (past ++ .composite :: later)
    (∀ r ∈ later, r ≠ .composite ∧ r ≠ .reset) ∧ fb.history.length = 2 ∧
      ∃ shade : Colour, Bytes.read (Surface.empty.paint picture) 0 4 =
        [shade.red, shade.green, shade.blue, shade.alpha] ∧ Shows fb.history 0 0 shade := by
  intro past later picture fb
  have hstill : ∀ r ∈ later, r ≠ .composite ∧ r ≠ .reset := by decide
  have hlength : fb.history.length = 2 := by decide +kernel
  obtain ⟨-, -, -, hlater⟩ := picture_painted past Surface.empty
  exact ⟨hstill, hlength, (hlater later hstill).2 0 0⟩

/-- A picture outlives a reset. The only snapshot, in which the cell is lit, is gone, and the
cell is still painted in its colour. -/
theorem picture_outlives_reset :
    let past : List Framebuffer.Request := [.draw 0 0 [0x80]]
    let picture := (Framebuffer.dark.run past).composite.2
    let fb := Framebuffer.dark.run (past ++ [.composite, .reset])
    let painted := Surface.empty.paint picture
    fb.history = [] ∧ Bytes.read painted 0 4 = [0x54, 0x60, 0x66, 0xFF] ∧
      ¬ ∃ shade : Colour, Bytes.read painted 0 4 =
        [shade.red, shade.green, shade.blue, shade.alpha] ∧ Shows fb.history 0 0 shade := by
  intro past picture fb painted
  have hgone : fb.history = [] := by decide +kernel
  have hbytes : Bytes.read painted 0 4 = [0x54, 0x60, 0x66, 0xFF] := by
    obtain ⟨shade, hcolour, hshows⟩ :=
      shows_paint (Framebuffer.dark.run past).snapshot Surface.empty 0 0
    obtain rfl := hshows.eq_of_singleton (by decide +kernel)
    exact Surface.read_of_colour hcolour
  refine ⟨hgone, hbytes, ?_⟩
  rintro ⟨shade, hread, hshows⟩
  rw [hgone] at hshows
  rw [hbytes, hshows.eq_of_nil] at hread
  revert hread
  decide

end Phosphor.Desktop
