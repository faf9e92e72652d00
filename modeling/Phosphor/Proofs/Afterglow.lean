import Phosphor.Framebuffer
import Phosphor.Proofs.History

namespace Phosphor

theorem pairwise_flatMap_zipIdx {α β : Type} {R : β → β → Prop} {l : List α}
    {f : α × Nat → List β} (hf : ∀ a, (f a).Pairwise R)
    (hlt : ∀ a b, a.2 < b.2 → ∀ x ∈ f a, ∀ y ∈ f b, R x y) :
    (l.zipIdx.flatMap f).Pairwise R := by
  have hidx : l.zipIdx.Pairwise fun a b ↦ a.2 < b.2 := by
    rw [← List.pairwise_map, List.zipIdx_map_snd]
    exact List.pairwise_lt_range'
  rw [List.pairwise_flatMap]
  constructor
  · intro a _
    exact hf a
  · exact hidx.imp fun hab ↦ hlt _ _ hab

namespace Screen

theorem mem_litColumns {row : Row} {x : Nat} : x ∈ litColumns row ↔ row.getMsbD x = true := by
  rw [litColumns, List.mem_filter, List.mem_range]
  exact and_iff_right_of_imp BitVec.lt_of_getMsbD

theorem mem_litCells {s : Screen} {x y : Nat} : (x, y) ∈ s.litCells ↔ s.lit x y = true := by
  have hline (row : Row) : (row, y) ∈ s.toList.zipIdx ↔ s[y]? = some row := by
    rw [List.mk_mem_zipIdx_iff_getElem?, Vector.getElem?_toList]
  simp only [litCells, List.mem_flatMap, List.mem_map, Prod.mk.injEq, Prod.exists, mem_litColumns]
  constructor
  · rintro ⟨row, z, hmem, v, hv, rfl, rfl⟩
    rw [lit, (hline row).1 hmem]
    exact hv
  · intro h
    unfold lit at h
    split at h
    · rename_i row hrow
      exact ⟨row, y, (hline row).2 hrow, x, h, rfl, rfl⟩
    · cases h

theorem litCells_pairwise (s : Screen) :
    s.litCells.Pairwise fun a b ↦ a.2 < b.2 ∨ a.2 = b.2 ∧ a.1 < b.1 := by
  refine pairwise_flatMap_zipIdx ?_ ?_
  · intro line
    rw [List.pairwise_map]
    exact (List.pairwise_lt_range.filter _).imp fun h ↦ .inr ⟨rfl, h⟩
  · intro a b hab c hc d hd
    obtain ⟨_, -, rfl⟩ := List.mem_map.1 hc
    obtain ⟨_, -, rfl⟩ := List.mem_map.1 hd
    exact .inl hab

end Screen

def GlowCell.Before (a b : GlowCell) : Prop :=
  a.level < b.level ∨ a.level = b.level ∧ (a.y < b.y ∨ a.y = b.y ∧ a.x < b.x)

namespace Framebuffer

theorem mem_glow {fb : Framebuffer} {c : GlowCell} :
    c ∈ fb.glow ↔ ∃ shot, fb.history[c.level]? = some shot ∧ shot.lit c.x c.y = true := by
  simp only [glow, List.mem_flatMap, List.mem_map, Prod.exists]
  constructor
  · rintro ⟨shot, level, hmem, x, y, hcell, rfl⟩
    exact ⟨shot, List.mk_mem_zipIdx_iff_getElem?.1 hmem, Screen.mem_litCells.1 hcell⟩
  · rintro ⟨shot, hshot, hlit⟩
    exact ⟨shot, c.level, List.mk_mem_zipIdx_iff_getElem?.2 hshot, c.x, c.y,
      Screen.mem_litCells.2 hlit, rfl⟩

theorem glow_pairwise (fb : Framebuffer) : fb.glow.Pairwise GlowCell.Before := by
  refine pairwise_flatMap_zipIdx ?_ ?_
  · intro shot
    rw [List.pairwise_map]
    exact (Screen.litCells_pairwise shot.1).imp fun h ↦ .inr ⟨rfl, h⟩
  · intro a b hab c hc d hd
    obtain ⟨_, -, rfl⟩ := List.mem_map.1 hc
    obtain ⟨_, -, rfl⟩ := List.mem_map.1 hd
    exact .inl hab

theorem retained_append_singleton (shots : List Screen) (s : Screen) :
    retained (retained shots ++ [s]) = retained (shots ++ [s]) := by
  simp only [retained, depth, List.length_append, List.length_drop, List.length_singleton]
  rw [← List.drop_append_of_le_length (by omega), List.drop_drop]
  congr 1
  omega

inductive Request
  | draw (x y : Nat) (rows : List UInt8)
  | clear
  | reset
  | composite
  deriving DecidableEq

def serve (fb : Framebuffer) : Request → Framebuffer
  | .draw x y rows => (fb.draw x y rows).1
  | .clear => fb.clear
  | .reset => dark
  | .composite => fb.composite.1

def run (fb : Framebuffer) (requests : List Request) : Framebuffer := requests.foldl serve fb

def events (fb : Framebuffer) (requests : List Request) : List (Event Framebuffer Request) :=
  History.record serve fb requests

def resets (e : Event Framebuffer Request) : Bool :=
  match e.action with
  | .reset => true
  | _ => false

def shot? (e : Event Framebuffer Request) : Option Screen :=
  match e.action with
  | .composite => some e.before.screen
  | _ => none

/-- The snapshots taken since the last reset, oldest first. -/
def shots (events : List (Event Framebuffer Request)) : List Screen :=
  (events.rtakeWhile fun e ↦ !resets e).filterMap shot?

theorem shots_snoc (events : List (Event Framebuffer Request)) (e : Event Framebuffer Request) :
    shots (events ++ [e]) = if resets e then [] else shots events ++ (shot? e).toList := by
  unfold shots
  rw [List.rtakeWhile_concat]
  cases resets e with
  | true => rfl
  | false =>
    simp only [Bool.not_false, if_true, List.filterMap_append, Bool.false_eq_true, if_false]
    congr 1

theorem history_run (requests : List Request) :
    (dark.run requests).history = retained (shots (dark.events requests)) := by
  refine History.run_induction (motive := fun _ t events ↦ t.history = retained (shots events)) rfl
    (fun _ t events r ih ↦ ?_) requests
  rw [shots_snoc]
  cases r with
  | draw x y rows | clear =>
    simp only [resets, shot?, Bool.false_eq_true, if_false, Option.toList_none, List.append_nil]
    exact ih
  | reset => rfl
  | composite =>
    simp only [resets, shot?, Bool.false_eq_true, if_false, Option.toList_some]
    rw [← retained_append_singleton, ← ih]
    rfl

/-- The afterglow law. A composite after any run takes one more snapshot and keeps the
last six. What it shows is the one list, in order, of the cells lit in them, each with
the age rank of its snapshot, so a cell is gone once six snapshots in a row are dark
there. -/
theorem afterglow (requests : List Request) :
    let fb := dark.run requests
    let past := shots (dark.events requests)
    let taken := shots (dark.events (requests ++ [.composite]))
    let shown := fb.composite
    fb.history = past.drop (past.length - 6) ∧
    taken = past ++ [fb.screen] ∧
    shown.1.history = taken.drop (taken.length - 6) ∧
    shown.1.history.length = min taken.length 6 ∧
    shown.1.screen = fb.screen ∧
    (∀ c, c ∈ shown.2 ↔
      ∃ shot, shown.1.history[c.level]? = some shot ∧ shot.lit c.x c.y = true) ∧
    shown.2.Pairwise GlowCell.Before ∧
    (∀ c ∈ shown.2, c.x < 64 ∧ c.y < 32 ∧ c.level ≤ 5) ∧
    ∀ i x y, i + 6 ≤ taken.length → (∀ shot ∈ taken.drop i, shot.lit x y = false) →
      ∀ c ∈ shown.2, ¬ (c.x = x ∧ c.y = y) := by
  intro fb past taken shown
  have hhistory : shown.1.history = taken.drop (taken.length - 6) := by
    have hrun : dark.run (requests ++ [.composite]) = shown.1 := List.foldl_concat ..
    rw [← hrun]
    exact history_run (requests ++ [.composite])
  have hmem (c : GlowCell) : c ∈ shown.2 ↔
      ∃ shot, shown.1.history[c.level]? = some shot ∧ shot.lit c.x c.y = true := mem_glow
  refine ⟨history_run requests, ?_, hhistory, ?_, rfl, hmem, glow_pairwise _, ?_, ?_⟩
  · have htaken : taken = shots (dark.events requests ++ [⟨fb, .composite⟩]) :=
      congrArg shots (History.record_snoc dark requests .composite)
    rw [htaken, shots_snoc]
    rfl
  · rw [hhistory, List.length_drop]
    omega
  · intro c hc
    obtain ⟨shot, hshot, hlit⟩ := (hmem c).1 hc
    obtain ⟨hx, hy⟩ := Screen.lt_of_lit hlit
    have hlevel := (List.getElem?_eq_some_iff.1 hshot).1
    have hsix := shown.1.history_length_le
    exact ⟨hx, hy, by omega⟩
  · rintro i x y hi hdark c hc ⟨rfl, rfl⟩
    obtain ⟨shot, hshot, hlit⟩ := (hmem c).1 hc
    have hlast : shot ∈ taken.drop (taken.length - 6) := hhistory ▸ List.mem_of_getElem? hshot
    have hdrop := (List.drop_sublist_drop_left taken (show i ≤ taken.length - 6 by omega)).subset
    rw [hdark shot (hdrop hlast)] at hlit
    cases hlit

end Framebuffer

end Phosphor
