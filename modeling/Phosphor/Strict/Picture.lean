import Phosphor.Framebuffer
import Phosphor.Strict

namespace Phosphor

namespace Screen

def strictCell (row : Row) (x : Nat) : Strict Bool :=
  if x < width then .ok (row.getMsbD x) else .error (.index width x)

def strictFlip (s : Screen) (x y : Nat) : Strict (Screen × Bool) := do
  let row ← Strict.entry s y
  let lit ← strictCell row x
  let flipped ← Strict.replace s y (row ^^^ spriteRow x 0x80)
  return (flipped, lit)

/-- One line of a sprite, from the left up to the edge of the grid. -/
def strictLine (x line : Nat) (cells : UInt8) : List Nat → Screen × Bool → Strict (Screen × Bool)
  | [], drawn => return drawn
  | column :: columns, drawn => do
    let px ← Strict.add 64 x column
    if width ≤ px then return drawn
    else
      let set ← Strict.bit cells column
      if set then
        let flipped ← strictFlip drawn.1 px line
        strictLine x line cells columns (flipped.1, drawn.2 || flipped.2)
      else strictLine x line cells columns drawn

def strictLines (x y : Nat) : Nat → List UInt8 → Screen × Bool → Strict (Screen × Bool)
  | _, [], drawn => return drawn
  | row, cells :: rows, drawn => do
    let line ← Strict.add 64 y row
    if height ≤ line then return drawn
    else
      let drawn ← strictLine x line cells (List.range 8) drawn
      strictLines x y (row + 1) rows drawn

end Screen

namespace Framebuffer

def strictDraw (fb : Framebuffer) (x y : Nat) (rows : List UInt8) :
    Strict (Framebuffer × Bool) := do
  let drawn ← Screen.strictLines x y 0 rows (fb.screen, false)
  return ({ fb with screen := drawn.1 }, drawn.2)

def push (fb : Framebuffer) : Framebuffer where
  screen := fb.screen
  history := (if fb.history.length = depth then fb.history.tail else fb.history) ++ [fb.screen]
  history_length_le := by
    have h := fb.history_length_le
    unfold depth
    split <;> simp only [List.length_append, List.length_tail, List.length_singleton] <;> omega

def strictComposite (fb : Framebuffer) : Strict (Framebuffer × List GlowCell) := do
  let shots ← fb.push.history.zipIdx.mapM fun shot ↦
    (Screen.litCells shot.1).mapM fun cell ↦ do
      let level ← Strict.narrow 8 shot.2
      return ⟨cell.1, cell.2, level⟩
  return (fb.push, shots.flatten)

end Framebuffer

end Phosphor
