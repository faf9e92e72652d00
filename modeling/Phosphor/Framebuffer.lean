import Phosphor.Screen

namespace Phosphor

/-- A lit cell of a shown picture. The level is the age rank of the snapshot
it comes from, zero for the oldest. -/
structure GlowCell where
  x : Nat
  y : Nat
  level : Nat
  deriving DecidableEq, Repr

inductive CellFault
  | row (y : Nat)
  | column (x : Nat)
  deriving DecidableEq, Repr

def CellFault.message : CellFault → String
  | .row y => "index out of bounds: the len is " ++ toString Screen.height ++
      " but the index is " ++ toString y
  | .column x => "index out of bounds: the len is " ++ toString Screen.width ++
      " but the index is " ++ toString x

/-- The current picture and the snapshots that still glow, oldest first. -/
structure Framebuffer where
  screen : Screen
  history : List Screen
  history_length_le : history.length ≤ 6
  deriving DecidableEq

namespace Framebuffer

def depth : Nat := 6

def dark : Framebuffer := ⟨Screen.blank, [], by decide⟩

def clear (fb : Framebuffer) : Framebuffer := { fb with screen := Screen.blank }

def draw (fb : Framebuffer) (x y : Nat) (rows : List UInt8) : Framebuffer × Bool :=
  let cells := Screen.mask x y rows
  ({ fb with screen := Screen.flip fb.screen cells }, Screen.overlaps fb.screen cells)

/-- A line that does not exist is reported before a missing column. -/
def cell (fb : Framebuffer) (y x : Nat) : Except CellFault Bool :=
  if Screen.height ≤ y then .error (.row y)
  else if Screen.width ≤ x then .error (.column x)
  else .ok (Screen.lit fb.screen x y)

def retained (snapshots : List Screen) : List Screen :=
  snapshots.drop (snapshots.length - depth)

theorem retained_length (snapshots : List Screen) :
    (retained snapshots).length = min snapshots.length depth := by
  simp only [retained, List.length_drop]
  omega

def snapshot (fb : Framebuffer) : Framebuffer where
  screen := fb.screen
  history := retained (fb.history ++ [fb.screen])
  history_length_le := by
    rw [retained_length]
    exact Nat.min_le_right _ _

def glow (fb : Framebuffer) : List GlowCell :=
  fb.history.zipIdx.flatMap fun shot ↦
    (Screen.litCells shot.1).map fun cell ↦ ⟨cell.1, cell.2, shot.2⟩

def composite (fb : Framebuffer) : Framebuffer × List GlowCell :=
  (fb.snapshot, fb.snapshot.glow)

end Framebuffer

end Phosphor
