namespace Phosphor.Desktop.FrameClock

/-- Rounds to twenty-four significant binary digits, to the nearest and on a
tie to the even neighbour. Numbers count units of `2 ^ -149` seconds, so that
every finite binary32 value that is not negative is a whole number. -/
def round (n : Nat) : Nat :=
  let unit := 1 <<< (n.log2 + 1 - 24)
  let low := n / unit
  let excess := 2 * (n % unit)
  if excess < unit ∨ excess = unit ∧ low % 2 = 0 then low * unit else (low + 1) * unit

/-- One sixtieth of a second, rounded. -/
def frameTime : Nat := 8947849 <<< 120

def after (owed elapsed : Nat) : Nat := round (owed + elapsed)

def pass? (owed : Nat) : Option Nat :=
  if frameTime ≤ owed then some (round (owed - frameTime)) else none

/-- The frames that are due, at most `limit`, and the time owed after them. -/
def framesDue : Nat → Nat → Nat × Nat
  | 0, owed => (0, owed)
  | limit + 1, owed =>
    match pass? owed with
    | none => (0, owed)
    | some rest =>
      let later := framesDue limit rest
      (later.1 + 1, later.2)

end Phosphor.Desktop.FrameClock
