namespace Phosphor.Keystream

def rotateLeft (w : UInt32) (n : UInt32) : UInt32 := (w <<< n) ||| (w >>> (32 - n))

def rotateRight (w : UInt32) (n : UInt32) : UInt32 := (w >>> n) ||| (w <<< ((32 - n) % 32))

/-- The linear congruential generator that spreads a seed over the key. -/
def advance (s : UInt64) : UInt64 := s * 6364136223846793005 + 11634580027462260723

def permute (s : UInt64) : UInt32 :=
  rotateRight (((s >>> 18) ^^^ s) >>> 27).toUInt32 (s >>> 59).toUInt32

def key : Nat → UInt64 → List UInt32
  | 0, _ => []
  | count + 1, s => permute (advance s) :: key count (advance s)

abbrev State := Vector UInt32 16

def quarterRound (a b c d : Fin 16) (s : State) : State :=
  let s := s.set a (s[a] + s[b])
  let s := s.set d (rotateLeft (s[d] ^^^ s[a]) 16)
  let s := s.set c (s[c] + s[d])
  let s := s.set b (rotateLeft (s[b] ^^^ s[c]) 12)
  let s := s.set a (s[a] + s[b])
  let s := s.set d (rotateLeft (s[d] ^^^ s[a]) 8)
  let s := s.set c (s[c] + s[d])
  s.set b (rotateLeft (s[b] ^^^ s[c]) 7)

def doubleRound (s : State) : State :=
  let s := quarterRound 3 7 11 15 (quarterRound 2 6 10 14
    (quarterRound 1 5 9 13 (quarterRound 0 4 8 12 s)))
  quarterRound 3 4 9 14 (quarterRound 2 7 8 13
    (quarterRound 1 6 11 12 (quarterRound 0 5 10 15 s)))

def start (seed : UInt64) (counter : Nat) : State :=
  let words := [0x61707865, 0x3320646E, 0x79622D32, 0x6B206574] ++ key 8 seed ++
    [UInt32.ofNat counter, UInt32.ofNat (counter / UInt32.size), 0, 0]
  Vector.ofFn fun i : Fin 16 ↦ words.getD i.val 0

/-- One block of sixteen words: twelve rounds, then the start added back. -/
def block (seed : UInt64) (counter : Nat) : State :=
  (Nat.repeat doubleRound 6 (start seed counter)).zipWith (· + ·) (start seed counter)

/-- The byte at a position of the stream: the low byte of that word. -/
def byte (seed : UInt64) (position : Nat) : UInt8 :=
  ((block seed (position / 16)).get ⟨position % 16, Nat.mod_lt _ (by decide)⟩).toUInt8

end Phosphor.Keystream
