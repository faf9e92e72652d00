import Phosphor.Keystream

namespace Phosphor

structure RandomSource where
  seed : UInt64
  drawn : Nat
  deriving DecidableEq, Repr

namespace RandomSource

def ofSeed (seed : UInt64) : RandomSource := ⟨seed, 0⟩

def next (r : RandomSource) : UInt8 × RandomSource :=
  (Keystream.byte r.seed r.drawn, { r with drawn := r.drawn + 1 })

end RandomSource

end Phosphor
