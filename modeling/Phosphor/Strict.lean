import Mathlib.Algebra.GroupWithZero.Nat
import Phosphor.Bytes
import Phosphor.Nibble

namespace Phosphor

inductive Trap
  | overflow
  | lossy (bits value : Nat)
  | index (size index : Nat)
  | slice (size start stop : Nat)
  | copy (size length : Nat)
  | nibble (value : Nat)
  deriving DecidableEq, Repr

/-- An evaluation in which every operation that is not defined everywhere is checked: nothing
wraps, nothing is cut off and nothing is looked up where it is not. -/
abbrev Strict := Except Trap

namespace Strict

variable {α β : Type} {size : Nat}

def add (bits a b : Nat) : Strict Nat :=
  if a + b < 2 ^ bits then .ok (a + b) else .error .overflow

def mul (bits a b : Nat) : Strict Nat :=
  if a * b < 2 ^ bits then .ok (a * b) else .error .overflow

def sub (a b : Nat) : Strict Nat := if b ≤ a then .ok (a - b) else .error .overflow

def narrow (bits value : Nat) : Strict Nat :=
  if value < 2 ^ bits then .ok value else .error (.lossy bits value)

def nibble (value : Nat) : Strict Nibble :=
  if h : value < 16 then .ok ⟨value, h⟩ else .error (.nibble value)

/-- The bit of a byte that a shift by so many places brings to the front. -/
def bit (b : UInt8) (places : Nat) : Strict Bool :=
  if places < 8 then .ok (b.toBitVec.getMsbD places) else .error .overflow

def entry (v : Vector α size) (i : Nat) : Strict α :=
  if h : i < size then .ok v[i] else .error (.index size i)

def replace (v : Vector α size) (i : Nat) (a : α) : Strict (Vector α size) :=
  if h : i < size then .ok (v.set i a h) else .error (.index size i)

def slice (v : Vector UInt8 size) (start stop : Nat) : Strict (List UInt8) :=
  if start ≤ stop ∧ stop ≤ size then .ok (Bytes.read v start (stop - start))
  else .error (.slice size start stop)

def copy (v : Vector UInt8 size) (start stop : Nat) (bytes : List UInt8) :
    Strict (Vector UInt8 size) :=
  if start ≤ stop ∧ stop ≤ size then
    if bytes.length = stop - start then .ok (Bytes.write v start bytes)
    else .error (.copy (stop - start) bytes.length)
  else .error (.slice size start stop)

@[simp] theorem ok_bind (a : α) (f : α → Strict β) : ((.ok a : Strict α) >>= f) = f a := rfl

@[simp] theorem pure_eq_ok (a : α) : (pure a : Strict α) = .ok a := rfl

theorem add_of_lt {bits a b : Nat} (h : a + b < 2 ^ bits) : add bits a b = .ok (a + b) := if_pos h

theorem mul_of_lt {bits a b : Nat} (h : a * b < 2 ^ bits) : mul bits a b = .ok (a * b) := if_pos h

theorem sub_of_le {a b : Nat} (h : b ≤ a) : sub a b = .ok (a - b) := if_pos h

theorem narrow_of_lt {bits value : Nat} (h : value < 2 ^ bits) : narrow bits value = .ok value :=
  if_pos h

theorem nibble_of_lt {value : Nat} (h : value < 16) : nibble value = .ok ⟨value, h⟩ := dif_pos h

theorem bit_of_lt {b : UInt8} {places : Nat} (h : places < 8) :
    bit b places = .ok (b.toBitVec.getMsbD places) := if_pos h

theorem entry_of_lt {v : Vector α size} {i : Nat} (h : i < size) : entry v i = .ok v[i] :=
  dif_pos h

theorem replace_of_lt {v : Vector α size} {i : Nat} {a : α} (h : i < size) :
    replace v i a = .ok (v.set i a h) := dif_pos h

theorem slice_of_le {v : Vector UInt8 size} {start stop : Nat} (h : start ≤ stop)
    (hs : stop ≤ size) : slice v start stop = .ok (Bytes.read v start (stop - start)) :=
  if_pos ⟨h, hs⟩

theorem copy_of_length {v : Vector UInt8 size} {start stop : Nat} {bytes : List UInt8}
    (h : start + bytes.length = stop) (hs : stop ≤ size) :
    copy v start stop bytes = .ok (Bytes.write v start bytes) := by
  unfold copy
  rw [if_pos ⟨by omega, hs⟩, if_pos (by omega)]

theorem mapM_eq_ok {f : α → Strict β} {g : α → β} {l : List α} (h : ∀ a ∈ l, f a = .ok (g a)) :
    l.mapM f = .ok (l.map g) := by
  induction l with
  | nil => rfl
  | cons a l ih =>
    obtain ⟨hfirst, hrest⟩ := List.forall_mem_cons.1 h
    rw [List.mapM_cons, hfirst, ih hrest]
    rfl

end Strict

end Phosphor
