import Phosphor.Bytes
import Phosphor.Font
import Phosphor.Word

namespace Phosphor

abbrev Memory := Vector UInt8 4096

namespace Memory

def size : Nat := 4096

def programStart : Nat := 0x200

def capacity : Nat := size - programStart

def powerOn : Memory := Bytes.write (Vector.replicate 4096 0) Font.start Font.bytes

def withProgram (program : List UInt8) : Memory := Bytes.write powerOn programStart program

def word? (m : Memory) (address : Nat) : Option Word :=
  match m[address]?, m[address + 1]? with
  | some high, some low => some (Word.ofBytes high low)
  | _, _ => none

theorem word?_eq_none {m : Memory} {address : Nat} : m.word? address = none ↔ 4095 ≤ address := by
  unfold word?
  split
  · rename_i high low _ hl
    have := (Vector.getElem?_eq_some_iff.1 hl).1
    simp only [reduceCtorEq, false_iff]
    omega
  · rename_i h
    refine iff_of_true rfl ?_
    apply Decidable.byContradiction
    intro ha
    exact h _ _ (Vector.getElem?_eq_getElem (by omega)) (Vector.getElem?_eq_getElem (by omega))

end Memory

end Phosphor
