namespace Phosphor.Bytes

variable {size : Nat}

/-- At most `count` bytes from `start` on, cut off at the end of the block. -/
def read (v : Vector UInt8 size) (start : Nat) : Nat → List UInt8
  | 0 => []
  | count + 1 =>
    match v[start]? with
    | some b => b :: read v (start + 1) count
    | none => []

/-- Overwrites the bytes from `start` on. Bytes that would land past the end
of the block are dropped. -/
def write (v : Vector UInt8 size) (start : Nat) : List UInt8 → Vector UInt8 size
  | [] => v
  | b :: bytes => write (v.setIfInBounds start b) (start + 1) bytes

theorem getElem?_read (v : Vector UInt8 size) (start count k : Nat) :
    (read v start count)[k]? = if k < count then v[start + k]? else none := by
  induction count generalizing start k with
  | zero => rfl
  | succ count ih =>
    rw [read]
    split
    · rename_i b hb
      cases k with
      | zero => simpa using hb.symm
      | succ k =>
        rw [List.getElem?_cons_succ, ih, show start + 1 + k = start + (k + 1) by omega]
        simp only [Nat.add_lt_add_iff_right]
    · rename_i hb
      have hs : size ≤ start := Vector.getElem?_eq_none_iff.1 hb
      rw [Vector.getElem?_eq_none (by omega)]
      simp

theorem getElem?_write (v : Vector UInt8 size) (start : Nat) (bytes : List UInt8) (k : Nat) :
    (write v start bytes)[k]? =
      if start ≤ k ∧ k < start + bytes.length ∧ k < size then bytes[k - start]? else v[k]? := by
  induction bytes generalizing v start with
  | nil =>
    rw [write, if_neg (by simp only [List.length_nil]; omega)]
  | cons b bytes ih =>
    rw [write, ih, Vector.getElem?_setIfInBounds]
    simp only [List.length_cons]
    by_cases hk : start = k
    · subst hk
      rw [if_neg (by omega), if_pos rfl]
      split
      · rw [if_pos (by omega), Nat.sub_self, List.getElem?_cons_zero]
      · rw [if_neg (by omega), Vector.getElem?_eq_none (by omega)]
    · rw [if_neg hk]
      by_cases h : start + 1 ≤ k ∧ k < start + 1 + bytes.length ∧ k < size
      · rw [if_pos h, if_pos (by omega), show k - start = (k - (start + 1)) + 1 by omega,
          List.getElem?_cons_succ]
      · rw [if_neg h, if_neg (by omega)]

theorem getElem?_write_of_outside {v : Vector UInt8 size} {start k : Nat} {bytes : List UInt8}
    (h : k < start ∨ start + bytes.length ≤ k) : (write v start bytes)[k]? = v[k]? := by
  rw [getElem?_write, if_neg (by omega)]

theorem length_read {v : Vector UInt8 size} {start count : Nat} (h : start + count ≤ size) :
    (read v start count).length = count := by
  induction count generalizing start with
  | zero => rfl
  | succ count ih =>
    rw [read, Vector.getElem?_eq_getElem (by omega), List.length_cons, ih (by omega)]

theorem read_write {v : Vector UInt8 size} {start count : Nat} {bytes : List UInt8}
    (hlength : bytes.length = count) (h : start + count ≤ size) :
    read (write v start bytes) start count = bytes := by
  apply List.ext_getElem?
  intro k
  rw [getElem?_read, getElem?_write]
  split
  · rw [if_pos (by omega), Nat.add_sub_cancel_left]
  · rw [List.getElem?_eq_none (by omega)]

theorem setIfInBounds_of_getElem? {v : Vector UInt8 size} {k : Nat} {b : UInt8}
    (h : v[k]? = some b) : v.setIfInBounds k b = v := by
  obtain ⟨hk, rfl⟩ := Vector.getElem?_eq_some_iff.1 h
  apply Vector.ext
  intro j hj
  rw [Vector.getElem_setIfInBounds hj]
  split
  · rename_i hkj
    subst hkj
    rfl
  · rfl

theorem write_read (v : Vector UInt8 size) (start count : Nat) :
    write v start (read v start count) = v := by
  induction count generalizing start with
  | zero => rfl
  | succ count ih =>
    rw [read]
    split
    · rename_i b hb
      rw [write, setIfInBounds_of_getElem? hb, ih]
    · rfl

end Phosphor.Bytes
