import Mathlib.Algebra.GroupWithZero.Nat
import Phosphor.Proofs.Disassembly

namespace Phosphor

def FourDigits (cs : List Char) (n : Nat) : Prop :=
  cs.length = 4 ∧ (∀ c ∈ cs, c ∈ "0123456789ABCDEF".toList) ∧ Numeral.natural? 16 cs = some n

/-- What memory holds once a program is loaded: the font, the program, and zero elsewhere. -/
def Memory.image (program : List UInt8) (address : Nat) : UInt8 :=
  if address < 80 then Font.bytes.getD address 0
  else if 0x200 ≤ address ∧ address < 0x200 + program.length then
    program.getD (address - 0x200) 0
  else 0

namespace Numeral

theorem digit?_digit {d : Nat} (h : d < 16) : digit? 16 (Hex.digit d) = some d := by
  have key : ∀ d : Fin 16, digit? 16 (Hex.digit d) = some d.val := by decide
  exact key ⟨d, h⟩

theorem foldlM_digits (width n : Nat) :
    (Hex.digits width n).foldlM (fun n c ↦ (digit? 16 c).map fun d ↦ 16 * n + d) 0 =
      some (n % 16 ^ width) := by
  induction width generalizing n with
  | zero => simp [Hex.digits, Nat.mod_one]
  | succ width ih =>
    rw [Hex.digits, List.foldlM_append, ih, Nat.pow_succ, Nat.mul_comm, Nat.mod_mul]
    simp [digit?_digit (Nat.mod_lt n (by decide)), Nat.add_comm]

end Numeral

theorem Hex.digit_mem {d : Nat} (h : d < 16) : digit d ∈ "0123456789ABCDEF".toList := by
  have key : ∀ d : Fin 16, digit d ∈ "0123456789ABCDEF".toList := by decide
  exact key ⟨d, h⟩

theorem Hex.mem_digits {width n : Nat} {c : Char} (h : c ∈ digits width n) :
    c ∈ "0123456789ABCDEF".toList := by
  induction width generalizing n with
  | zero => cases h
  | succ width ih =>
    rcases List.mem_append.1 h with hleading | hlast
    · exact ih hleading
    · rw [List.mem_singleton.1 hlast]
      exact digit_mem (Nat.mod_lt n (by decide))

theorem fourDigits_digits {n : Nat} (h : n < 65536) : FourDigits (Hex.digits 4 n) n := by
  refine ⟨Hex.digits_length 4 n, fun c hc ↦ Hex.mem_digits hc, ?_⟩
  have hread := Numeral.foldlM_digits 4 n
  have hwidth : n < 16 ^ 4 := h
  rw [Nat.mod_eq_of_lt hwidth] at hread
  exact hread

namespace Memory

theorem getElem?_powerOn {k : Nat} (hk : k < 4096) :
    powerOn[k]? = some (Font.bytes.getD k 0) := by
  have hlength := Font.bytes_length
  rw [powerOn, Bytes.getElem?_write, List.getD_eq_getElem?_getD]
  unfold Font.start
  by_cases hfont : k < Font.bytes.length
  · rw [if_pos (by omega), Nat.sub_zero, List.getElem?_eq_getElem hfont]
    rfl
  · rw [if_neg (by omega), List.getElem?_eq_none (Nat.not_lt.1 hfont),
      Vector.getElem?_eq_getElem hk, Vector.getElem_replicate]
    rfl

theorem getElem?_withProgram (program : List UInt8) (k : Nat) :
    (withProgram program)[k]? = if k < 4096 then some (image program k) else none := by
  have hlength : Font.bytes.length = 80 := Font.bytes_length
  rw [withProgram, Bytes.getElem?_write]
  unfold programStart image
  by_cases hk : k < 4096
  · rw [if_pos hk]
    by_cases hprogram : 0x200 ≤ k ∧ k < 0x200 + program.length
    · have hin : k - 0x200 < program.length := by omega
      rw [if_pos (by omega), if_neg (by omega), if_pos hprogram, List.getD_eq_getElem?_getD,
        List.getElem?_eq_getElem hin]
      rfl
    · rw [if_neg (by omega), if_neg hprogram, getElem?_powerOn hk]
      split
      · rfl
      · rw [List.getD_eq_getElem?_getD, List.getElem?_eq_none (by omega), Option.getD_none]
  · rw [if_neg hk, if_neg (by omega), Vector.getElem?_eq_none (Nat.not_lt.1 hk)]

theorem word?_withProgram (program : List UInt8) (address : Nat) :
    (withProgram program).word? address =
      if address ≤ 0xFFE then
        some (Word.ofBytes (image program address) (image program (address + 1)))
      else none := by
  split
  · rename_i haddress
    have hlow : address < 4096 := by omega
    have hhigh : address + 1 < 4096 := by omega
    simp only [word?, getElem?_withProgram, hlow, hhigh, if_true]
  · rename_i haddress
    exact word?_eq_none.2 (by omega)

end Memory

theorem mapM_map_of_forall {α β γ : Type} {f : β → Option γ} {g : α → β} {g' : α → γ} {xs : List α}
    (h : ∀ x ∈ xs, f (g x) = some (g' x)) : (xs.map g).mapM f = some (xs.map g') := by
  induction xs with
  | nil => rfl
  | cons x xs ih =>
    obtain ⟨hfirst, hrest⟩ := List.forall_mem_cons.1 h
    rw [List.map_cons, List.mapM_cons, hfirst, ih hrest]
    rfl

namespace Listing

/-- The line shows the word at an address of an image of memory: address and word in four
digits each, then the mnemonic. -/
def Lists (image : Nat → UInt8) (address : Nat) (line : String) : Prop :=
  ∃ (w : Word) (left right : List Char),
    w.toNat = 256 * (image address).toNat + (image (address + 1)).toNat ∧
    FourDigits left address ∧ FourDigits right w.toNat ∧
    line = String.ofList (left ++ [':', ' '] ++ right ++ [' ']) ++ disassemble w

def readLine (line : String) : Option (List UInt8) :=
  (Numeral.natural? 16 ((line.toList.drop 6).take 4)).map fun n ↦
    [UInt8.ofNat (n / 256), UInt8.ofNat (n % 256)]

def readBack (output : List String) : Option (List UInt8) :=
  (output.mapM readLine).map List.flatten

variable {program : List UInt8}

def wordOf (program : List UInt8) (address : Nat) : Word :=
  Word.ofBytes (Memory.image program address) (Memory.image program (address + 1))

theorem filterMap_range' {β : Type} {f : Nat → Option β} {g : Nat → β}
    (hf : ∀ a, f a = if a ≤ 0xFFE then some (g a) else none) (s n : Nat) :
    (List.range' s n 2).filterMap f =
      (List.range' s (min n ((0xFFF - s + 1) / 2)) 2).map g := by
  induction n generalizing s with
  | zero => simp
  | succ n ih =>
    rw [List.range'_succ, List.filterMap_cons, hf, ih]
    by_cases hs : s ≤ 0xFFE
    · have hcount : min (n + 1) ((0xFFF - s + 1) / 2) =
          min n ((0xFFF - (s + 2) + 1) / 2) + 1 := by omega
      rw [if_pos hs, hcount, List.range'_succ, List.map_cons]
    · have hnone : min n ((0xFFF - (s + 2) + 1) / 2) = 0 := by omega
      have hnone' : min (n + 1) ((0xFFF - s + 1) / 2) = 0 := by omega
      rw [if_neg hs, hnone, hnone']
      rfl

theorem lines_withProgram (program : List UInt8) (start stop : Nat) :
    lines (Memory.withProgram program) start stop =
      (List.range' start (min ((stop - start + 1) / 2) ((0xFFF - start + 1) / 2)) 2).map
        fun address ↦ ⟨address, wordOf program address⟩ := by
  refine filterMap_range' (fun address ↦ ?_) start _
  rw [Memory.word?_withProgram]
  split
  · rfl
  · rfl

theorem toNat_wordOf (address : Nat) :
    (wordOf program address).toNat =
      256 * (Memory.image program address).toNat + (Memory.image program (address + 1)).toNat :=
  Word.toNat_ofBytes _ _

theorem Line.text_eq {l : Line} (h : l.address < 65536) :
    l.text = String.ofList
      (Hex.digits 4 l.address ++ [':', ' '] ++ Hex.digits 4 l.word.toNat ++ [' ']) ++
        disassemble l.word := by
  rw [Line.text, Hex.text_of_lt (by decide) h, Hex.text_of_lt (by decide) l.word.toNat_lt]
  simp only [String.ofList_append]

theorem lists_text {address : Nat} (h : address < 65536) :
    Lists (Memory.image program) address (Line.text ⟨address, wordOf program address⟩) :=
  ⟨wordOf program address, _, _, toNat_wordOf address, fourDigits_digits h,
    fourDigits_digits (wordOf program address).toNat_lt, Line.text_eq h⟩

theorem readLine_of_lists {image : Nat → UInt8} {address : Nat} {line : String}
    (h : Lists image address line) : readLine line = some [image address, image (address + 1)] := by
  obtain ⟨w, left, right, hw, hleft, hright, rfl⟩ := h
  have hword : ((String.ofList (left ++ [':', ' '] ++ right ++ [' ']) ++
      disassemble w).toList.drop 6).take 4 = right := by
    have hsix : (left ++ [':', ' ']).length = 6 := by rw [List.length_append, hleft.1]; rfl
    rw [String.toList_append, String.toList_ofList, List.append_assoc, List.append_assoc,
      ← hsix, List.drop_left, ← hright.1, List.take_left]
  have hhigh := (image address).toNat_lt
  have hlow := (image (address + 1)).toNat_lt
  rw [readLine, hword, hright.2.2, Option.map_some, hw,
    show (256 * (image address).toNat + (image (address + 1)).toNat) / 256 =
      (image address).toNat by omega,
    show (256 * (image address).toNat + (image (address + 1)).toNat) % 256 =
      (image (address + 1)).toNat by omega, UInt8.ofNat_toNat, UInt8.ofNat_toNat]

theorem flatten_pairs {β : Type} (f : Nat → β) (s n : Nat) :
    ((List.range' s n 2).map fun a ↦ [f a, f (a + 1)]).flatten = (List.range' s (2 * n)).map f := by
  induction n generalizing s with
  | zero => rfl
  | succ n ih =>
    rw [List.range'_succ, List.map_cons, List.flatten_cons, ih, Nat.mul_succ, List.range'_succ,
      List.range'_succ]
    rfl

theorem map_image (program : List UInt8) :
    (List.range' 0x200 (2 * ((program.length + 1) / 2))).map (Memory.image program) =
      program ++ List.replicate (program.length % 2) 0 := by
  apply List.ext_getElem?
  intro k
  rw [List.getElem?_map, List.getElem?_append, List.getElem?_replicate]
  by_cases hk : k < 2 * ((program.length + 1) / 2)
  · rw [List.getElem?_range' hk, Option.map_some]
    unfold Memory.image
    by_cases hprogram : k < program.length
    · rw [if_neg (by omega), if_pos (by omega), if_pos hprogram, List.getD_eq_getElem?_getD,
        show 0x200 + 1 * k - 0x200 = k by omega, List.getElem?_eq_getElem hprogram]
      rfl
    · rw [if_neg (by omega), if_neg (by omega), if_neg hprogram, if_pos (by omega)]
  · rw [if_neg (by omega), if_neg (by omega), List.getElem?_eq_none, Option.map_none]
    rw [List.length_range']
    omega

theorem readBack_of_lists (image : Nat → UInt8) {addresses : List Nat} {line : Nat → String}
    (h : ∀ a ∈ addresses, Lists image a (line a)) :
    readBack (addresses.map line) =
      some (addresses.map fun a ↦ [image a, image (a + 1)]).flatten := by
  rw [readBack, mapM_map_of_forall fun a ha ↦ readLine_of_lists (h a ha), Option.map_some]

/-- A listing is exact, and without options it is lossless. For every program that fits and
every stretch asked for, it has one line for each second address of the stretch that a word
can be fetched from, in order, and ends there without an error. The words of the listing of a
whole program, read back from its lines, are the program, with a zero byte to make it even. -/
theorem listing_exact {program : List UInt8} (h : program.length ≤ 3584)
    (options : ListingOptions) :
    let start := (options.start.map UInt16.toNat).getD 0x200
    let stop := min
      ((options.length.map fun length ↦ start + length.toNat).getD (0x200 + program.length)) 4096
    let result := run options (.ok program)
    result.status = 0 ∧ result.errors = "" ∧
    (∀ k, if start + 2 * k < stop ∧ start + 2 * k ≤ 0xFFE then
        ∃ line, result.output[k]? = some line ∧
          Lists (Memory.image program) (start + 2 * k) line
      else result.output[k]? = none) ∧
    (options.start = none → options.length = none →
      readBack result.output = some (program ++ List.replicate (program.length % 2) 0)) := by
  intro start stop result
  have hstart : Listing.start options = start := by
    unfold Listing.start
    cases hs : options.start <;> simp only [start, hs] <;> rfl
  have hstop : Listing.stop options program = stop := by
    unfold Listing.stop
    rw [hstart]
    cases hl : options.length <;> simp only [stop, hl] <;> rfl
  have hload := Machine.load_of_fits h (.ofSeed 0)
  have hresult : result = ⟨0, _, ""⟩ := run_of_load hload options
  rw [Machine.memory_fresh, lines_withProgram, hstart, hstop, List.map_map] at hresult
  rw [hresult]
  refine ⟨rfl, rfl, fun k ↦ ?_, fun hs hl ↦ ?_⟩
  · rw [List.getElem?_map]
    split
    · rename_i hk
      rw [List.getElem?_range' (by omega), Option.map_some]
      exact ⟨_, rfl, lists_text (by omega)⟩
    · rename_i hk
      rw [List.getElem?_eq_none, Option.map_none]
      rw [List.length_range']
      omega
  · have hstart' : start = 0x200 := by simp only [start, hs, Option.map_none, Option.getD_none]
    have hstop' : stop = 0x200 + program.length := by
      simp only [stop, hl, Option.map_none, Option.getD_none]
      omega
    have hcount : min ((stop - start + 1) / 2) ((0xFFF - start + 1) / 2) =
        (program.length + 1) / 2 := by omega
    rw [hcount, hstart', readBack_of_lists (Memory.image program), flatten_pairs,
      map_image]
    intro address haddress
    obtain ⟨k, hk, rfl⟩ := List.mem_range'.1 haddress
    exact lists_text (by omega)

/-- An odd start, near the end of memory, and a program of odd length. -/
theorem listing_exact_odd :
    let program : List UInt8 := [0x00, 0xE0, 0x12]
    let whole := run ⟨"", none, none⟩ (.ok program)
    let tail := run ⟨"", some 0xFFD, some 9⟩ (.ok program)
    program.length ≤ 3584 ∧
      readBack whole.output = some [0x00, 0xE0, 0x12, 0x00] ∧
      (∃ line, tail.output[0]? = some line ∧ Lists (Memory.image program) 0xFFD line) ∧
      tail.output[1]? = none := by
  intro program whole tail
  have hfits : program.length ≤ 3584 := by decide
  obtain ⟨-, -, -, hback⟩ := listing_exact hfits ⟨"", none, none⟩
  obtain ⟨-, -, hlines, -⟩ := listing_exact hfits ⟨"", some 0xFFD, some 9⟩
  have heven : program ++ List.replicate (program.length % 2) 0 = [0x00, 0xE0, 0x12, 0x00] := by
    decide
  exact ⟨hfits, (hback rfl rfl).trans (congrArg some heven), hlines 0, hlines 1⟩

end Listing

end Phosphor
