namespace Phosphor.Numeral

def digit? (base : Nat) (c : Char) : Option Nat :=
  let value :=
    if '0' ≤ c ∧ c ≤ '9' then c.toNat - 48
    else if 'a' ≤ c ∧ c ≤ 'f' then c.toNat - 87
    else if 'A' ≤ c ∧ c ≤ 'F' then c.toNat - 55
    else base
  if value < base then some value else none

def natural? (base : Nat) : List Char → Option Nat
  | [] => none
  | cs => cs.foldlM (fun n c ↦ (digit? base c).map fun d ↦ base * n + d) 0

def unsigned? (base : Nat) : List Char → Option Nat
  | '+' :: cs => natural? base cs
  | cs => natural? base cs

def signed? : List Char → Option Int
  | '-' :: cs => (natural? 10 cs).map fun n ↦ -(n : Int)
  | cs => (unsigned? 10 cs).map fun n ↦ (n : Int)

def prefixed? : List Char → Option Nat
  | '0' :: 'x' :: cs => unsigned? 16 cs
  | '0' :: 'X' :: cs => unsigned? 16 cs
  | cs => unsigned? 10 cs

def address? (text : String) : Option UInt16 :=
  match prefixed? text.toList with
  | some n => if n < 65536 then some (UInt16.ofNat n) else none
  | none => none

def count? (text : String) : Option UInt32 :=
  match signed? text.toList with
  | some n => if 0 ≤ n ∧ n < UInt32.size then some (UInt32.ofNat n.toNat) else none
  | none => none

def seed? (text : String) : Option UInt64 :=
  match unsigned? 10 text.toList with
  | some n => if n < UInt64.size then some (UInt64.ofNat n) else none
  | none => none

end Phosphor.Numeral
