import Mathlib.Data.Nat.Dist
import Phosphor.Desktop.FrameClock

namespace Phosphor.Desktop.FrameClock

/-- A whole number that is written with twenty-four binary digits and zeros behind them: in
units of `2 ^ -149`, a binary32 value that is not negative. -/
def Representable (n : Nat) : Prop :=
  ∃ mantissa exponent, mantissa < 2 ^ 24 ∧ n = mantissa * 2 ^ exponent

/-- The fraction rounds to the number: to the nearest representable one, and half way between
two neighbours to the one that is an even multiple of their distance. -/
structure RoundsTo (num den r : Nat) : Prop where
  representable : Representable r
  nearest : ∀ v, Representable v → Nat.dist (den * r) num ≤ Nat.dist (den * v) num
  even : ∀ v, Representable v → v ≠ r → Nat.dist (den * v) num = Nat.dist (den * r) num →
    2 * Nat.dist v r ∣ r

variable {num den n k r v : Nat}

theorem representable_mul {mantissa : Nat} (h : mantissa ≤ 2 ^ 24) (exponent : Nat) :
    Representable (mantissa * 2 ^ exponent) := by
  rcases Nat.lt_or_eq_of_le h with hlt | rfl
  · exact ⟨mantissa, exponent, hlt, rfl⟩
  · refine ⟨2 ^ 23, exponent + 1, by decide, ?_⟩
    rw [← Nat.pow_add, ← Nat.pow_add]
    congr 1
    omega

theorem mul_two_pow_of_le {exponent : Nat} (h : k ≤ exponent) (mantissa : Nat) :
    mantissa * 2 ^ exponent = mantissa * 2 ^ (exponent - k) * 2 ^ k := by
  rw [Nat.mul_assoc, ← Nat.pow_add, Nat.sub_add_cancel h]

theorem Representable.exists_succ_mul (h : Representable v) (hpos : 0 < v)
    (hle : v ≤ 2 ^ 24 * 2 ^ k) :
    ∃ low exponent, low < 2 ^ 24 ∧ exponent ≤ k ∧ v = (low + 1) * 2 ^ exponent := by
  obtain ⟨mantissa, exponent, hmantissa, rfl⟩ := h
  rcases Nat.le_total exponent k with hsmall | hbig
  · have hne : 0 < mantissa := Nat.pos_of_mul_pos_right hpos
    exact ⟨mantissa - 1, exponent, by omega, hsmall, by rw [Nat.sub_add_cancel hne]⟩
  · rw [mul_two_pow_of_le hbig mantissa] at hpos hle ⊢
    have hne : 0 < mantissa * 2 ^ (exponent - k) := Nat.pos_of_mul_pos_right hpos
    have hcount : mantissa * 2 ^ (exponent - k) ≤ 2 ^ 24 :=
      Nat.le_of_mul_le_mul_right hle (Nat.two_pow_pos k)
    exact ⟨mantissa * 2 ^ (exponent - k) - 1, k, by omega, Nat.le_refl k,
      by rw [Nat.sub_add_cancel hne]⟩

theorem Representable.exists_mul (h : Representable v) (hlt : 2 ^ 24 * 2 ^ k < v) :
    ∃ count, v = count * 2 ^ (k + 1) := by
  obtain ⟨mantissa, exponent, hmantissa, rfl⟩ := h
  have hbig : k + 1 ≤ exponent := by
    by_contra hsmall
    have hle : mantissa * 2 ^ exponent ≤ 2 ^ 24 * 2 ^ k :=
      Nat.mul_le_mul (Nat.le_of_lt hmantissa) (Nat.pow_le_pow_right (by decide) (by omega))
    omega
  exact ⟨_, mul_two_pow_of_le hbig mantissa⟩

/-- Nothing representable lies between two multiples of a power of two that have all their
digits. -/
theorem le_or_le_of_representable (hv : Representable v) (low : Nat) (hlow : k = 0 ∨ 2 ^ 23 ≤ low) :
    v ≤ low * 2 ^ k ∨ (low + 1) * 2 ^ k ≤ v := by
  obtain ⟨mantissa, exponent, hmantissa, rfl⟩ := hv
  by_cases hk : k ≤ exponent
  · rw [mul_two_pow_of_le hk mantissa]
    rcases Nat.lt_or_ge low (mantissa * 2 ^ (exponent - k)) with hlt | hge
    · exact .inr (Nat.mul_le_mul_right _ hlt)
    · exact .inl (Nat.mul_le_mul_right _ hge)
  · left
    calc mantissa * 2 ^ exponent ≤ 2 ^ 24 * 2 ^ (k - 1) :=
          Nat.mul_le_mul (Nat.le_of_lt hmantissa) (Nat.pow_le_pow_right (by decide) (by omega))
      _ = 2 ^ 23 * 2 ^ k := by
          rw [← Nat.pow_add, ← Nat.pow_add]
          congr 1
          omega
      _ ≤ low * 2 ^ k := Nat.mul_le_mul_right _ (by omega)

theorem dist_lt_of_representable {lower upper : Nat} (hden : 0 < den) (hle : den * lower ≤ num)
    (hge : num ≤ den * upper) (hv : v ≤ lower ∨ upper ≤ v) :
    v = lower ∨ v = upper ∨
      min (Nat.dist (den * lower) num) (Nat.dist (den * upper) num) < Nat.dist (den * v) num := by
  rw [Nat.dist_eq_sub_of_le hle, Nat.dist_eq_sub_of_le_right hge]
  rcases hv with hv | hv
  · rcases Nat.eq_or_lt_of_le hv with heq | hlt
    · exact .inl heq
    · have hmul : den * v < den * lower := Nat.mul_lt_mul_of_pos_left hlt hden
      rw [Nat.dist_eq_sub_of_le (by omega)]
      omega
  · rcases Nat.eq_or_lt_of_le hv with heq | hlt
    · exact .inr (.inl heq.symm)
    · have hmul : den * upper < den * v := Nat.mul_lt_mul_of_pos_left hlt hden
      rw [Nat.dist_eq_sub_of_le_right (by omega)]
      omega

theorem roundsTo_of_neighbours {s : Nat} (hr : Representable r)
    (hfar : ∀ v, Representable v →
      v = r ∨ v = s ∨ Nat.dist (den * r) num < Nat.dist (den * v) num)
    (hpick : Nat.dist (den * r) num < Nat.dist (den * s) num ∨
      Nat.dist (den * r) num = Nat.dist (den * s) num ∧ 2 * Nat.dist s r ∣ r) :
    RoundsTo num den r := by
  refine ⟨hr, fun v hv ↦ ?_, fun v hv hne htie ↦ ?_⟩
  · rcases hfar v hv with rfl | rfl | hlt
    · exact Nat.le_refl _
    · omega
    · exact Nat.le_of_lt hlt
  · rcases hfar v hv with rfl | rfl | hlt
    · exact absurd rfl hne
    · exact (hpick.resolve_left fun hlt ↦ Nat.ne_of_gt hlt htie).2
    · exact absurd htie (Nat.ne_of_gt hlt)

theorem RoundsTo.unique {s : Nat} (hr : RoundsTo num den r) (hs : RoundsTo num den s) : r = s := by
  by_contra hne
  have htie : Nat.dist (den * r) num = Nat.dist (den * s) num :=
    Nat.le_antisymm (hr.nearest s hs.representable) (hs.nearest r hr.representable)
  have hdvd_s : 2 * Nat.dist r s ∣ s := hs.even r hr.representable hne htie
  have hdvd_r : 2 * Nat.dist r s ∣ r := by
    rw [Nat.dist_comm]
    exact hr.even s hs.representable (Ne.symm hne) htie.symm
  -- their distance would be a multiple of its double
  have hdvd : 2 * Nat.dist r s ∣ Nat.dist r s :=
    Nat.dvd_add (Nat.dvd_sub hdvd_r hdvd_s) (Nat.dvd_sub hdvd_s hdvd_r)
  have hpos : 0 < Nat.dist r s := Nat.pos_of_ne_zero fun h ↦ hne (Nat.eq_of_dist_eq_zero h)
  have hle := Nat.le_of_dvd hpos hdvd
  omega

theorem leading_digits (h : n.log2 + 1 - 24 = k) :
    n / 2 ^ k < 2 ^ 24 ∧ (k = 0 ∨ 2 ^ 23 ≤ n / 2 ^ k) := by
  have hpos : 0 < 2 ^ k := Nat.two_pow_pos k
  constructor
  · rw [Nat.div_lt_iff_lt_mul hpos, ← Nat.pow_add]
    exact Nat.lt_of_lt_of_le Nat.lt_log2_self (Nat.pow_le_pow_right (by decide) (by omega))
  · refine (Nat.eq_zero_or_pos k).imp id fun hk ↦ ?_
    have hne : n ≠ 0 := by
      rintro rfl
      rw [Nat.log2_zero] at h
      omega
    rw [Nat.le_div_iff_mul_le hpos, ← Nat.pow_add, show 23 + k = n.log2 by omega]
    exact Nat.log2_self_le hne

theorem roundsTo_of_excess {low excess : Nat} (hlow : low < 2 ^ 24)
    (hdigits : k = 0 ∨ 2 ^ 23 ≤ low) (hn : n = low * 2 ^ k + excess) (hexcess : excess < 2 ^ k) :
    RoundsTo n 1
      (if 2 * excess < 2 ^ k ∨ 2 * excess = 2 ^ k ∧ low % 2 = 0 then low * 2 ^ k
        else (low + 1) * 2 ^ k) := by
  have hnext : (low + 1) * 2 ^ k = low * 2 ^ k + 2 ^ k := Nat.succ_mul low (2 ^ k)
  have hlower : Nat.dist (1 * (low * 2 ^ k)) n = excess := by
    rw [Nat.dist_eq_sub_of_le (by omega)]
    omega
  have hupper : Nat.dist (1 * ((low + 1) * 2 ^ k)) n = 2 ^ k - excess := by
    rw [Nat.dist_eq_sub_of_le_right (by omega)]
    omega
  have hgap : Nat.dist ((low + 1) * 2 ^ k) (low * 2 ^ k) = 2 ^ k := by
    rw [Nat.dist_eq_sub_of_le_right (by omega)]
    omega
  have hfar : ∀ v, Representable v → v = low * 2 ^ k ∨ v = (low + 1) * 2 ^ k ∨
      min excess (2 ^ k - excess) < Nat.dist (1 * v) n := by
    intro v hv
    rw [← hupper, ← hlower]
    exact dist_lt_of_representable Nat.one_pos (by omega) (by omega)
      (le_or_le_of_representable hv low hdigits)
  split
  case isTrue hnear =>
    apply roundsTo_of_neighbours (s := (low + 1) * 2 ^ k) (representable_mul (Nat.le_of_lt hlow) k)
    · intro v hv
      have hv' := hfar v hv
      rw [hlower]
      omega
    · rw [hlower, hupper, hgap]
      rcases hnear with hlt | ⟨heq, heven⟩
      · left
        omega
      · right
        exact ⟨by omega, Nat.mul_dvd_mul_right (Nat.dvd_of_mod_eq_zero heven) _⟩
  case isFalse hnear =>
    have hnext_representable : Representable ((low + 1) * 2 ^ k) := representable_mul hlow k
    apply roundsTo_of_neighbours (s := low * 2 ^ k) hnext_representable
    · intro v hv
      have hv' := hfar v hv
      rw [hupper]
      omega
    · rw [hlower, hupper, Nat.dist_comm, hgap]
      rcases Nat.lt_or_ge (2 ^ k) (2 * excess) with hlt | hge
      · left
        omega
      · right
        have heven : (low + 1) % 2 = 0 := by omega
        exact ⟨by omega, Nat.mul_dvd_mul_right (Nat.dvd_of_mod_eq_zero heven) _⟩

/-- What the clock rounds by is rounding to nearest. -/
theorem roundsTo_round (n : Nat) : RoundsTo n 1 (round n) := by
  have hunit : 1 <<< (n.log2 + 1 - 24) = 2 ^ (n.log2 + 1 - 24) := Nat.one_shiftLeft _
  unfold round
  rw [hunit]
  obtain ⟨hlow, hdigits⟩ := leading_digits (n := n) rfl
  exact roundsTo_of_excess hlow hdigits (Nat.div_add_mod' n _).symm
    (Nat.mod_lt n (Nat.two_pow_pos _))

def second : Nat := 2 ^ 149

theorem roundsTo_frameTime : RoundsTo second 60 frameTime := by
  have hnext : (8947848 + 1) * 2 ^ 120 = frameTime := by decide +kernel
  have hlower : 60 * (8947848 * 2 ^ 120) ≤ second := by decide +kernel
  have hupper : second ≤ 60 * frameTime := by decide +kernel
  have hnear : Nat.dist (60 * frameTime) second < Nat.dist (60 * (8947848 * 2 ^ 120)) second := by
    rw [Nat.dist_eq_sub_of_le hlower, Nat.dist_eq_sub_of_le_right hupper]
    decide +kernel
  refine roundsTo_of_neighbours (s := 8947848 * 2 ^ 120) ⟨8947849, 120, by decide, hnext.symm⟩
    (fun v hv ↦ ?_) (.inl hnear)
  have hgrid := le_or_le_of_representable (k := 120) hv 8947848 (.inr (by decide))
  rw [hnext] at hgrid
  have hfar := dist_lt_of_representable (by decide) hlower hupper hgrid
  omega

/-- The same quotient as a binary32 number has the exponent `0x79` and the fraction
`0x088889`. -/
example :
    (1.0 / 60.0 : Float32).toBits = 0x3C888889 ∧
      frameTime = (2 ^ 23 + 0x088889) * 2 ^ (0x79 - 1) := by
  decide +kernel

end Phosphor.Desktop.FrameClock
