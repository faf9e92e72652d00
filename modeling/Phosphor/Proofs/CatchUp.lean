import Phosphor.Proofs.Batching
import Phosphor.Proofs.Rounding
import Phosphor.Proofs.Settling

namespace Phosphor

namespace Console

variable {c : Console} {n : Nat}

theorem frames_succ_of_error {fault : Fault} (h : c.frame.result = .error fault) (n : Nat) :
    c.frames (n + 1) = c.frame := by
  rw [frames, repeated_succ_of_error h, ← h]
  rfl

theorem frames_succ_of_ok (h : c.frame.result = .ok ()) (n : Nat) :
    c.frames (n + 1) =
      ⟨(c.frame.console.frames n).console, c.frame.cues ++ (c.frame.console.frames n).cues,
        (c.frame.console.frames n).result⟩ := by
  rw [frames, frames, repeated_succ_of_ok h, repeated_frame, repeated_frame]
  rfl

theorem frames_of_pending {x : Nibble} (h : c.machine.keypad.pending = some x) (n : Nat) :
    (c.frames n).result = .ok () := by
  induction n generalizing c with
  | zero => rfl
  | succ n ih =>
    rw [frames_succ_of_ok (congrArg Reply.result (frame_of_pending h)), frame_of_pending h]
    exact ih h

end Console

namespace Desktop.FrameClock

/-- The longest time owed that a pass lowers: `524288` seconds, a little over six days. -/
def stall : Nat := 524288 * second

/-- A redraw catches up with the time owed: a frame for each pass until less than the time of a
frame is left, or up to the first that fails. With it the time left, and what the frames leave
behind. -/
inductive CatchUp : Nat → Console → Nat → Reply (Except Fault Unit) → Prop
  | caughtUp {owed : Nat} {c : Console} :
      pass? owed = none → CatchUp owed c owed ⟨c, [], .ok ()⟩
  | failed {owed rest : Nat} {c : Console} {fault : Fault} :
      pass? owed = some rest → c.frame.result = .error fault → CatchUp owed c rest c.frame
  | again {owed rest left : Nat} {c : Console} {reply : Reply (Except Fault Unit)} :
      pass? owed = some rest → c.frame.result = .ok () →
      CatchUp rest c.frame.console left reply →
      CatchUp owed c left ⟨reply.console, c.frame.cues ++ reply.cues, reply.result⟩

variable {owed elapsed rest left n : Nat} {c : Console} {reply : Reply (Except Fault Unit)}

theorem pass?_eq_none_iff : pass? owed = none ↔ owed < frameTime := by
  simp [pass?]

theorem pass?_eq_some_iff :
    pass? owed = some rest ↔ frameTime ≤ owed ∧ RoundsTo (owed - frameTime) 1 rest := by
  unfold pass?
  split
  case isTrue h =>
    rw [Option.some.injEq]
    constructor
    · rintro rfl
      exact ⟨h, roundsTo_round _⟩
    · exact fun hrest ↦ (roundsTo_round _).unique hrest.2
  case isFalse h => simp [h]

theorem stall_eq : stall = 2 ^ 24 * 2 ^ 144 := by decide +kernel

theorem exists_below (h : Representable owed) (hframe : frameTime ≤ owed) (hle : owed ≤ stall) :
    ∃ v, Representable v ∧ v < owed ∧ owed < v + 2 * frameTime := by
  have hfine : 2 ^ 144 < 2 * frameTime := by decide +kernel
  have hpos : 0 < frameTime := by decide +kernel
  obtain ⟨low, exponent, hlow, hexponent, rfl⟩ :=
    h.exists_succ_mul (Nat.lt_of_lt_of_le hpos hframe) (stall_eq ▸ hle)
  have hunit : 2 ^ exponent ≤ 2 ^ 144 := Nat.pow_le_pow_right (by decide) hexponent
  have hunit_pos := Nat.two_pow_pos exponent
  have hnext : (low + 1) * 2 ^ exponent = low * 2 ^ exponent + 2 ^ exponent := Nat.succ_mul _ _
  exact ⟨low * 2 ^ exponent, ⟨low, exponent, hlow, rfl⟩, by omega, by omega⟩

theorem lt_of_le_stall (h : Representable owed) (hle : owed ≤ stall)
    (hpass : pass? owed = some rest) : rest < owed := by
  obtain ⟨hframe, hrest⟩ := pass?_eq_some_iff.1 hpass
  obtain ⟨v, hv, hbelow, habove⟩ := exists_below h hframe hle
  have hnearest := hrest.nearest v hv
  unfold Nat.dist at hnearest
  omega

theorem far_of_stall_lt (h : Representable owed) (hlt : stall < owed) {v : Nat}
    (hv : Representable v) (hbelow : v < owed) : v + 2 ^ 145 ≤ owed := by
  obtain ⟨count, rfl⟩ := h.exists_mul (stall_eq ▸ hlt)
  have hcount : 2 ^ 23 < count := by
    have hstall : stall = 2 ^ 23 * 2 ^ 145 := by decide +kernel
    rw [hstall] at hlt
    exact Nat.lt_of_mul_lt_mul_right hlt
  obtain ⟨low, rfl⟩ : ∃ low, count = low + 1 := ⟨count - 1, by omega⟩
  have hgrid := le_or_le_of_representable (k := 145) hv low (.inr (by omega))
  have hnext : (low + 1) * 2 ^ 145 = low * 2 ^ 145 + 2 ^ 145 := Nat.succ_mul low (2 ^ 145)
  omega

theorem pass?_of_stall_lt (h : Representable owed) (hlt : stall < owed) :
    pass? owed = some owed := by
  have hframe : frameTime ≤ stall := by decide +kernel
  have hcoarse : 2 * frameTime < 2 ^ 145 := by decide +kernel
  have hpos : 0 < frameTime := by decide +kernel
  refine pass?_eq_some_iff.2 ⟨by omega, ⟨h, fun v hv ↦ ?_, fun v hv hne htie ↦ ?_⟩⟩
  · rcases Nat.lt_trichotomy v owed with hbelow | rfl | habove
    · have hfar := far_of_stall_lt h hlt hv hbelow
      unfold Nat.dist
      omega
    · exact Nat.le_refl _
    · unfold Nat.dist
      omega
  · rcases Nat.lt_or_gt_of_ne hne with hbelow | habove
    · have hfar := far_of_stall_lt h hlt hv hbelow
      unfold Nat.dist at htie
      omega
    · unfold Nat.dist at htie
      omega

/-- The same difference of binary32 numbers, a sixteenth of a second beyond the stall. -/
example : ((524288.0625 : Float32) - 1.0 / 60.0 == 524288.0625) = true := by
  decide +kernel

theorem framesDue_succ (h : pass? owed = some rest) (n : Nat) :
    framesDue (n + 1) owed = ((framesDue n rest).1 + 1, (framesDue n rest).2) := by
  rw [framesDue, h]

theorem framesDue_of_stall_lt (h : Representable owed) (hlt : stall < owed) (n : Nat) :
    framesDue n owed = (n, owed) := by
  induction n with
  | zero => rfl
  | succ n ih => rw [framesDue_succ (pass?_of_stall_lt h hlt), ih]

theorem after_le_stall_iff (howed : owed < frameTime) (helapsed : Representable elapsed) :
    after owed elapsed ≤ stall ↔ elapsed ≤ stall := by
  have hround : RoundsTo (owed + elapsed) 1 (after owed elapsed) := roundsTo_round _
  have hcoarse : 2 * frameTime < 2 ^ 145 := by decide +kernel
  have hstall : Representable stall := ⟨1, 168, by decide, by decide +kernel⟩
  constructor
  · intro hle
    have hnearest := hround.nearest elapsed helapsed
    unfold Nat.dist at hnearest
    omega
  · intro hle
    by_contra hgt
    have hnearest := hround.nearest stall hstall
    have hfar := far_of_stall_lt hround.representable (by omega) hstall (by omega)
    unfold Nat.dist at hnearest
    omega

theorem catchUp_of_le_stall (howed : Representable owed) (hle : owed ≤ stall) (c : Console) :
    ∃ left reply, CatchUp owed c left reply := by
  induction owed using Nat.strongRecOn generalizing c with
  | ind owed ih =>
    cases hpass : pass? owed with
    | none => exact ⟨_, _, .caughtUp hpass⟩
    | some rest =>
      cases hframe : c.frame.result with
      | error fault => exact ⟨_, _, .failed hpass hframe⟩
      | ok _ =>
        have hrest : Representable rest := (pass?_eq_some_iff.1 hpass).2.representable
        have hlt : rest < owed := lt_of_le_stall howed hle hpass
        obtain ⟨left, reply, hlater⟩ := ih rest hlt hrest (by omega) c.frame.console
        exact ⟨left, _, .again hpass hframe hlater⟩

theorem catchUp_of_fault {fault : Fault} (h : (c.frames n).result = .error fault) (owed : Nat) :
    ∃ left reply, CatchUp owed c left reply := by
  induction n generalizing c owed with
  | zero => cases h
  | succ n ih =>
    cases hpass : pass? owed with
    | none => exact ⟨_, _, .caughtUp hpass⟩
    | some rest =>
      cases hframe : c.frame.result with
      | error fault => exact ⟨_, _, .failed hpass hframe⟩
      | ok _ =>
        rw [Console.frames_succ_of_ok hframe] at h
        obtain ⟨left, reply, hlater⟩ := ih h rest
        exact ⟨left, _, .again hpass hframe hlater⟩

theorem fault_of_catchUp (h : CatchUp owed c left reply) (howed : Representable owed)
    (hlt : stall < owed) : ∃ n fault, (c.frames n).result = .error fault := by
  induction h with
  | caughtUp hpass =>
    rw [pass?_of_stall_lt howed hlt] at hpass
    cases hpass
  | failed _ hframe => exact ⟨1, _, (Console.frames_succ_of_error hframe 0).symm ▸ hframe⟩
  | again hpass hframe _ ih =>
    rw [pass?_of_stall_lt howed hlt, Option.some.injEq] at hpass
    subst hpass
    obtain ⟨n, fault, hfault⟩ := ih howed hlt
    exact ⟨n + 1, fault, by rw [Console.frames_succ_of_ok hframe, hfault]⟩

theorem catchUp_iff (howed : Representable owed) (c : Console) :
    (∃ left reply, CatchUp owed c left reply) ↔
      owed ≤ stall ∨ ∃ n fault, (c.frames n).result = .error fault := by
  constructor
  · rintro ⟨left, reply, h⟩
    exact (Nat.lt_or_ge stall owed).symm.imp id (fault_of_catchUp h howed)
  · rintro (hle | ⟨n, fault, hfault⟩)
    · exact catchUp_of_le_stall howed hle c
    · exact catchUp_of_fault hfault owed

theorem frames_of_catchUp (h : CatchUp owed c left reply) (howed : Representable owed) :
    ∃ n, reply = c.frames n ∧ Representable left ∧
      (reply.result = .ok () → framesDue n owed = (n, left) ∧ left < frameTime) := by
  induction h with
  | caughtUp hpass => exact ⟨0, rfl, howed, fun _ ↦ ⟨rfl, pass?_eq_none_iff.1 hpass⟩⟩
  | failed hpass hframe =>
    refine ⟨1, (Console.frames_succ_of_error hframe 0).symm,
      (pass?_eq_some_iff.1 hpass).2.representable, fun hok ↦ ?_⟩
    rw [hframe] at hok
    cases hok
  | again hpass hframe _ ih =>
    obtain ⟨n, rfl, hleft, hdue⟩ := ih (pass?_eq_some_iff.1 hpass).2.representable
    refine ⟨n + 1, (Console.frames_succ_of_ok hframe n).symm, hleft, fun hok ↦ ?_⟩
    obtain ⟨hframes, hlt⟩ := hdue hok
    exact ⟨by rw [framesDue_succ hpass, hframes], hlt⟩

/-- When a redraw catches up. Time is counted as binary32 numbers, a sixtieth of a second and
every sum and difference rounded to the nearest. A pass lowers the time owed up to the stall
and leaves it as it is beyond, so the passes come to an end exactly if the time owed, or the
time elapsed that is added to what was left, is no longer than the stall or a frame fails.
A redraw that ends so has run just the frames that are due. -/
theorem catch_up_ends_iff (c : Console) :
    RoundsTo second 60 frameTime ∧
    (∀ owed, Representable owed → frameTime ≤ owed → ∃ rest,
      pass? owed = some rest ∧ RoundsTo (owed - frameTime) 1 rest ∧
        (rest < owed ↔ owed ≤ stall) ∧ (stall < owed → rest = owed)) ∧
    (∀ owed, Representable owed →
      ((∃ left reply, CatchUp owed c left reply) ↔
        owed ≤ stall ∨ ∃ n fault, (c.frames n).result = .error fault)) ∧
    (∀ owed elapsed, owed < frameTime → Representable elapsed →
      RoundsTo (owed + elapsed) 1 (after owed elapsed) ∧
      ((∃ left reply, CatchUp (after owed elapsed) c left reply) ↔
        elapsed ≤ stall ∨ ∃ n fault, (c.frames n).result = .error fault)) ∧
    ∀ owed left reply, Representable owed → CatchUp owed c left reply →
      ∃ n, reply = c.frames n ∧ Representable left ∧
        (reply.result = .ok () → framesDue n owed = (n, left) ∧ left < frameTime) := by
  refine ⟨roundsTo_frameTime, fun owed howed hframe ↦ ?_, fun owed howed ↦ catchUp_iff howed c,
    fun owed elapsed howed helapsed ↦ ?_, fun owed left reply howed h ↦ frames_of_catchUp h howed⟩
  · cases hpass : pass? owed with
    | none => exact absurd (pass?_eq_none_iff.1 hpass) (Nat.not_lt.2 hframe)
    | some rest =>
      have hkept (hlt : stall < owed) : rest = owed := by
        rw [pass?_of_stall_lt howed hlt, Option.some.injEq] at hpass
        exact hpass.symm
      refine ⟨rest, rfl, (pass?_eq_some_iff.1 hpass).2, ⟨fun hlower ↦ ?_, fun hle ↦ ?_⟩, hkept⟩
      · exact Nat.le_of_not_lt fun hlt ↦ Nat.ne_of_lt hlower (hkept hlt)
      · exact lt_of_le_stall howed hle hpass
  · have hround : RoundsTo (owed + elapsed) 1 (after owed elapsed) := roundsTo_round _
    refine ⟨hround, (catchUp_iff hround.representable c).trans ?_⟩
    rw [after_le_stall_iff howed helapsed]

/-- A redraw that never ends: a sixteenth of a second beyond the stall, while a key is
awaited. No frame fails and no pass lowers the time owed. -/
theorem catch_up_stuck :
    let owed := 524288 * second + second / 16
    let c := ((Console.ofMachine (.ofSeed 0)).withCadence 1).run [.load [0xF0, 0x0A], .step]
    Representable owed ∧ frameTime ≤ owed ∧ pass? owed = some owed ∧
      (∀ n, framesDue n owed = (n, owed)) ∧ (∀ n, (c.frames n).result = .ok ()) ∧
      ¬ ∃ left reply, CatchUp owed c left reply := by
  intro owed c
  have howed : Representable owed := ⟨8388609, 145, by decide, by decide +kernel⟩
  have hframe : frameTime ≤ owed := by decide +kernel
  have hlt : stall < owed := by decide +kernel
  have hwait : c.machine.keypad.pending = some 0 := by decide +kernel
  have hok (n : Nat) : (c.frames n).result = .ok () := Console.frames_of_pending hwait n
  refine ⟨howed, hframe, pass?_of_stall_lt howed hlt, framesDue_of_stall_lt howed hlt, hok, ?_⟩
  intro hends
  rcases (catchUp_iff howed c).1 hends with hle | ⟨n, fault, hfault⟩
  · omega
  · rw [hok n] at hfault
    cases hfault

end Desktop.FrameClock

end Phosphor
