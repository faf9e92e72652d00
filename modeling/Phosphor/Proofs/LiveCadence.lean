import Mathlib.Algebra.BigOperators.Group.List.Basic
import Phosphor.Proofs.Cadence
import Phosphor.Proofs.Replies

namespace Phosphor.Console

open History

inductive Order
  | request (r : Request)
  | recadence (cadence : UInt32)

def obey (c : Console) : Order → Console
  | .request r => (c.serve r).console
  | .recadence cadence => c.withCadence cadence

/-- The order is a cadence that the count has already reached. -/
def Overtakes (e : Event Console Order) : Prop :=
  match e.action with
  | .recadence cadence => max cadence.toNat 1 ≤ e.before.cycles.toNat
  | .request _ => False

/-- The order is a load that the machine accepts, or a cadence ahead of the count. -/
def Mends (e : Event Console Order) : Prop :=
  match e.action with
  | .request (.load program) => (e.before.load program).result.isOk = true
  | .recadence cadence => e.before.cycles.toNat < max cadence.toNat 1
  | _ => False

variable {c : Console}

theorem toNat_cadence_withCadence (c : Console) (cadence : UInt32) :
    (c.withCadence cadence).cadence.toNat = max cadence.toNat 1 :=
  toNat_cadence c.machine cadence

theorem cadence_foldl_after (c : Console) (acts : List Move) :
    (acts.foldl after c).cadence = c.cadence := by
  induction acts generalizing c with
  | nil => rfl
  | cons a acts ih => exact (ih (c.after a)).trans (cadence_after c a)

theorem cadence_serve (c : Console) (r : Request) : (c.serve r).console.cadence = c.cadence := by
  rw [(serve_eq_moves c r).1, cadence_foldl_after]

theorem inTime_serve (h : c.InTime) (r : Request) : (c.serve r).console.InTime := by
  rw [(serve_eq_moves c r).1]
  exact (inTime_run h _).2

theorem inTime_load {program : List UInt8} (hpos : 0 < c.cadence.toNat)
    (h : (c.load program).result.isOk = true) : (c.load program).console.InTime := by
  cases hl : c.machine.load program with
  | error fault =>
    rw [load_of_error hl] at h
    cases h
  | ok m =>
    rw [load_of_ok hl]
    exact hpos

theorem inTime_of_not_lingers {start : Console} (h : start.InTime) (orders : List Order) :
    0 < (orders.foldl obey start).cadence.toNat ∧
      (¬ Lingers Overtakes Mends (record obey start orders) →
        (orders.foldl obey start).InTime) := by
  refine run_induction (motive := fun _ (c : Console) events ↦
    0 < c.cadence.toNat ∧ (¬ Lingers Overtakes Mends events → c.InTime))
    ⟨Nat.lt_of_le_of_lt (Nat.zero_le _) h, fun _ ↦ h⟩ (fun _ c events order ih ↦ ?_) orders
  obtain ⟨hpos, hi⟩ := ih
  rw [lingers_snoc]
  cases order with
  | recadence cadence =>
    have hc := toNat_cadence_withCadence c cadence
    refine ⟨Nat.lt_of_lt_of_eq (Nat.le_max_right _ _) hc.symm, fun hl ↦ ?_⟩
    have hlt : c.cycles.toNat < max cadence.toNat 1 := Nat.not_le.1 fun hle ↦ hl (.inl hle)
    exact Nat.lt_of_lt_of_eq hlt hc.symm
  | request r =>
    refine ⟨Nat.lt_of_lt_of_eq hpos (congrArg UInt32.toNat (cadence_serve c r)).symm,
      fun hl ↦ ?_⟩
    by_cases hm : Mends ⟨c, .request r⟩
    · cases r with
      | load program => exact inTime_load hpos hm
      | step | frame | press | release | alter => cases hm
    · have hbefore : c.InTime := hi fun hlingers ↦ hl (.inr ⟨hlingers, hm⟩)
      exact inTime_serve hbefore r

theorem exists_tick (h : c.InTime) (requests : List Request)
    (hload : ∀ e ∈ c.history requests, restarts e = false)
    (hcount : c.cadence.toNat ≤ (c.history requests).countP counts) :
    ∃ e ∈ c.history requests, ticks e ≠ 0 := by
  have hsince : sinceLoad (c.history requests) = c.history requests := by
    rw [sinceLoad, List.rtakeWhile_eq_self_iff]
    intro e he
    simp [hload e he]
  have hbalance : carried c (c.history requests) + counted (c.history requests) =
      c.cadence.toNat * ticked (c.history requests) +
        ((c.allMoves requests).foldl after c).cycles.toNat := balance h (c.allMoves requests)
  obtain ⟨hcadence, hlast⟩ := inTime_run h (c.allMoves requests)
  rw [InTime, hcadence] at hlast
  have hticked : ((c.history requests).map ticks).sum ≠ 0 := by
    intro hzero
    rw [counted, ticked, hsince, hzero] at hbalance
    omega
  obtain ⟨n, hn, hne⟩ := List.exists_mem_ne_zero_of_sum_ne_zero hticked
  obtain ⟨e, he, rfl⟩ := List.mem_map.1 hn
  exact ⟨e, he, hne⟩

theorem overtaken_after (h : c.cadence.toNat ≤ c.cycles.toNat) {a : Move}
    (hr : restarts ⟨c, a⟩ = false)
    (hbound : c.cycles.toNat + (if counts ⟨c, a⟩ then 1 else 0) < UInt32.size) :
    ticks ⟨c, a⟩ = 0 ∧
      (c.after a).cycles.toNat = c.cycles.toNat + if counts ⟨c, a⟩ then 1 else 0 := by
  cases a with
  | step =>
    have hs := struck c
    generalize hc : c.step = r at hs
    cases hs with
    | refused hm | suspended hm =>
      have hn : counts ⟨c, .step⟩ = false := by simp only [counts, hc]
      simp only [ticks, after, apply, hc, hn]
      exact ⟨rfl, rfl⟩
    | counted hm ho hk =>
      have hn : counts ⟨c, .step⟩ = true := by rw [counts_of_ok (by rw [hc]), ho]
      rw [hn, if_pos rfl] at hbound
      simp only [ticks, after, apply, hc, hn, if_true]
      refine ⟨rfl, ?_⟩
      rw [UInt32.toNat_add]
      exact Nat.mod_eq_of_lt hbound
    | ticked hm ho hk =>
      have hn : counts ⟨c, .step⟩ = true := by rw [counts_of_ok (by rw [hc]), ho]
      rw [hn, if_pos rfl] at hbound
      -- the count would have to come round to reach the cadence again
      have hgrown : (c.cycles + 1).toNat = c.cycles.toNat + 1 := by
        rw [UInt32.toNat_add]
        exact Nat.mod_eq_of_lt hbound
      rw [← hk, hgrown] at h
      exact absurd h (Nat.not_succ_le_self _)
  | load program =>
    cases hl : c.machine.load program with
    | error fault =>
      have hload := load_of_error hl
      simp only [ticks, after, apply, hload]
      exact ⟨trivial, rfl⟩
    | ok m =>
      have hload := load_of_ok hl
      simp only [restarts, hload] at hr
      cases hr
  | closeFrame =>
    simp only [ticks, after, apply]
    split <;> exact ⟨trivial, rfl⟩
  | openFrame | press | release | alter => exact ⟨rfl, rfl⟩

theorem overtaken_run (h : c.cadence.toNat ≤ c.cycles.toNat) {acts : List Move}
    (hload : ∀ e ∈ record after c acts, restarts e = false)
    (hbound : c.cycles.toNat + (record after c acts).countP counts < UInt32.size) :
    (∀ e ∈ record after c acts, ticks e = 0) ∧
      (acts.foldl after c).cycles.toNat =
        c.cycles.toNat + (record after c acts).countP counts := by
  induction acts generalizing c with
  | nil => exact ⟨nofun, rfl⟩
  | cons a acts ih =>
    rw [record, List.countP_cons] at hbound
    obtain ⟨hfirst, hrest⟩ := List.forall_mem_cons.1 hload
    obtain ⟨hticks, hcycles⟩ := overtaken_after h hfirst (by omega)
    have hover : (c.after a).cadence.toNat ≤ (c.after a).cycles.toNat := by
      rw [cadence_after, hcycles]
      exact Nat.le_add_right_of_le h
    obtain ⟨hlater, hlast⟩ := ih hover hrest (by rw [hcycles]; omega)
    refine ⟨List.forall_mem_cons.2 ⟨hticks, hlater⟩, ?_⟩
    rw [record, List.countP_cons, List.foldl_cons, hlast, hcycles]
    omega

/-- A console in use ticks on under any cadence that is ahead of its count. Under one that the
count has reached it ticks no more, however many steps are counted, until a program is loaded,
the cadence is raised or the count comes round. -/
theorem live_cadence (m : Machine) (f : UInt32) (orders : List Order) :
    let start := (ofMachine m).withCadence f
    let c := orders.foldl obey start
    (¬ Lingers Overtakes Mends (record obey start orders) →
      c.cycles.toNat < c.cadence.toNat ∧ c.cycles.toNat + 1 < UInt32.size ∧
      ∀ requests, (∀ e ∈ c.history requests, restarts e = false) →
        c.cadence.toNat ≤ (c.history requests).countP counts →
        ∃ e ∈ c.history requests, ticks e ≠ 0) ∧
    ∀ cadence, max cadence.toNat 1 ≤ c.cycles.toNat →
      let d := c.withCadence cadence
      d.cadence.toNat ≤ d.cycles.toNat ∧
      ∀ requests, (∀ e ∈ d.history requests, restarts e = false) →
        d.cycles.toNat + (d.history requests).countP counts < UInt32.size →
        (∀ e ∈ d.history requests, ticks e = 0) ∧
          (d.run requests).cycles.toNat =
            d.cycles.toNat + (d.history requests).countP counts := by
  intro start c
  constructor
  · intro hlingers
    have hi : c.InTime := (inTime_of_not_lingers (inTime_new m f) orders).2 hlingers
    have hlt : c.cycles.toNat < c.cadence.toNat := hi
    have hsize : c.cadence.toNat < UInt32.size := c.cadence.toNat_lt
    exact ⟨hlt, by omega, exists_tick hi⟩
  · intro cadence hreached d
    have hover : d.cadence.toNat ≤ d.cycles.toNat :=
      Nat.le_trans (Nat.le_of_eq (toNat_cadence_withCadence c cadence)) hreached
    refine ⟨hover, fun requests hload hbound ↦ ?_⟩
    rw [run_eq_moves]
    exact overtaken_run hover hload hbound

/-- After five of ten steps the cadence is lowered to three, and the next three steps are
executed without a tick. -/
theorem live_cadence_lowered :
    let orders : List Order :=
      .request (.load [0x12, 0x00]) :: List.replicate 5 (.request .step) ++ [.recadence 3]
    let c := orders.foldl obey ((ofMachine (.ofSeed 0)).withCadence 10)
    c.cadence = 3 ∧ ¬ c.cycles.toNat < c.cadence.toNat ∧
      (c.replies (List.replicate 3 .step)).map (fun a ↦ (a.result, a.cues)) =
        List.replicate 3 (.stepped (.ok .executed), []) := by
  decide +kernel

end Phosphor.Console
