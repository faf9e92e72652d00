import Mathlib.Algebra.GroupWithZero.Nat
import Phosphor.Proofs.ConsoleEvents

namespace Phosphor.Console

open History

def restarts (e : Event Console Move) : Bool :=
  match e.action with
  | .load program => (e.before.load program).result.isOk
  | _ => false

def sinceLoad (events : List (Event Console Move)) : List (Event Console Move) :=
  events.rtakeWhile (fun e ↦ !restarts e)

def counted (events : List (Event Console Move)) : Nat := (sinceLoad events).countP counts

def ticked (events : List (Event Console Move)) : Nat := ((sinceLoad events).map ticks).sum

def InTime (c : Console) : Prop := c.cycles.toNat < c.cadence.toNat

theorem toNat_cadence (m : Machine) (f : UInt32) :
    ((ofMachine m).withCadence f).cadence.toNat = max f.toNat 1 := by
  change (if f ≤ 1 then 1 else f).toNat = max f.toNat 1
  have hf : f ≤ 1 ↔ f.toNat ≤ 1 := UInt32.le_iff_toNat_le
  split
  · rename_i h
    exact (Nat.max_eq_right (hf.1 h)).symm
  · rename_i h
    have h1 : 1 ≤ f.toNat := by
      rw [hf] at h
      omega
    exact (Nat.max_eq_left h1).symm

theorem toNat_cycles_succ {c : Console} (h : c.InTime) :
    (c.cycles + 1).toNat = c.cycles.toNat + 1 := by
  have hc := c.cadence.toNat_lt
  have h1 : c.cycles.toNat < c.cadence.toNat := h
  rw [UInt32.toNat_add]
  exact Nat.mod_eq_of_lt (by change c.cycles.toNat + 1 < 2 ^ 32; omega)

inductive Accounted (e : Event Console Move) : Prop
  | restarted : restarts e = true → counts e = false → ticks e = 0 →
      (after e.before e.action).cycles.toNat = 0 → Accounted e
  | kept : restarts e = false → counts e = false → ticks e = 0 →
      (after e.before e.action).cycles.toNat = e.before.cycles.toNat → Accounted e
  | grown : restarts e = false → counts e = true → ticks e = 0 →
      (after e.before e.action).cycles.toNat = e.before.cycles.toNat + 1 →
      e.before.cycles.toNat + 1 < e.before.cadence.toNat → Accounted e
  | wrapped : restarts e = false → counts e = true → ticks e = 1 →
      (after e.before e.action).cycles.toNat = 0 →
      e.before.cycles.toNat + 1 = e.before.cadence.toNat → Accounted e

theorem accounted_step {c : Console} (h : c.InTime) : Accounted ⟨c, .step⟩ := by
  have hs := struck c
  generalize hr : c.step = r at hs
  cases hs with
  | refused hm =>
    refine .kept rfl ?_ ?_ ?_
    · simp only [counts, hr]
    · simp only [ticks, hr, List.countP_nil]
    · simp only [after, apply, hr]
  | suspended hm =>
    refine .kept rfl ?_ ?_ ?_
    · simp only [counts, hr]
    · simp only [ticks, hr, List.countP_nil]
    · simp only [after, apply, hr]
  | counted hm ho hc =>
    have hn := toNat_cycles_succ h
    refine .grown rfl ?_ ?_ ?_ ?_
    · rw [counts_of_ok (by rw [hr]), ho]
    · simp only [ticks, hr, List.countP_nil]
    · simp only [after, apply, hr, hn]
    · have h1 : c.cycles.toNat < c.cadence.toNat := h
      have h2 : c.cycles.toNat + 1 ≠ c.cadence.toNat := by
        intro h2
        exact hc (UInt32.toNat_inj.1 (hn.trans h2))
      simp only
      omega
  | ticked hm ho hc =>
    refine .wrapped rfl ?_ ?_ ?_ ?_
    · rw [counts_of_ok (by rw [hr]), ho]
    · simp only [ticks, hr, countP_tick]
    · simp only [after, apply, hr]
      rfl
    · simp only [← hc, toNat_cycles_succ h]

theorem accounted (e : Event Console Move) (h : e.before.InTime) : Accounted e := by
  obtain ⟨c, action⟩ := e
  cases action with
  | step => exact accounted_step h
  | load program =>
    cases hl : c.machine.load program with
    | error fault =>
      have h1 := load_of_error hl
      refine .kept ?_ rfl rfl ?_
      · simp only [restarts, h1]
        rfl
      · simp only [after, apply, h1]
    | ok m =>
      have h1 := load_of_ok hl
      refine .restarted ?_ rfl rfl ?_
      · simp only [restarts, h1]
        rfl
      · simp only [after, apply, h1]
        rfl
  | closeFrame =>
    refine .kept rfl rfl rfl ?_
    simp only [after, apply]
    split <;> rfl
  | _ => exact .kept rfl rfl rfl rfl

theorem cadence_after (c : Console) (a : Move) : (c.after a).cadence = c.cadence := by
  cases a with
  | step =>
    have hs := struck c
    simp only [after, apply]
    generalize c.step = r at hs
    cases hs <;> rfl
  | load program =>
    simp only [after, apply, load]
    split <;> rfl
  | closeFrame =>
    simp only [after, apply]
    split <;> rfl
  | _ => rfl

theorem inTime_after {e : Event Console Move} (h : e.before.InTime) :
    (after e.before e.action).InTime := by
  have hc := cadence_after e.before e.action
  have hb : e.before.cycles.toNat < e.before.cadence.toNat := h
  unfold InTime
  rw [hc]
  cases accounted e h with
  | restarted hr hn ht hk => omega
  | kept hr hn ht hk => omega
  | grown hr hn ht hk hl => omega
  | wrapped hr hn ht hk hl => omega

theorem counted_snoc (events : List (Event Console Move)) (e : Event Console Move) :
    counted (events ++ [e]) =
      if restarts e then 0 else counted events + if counts e then 1 else 0 :=
  countSince_snoc restarts counts events e

theorem ticked_snoc (events : List (Event Console Move)) (e : Event Console Move) :
    ticked (events ++ [e]) = if restarts e then 0 else ticked events + ticks e := by
  unfold ticked sinceLoad
  rw [List.rtakeWhile_concat]
  cases restarts e <;> simp

/-- What the first count adds to the counted steps. -/
def carried (c : Console) (events : List (Event Console Move)) : Nat :=
  if events.any restarts then 0 else c.cycles.toNat

theorem carried_snoc (c : Console) (events : List (Event Console Move))
    (e : Event Console Move) :
    carried c (events ++ [e]) = if restarts e then 0 else carried c events := by
  unfold carried
  cases h : restarts e <;> simp [h]

theorem inTime_run {c : Console} (h : c.InTime) (acts : List Move) :
    (acts.foldl after c).cadence = c.cadence ∧ (acts.foldl after c).InTime := by
  refine run_induction (motive := fun _ (d : Console) _ ↦ d.cadence = c.cadence ∧ d.InTime)
    ⟨rfl, h⟩ (fun _ d _ a ih ↦ ?_) acts
  exact ⟨(cadence_after d a).trans ih.1, inTime_after (e := ⟨d, a⟩) ih.2⟩

theorem balance {c : Console} (h : c.InTime) (acts : List Move) :
    carried c (record after c acts) + counted (record after c acts) =
      c.cadence.toNat * ticked (record after c acts) + (acts.foldl after c).cycles.toNat := by
  refine And.right (run_induction (motive := fun _ (d : Console) events ↦
    (d.cadence = c.cadence ∧ d.InTime) ∧
      carried c events + counted events = c.cadence.toNat * ticked events + d.cycles.toNat)
    ⟨⟨rfl, h⟩, (Nat.zero_add _).symm⟩ (fun _ d events a ⟨⟨hc, hi⟩, ih⟩ ↦ ?_) acts)
  refine ⟨⟨(cadence_after d a).trans hc, inTime_after (e := ⟨d, a⟩) hi⟩, ?_⟩
  rw [carried_snoc, counted_snoc, ticked_snoc]
  cases accounted ⟨d, a⟩ hi with
  | restarted hr hn ht hk => simp [hr, hk]
  | kept hr hn ht hk =>
    simp only [hr, hn, ht, hk]
    simpa using ih
  | grown hr hn ht hk hl =>
    simp only at hk
    simp [hr, hn, ht, hk]
    omega
  | wrapped hr hn ht hk hl =>
    simp only [hc] at hk hl
    simp [hr, hn, ht, hk, Nat.mul_add]
    omega

theorem inTime_new (m : Machine) (f : UInt32) : ((ofMachine m).withCadence f).InTime := by
  unfold InTime
  rw [toNat_cadence]
  exact Nat.lt_of_lt_of_le Nat.zero_lt_one (Nat.le_max_right _ _)

theorem balance_new (m : Machine) (f : UInt32) (acts : List Move) :
    counted (record after ((ofMachine m).withCadence f) acts) =
      max f.toNat 1 * ticked (record after ((ofMachine m).withCadence f) acts) +
        (acts.foldl after ((ofMachine m).withCadence f)).cycles.toNat := by
  have h := balance (inTime_new m f) acts
  have h0 : carried ((ofMachine m).withCadence f)
      (record after ((ofMachine m).withCadence f) acts) = 0 := ite_self 0
  rwa [h0, Nat.zero_add, toNat_cadence] at h

theorem cycles_lt_new (m : Machine) (f : UInt32) (acts : List Move) :
    (acts.foldl after ((ofMachine m).withCadence f)).cycles.toNat < max f.toNat 1 := by
  obtain ⟨hc, hi⟩ := inTime_run (inTime_new m f) acts
  rw [← toNat_cadence m f, ← hc]
  exact hi

theorem ticks_eq {period : Nat} {past : List (Event Console Move)} {e : Event Console Move}
    (h : e.before.InTime) (hp : e.before.cadence.toNat = period)
    (hb : counted past = period * ticked past + e.before.cycles.toNat) :
    ticks e = if counts e ∧ period ∣ counted (past ++ [e]) then 1 else 0 := by
  cases accounted e h with
  | restarted hr hn ht hk => simp [hn, ht]
  | kept hr hn ht hk => simp [hn, ht]
  | grown hr hn ht hk hl =>
    have hd : ¬ period ∣ counted (past ++ [e]) := by
      simp only [counted_snoc, hr, hn, hb, Bool.false_eq_true, if_false, if_true, Nat.add_assoc]
      intro hd
      have h1 := (Nat.dvd_add_right (Nat.dvd_mul_right period _)).1 hd
      exact absurd (Nat.le_of_dvd (Nat.succ_pos _) h1) (by omega)
    simp [hd, ht]
  | wrapped hr hn ht hk hl =>
    have hd : period ∣ counted (past ++ [e]) := by
      simp only [counted_snoc, hr, hn, hb, Bool.false_eq_true, if_false, if_true, Nat.add_assoc]
      rw [hl, hp, ← Nat.mul_succ]
      exact Nat.dvd_mul_right period _
    simp [hd, hn, ht]

/-- The cadence law: of the steps that executed a word since the last load, each
`period`-th one ticks, the count is what is left over, and nothing but a tick of
the console lowers the timers. -/
theorem cadence_law (m : Machine) (f : UInt32) (requests : List Request) :
    let start := (ofMachine m).withCadence f
    let period := max f.toNat 1
    let events := start.history requests
    start.run requests = (events.map Event.action).foldl after start ∧
      (start.run requests).cycles.toNat = counted events % period ∧
      ticked events = counted events / period ∧
      ∀ past e future, events = past ++ e :: future →
        e.before.cycles.toNat = counted past % period ∧
        e.before.cycles.toNat + 1 < UInt32.size ∧
        ticks e = (if counts e ∧ period ∣ counted (past ++ [e]) then 1 else 0) ∧
        (e.action = .step → e.before.apply .step =
          if ticks e = 0 then
            ({ e.before with machine := own e,
                             cycles := e.before.cycles + if counts e then 1 else 0 }, [])
          else tick { e.before with machine := own e, cycles := 0 }) ∧
        (after e.before e.action).machine.delayTimer.toNat = (own e).delayTimer.toNat - ticks e ∧
        (after e.before e.action).machine.soundTimer.toNat =
          (own e).soundTimer.toNat - ticks e := by
  intro start period events
  have hb := balance_new m f
  have hl := cycles_lt_new m f
  have hrun : start.run requests = (start.allMoves requests).foldl after start :=
    run_eq_moves start requests
  have hdiv {n t k : Nat} (hn : n = period * t + k) (hk : k < period) :
      k = n % period ∧ t = n / period := by
    have hp : 0 < period := Nat.lt_of_le_of_lt (Nat.zero_le k) hk
    obtain ⟨hq, hr⟩ := (Nat.div_mod_unique hp).2 ⟨(Nat.add_comm k _).trans hn.symm, hk⟩
    exact ⟨hr.symm, hq.symm⟩
  obtain ⟨hmod, hquot⟩ := hdiv (hb (start.allMoves requests)) (hl (start.allMoves requests))
  refine ⟨?_, ?_, hquot, ?_⟩
  · rw [hrun, show events.map Event.action = start.allMoves requests from map_action_record _ _]
  · rw [hrun]
    exact hmod
  · intro past e future he
    obtain ⟨acts, rest, -, rfl, hs, -⟩ := record_eq_append_cons he
    have hbal := hb acts
    have hlt := hl acts
    obtain ⟨hc, hi⟩ := inTime_run (inTime_new m f) acts
    rw [← hs] at hbal hlt hc hi
    refine ⟨(hdiv hbal hlt).1, ?_, ?_, fun ha ↦ ?_, timers_after e⟩
    · have hf := f.toNat_lt
      change e.before.cycles.toNat + 1 < 2 ^ 32
      omega
    · exact ticks_eq hi (by rw [hc, toNat_cadence]) hbal
    · obtain ⟨c, action⟩ := e
      obtain rfl : action = .step := ha
      exact apply_step c

end Phosphor.Console
