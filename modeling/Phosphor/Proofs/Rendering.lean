import Phosphor.Proofs.Cadence

namespace Phosphor.Console

open History

def frameSteps (c : Console) : List (Event Console Move) :=
  (c.history [.frame]).filter isStep

def attempted (n : Nat) (c : Console) : List (Event Console Move) :=
  record after c (attempt n c).1

theorem attempted_succ_of_error {n : Nat} {c : Console} {fault : Fault}
    (h : c.step.result = .error fault) :
    attempt (n + 1) c = ([.step], .error fault) ∧ attempted (n + 1) c = [⟨c, .step⟩] := by
  have ha : attempt (n + 1) c = ([.step], .error fault) := by rw [attempt, h]
  refine ⟨ha, ?_⟩
  rw [attempted, ha]
  rfl

theorem attempted_succ_of_ok {n : Nat} {c : Console} {outcome : Outcome}
    (h : c.step.result = .ok outcome) :
    (attempt (n + 1) c).2 = (attempt n c.step.console).2 ∧
      attempted (n + 1) c = ⟨c, .step⟩ :: attempted n c.step.console := by
  have ha : attempt (n + 1) c =
      (.step :: (attempt n c.step.console).1, (attempt n c.step.console).2) := by
    rw [attempt, h]
  refine ⟨by rw [ha], ?_⟩
  rw [attempted, ha]
  rfl

theorem attempted_isStep (n : Nat) (c : Console) : ∀ e ∈ attempted n c, isStep e = true := by
  induction n generalizing c with
  | zero => exact fun e he ↦ absurd he List.not_mem_nil
  | succ n ih =>
    intro e he
    cases hr : c.step.result with
    | error fault =>
      rw [(attempted_succ_of_error hr).2, List.mem_singleton] at he
      rw [he]
      rfl
    | ok outcome =>
      rw [(attempted_succ_of_ok hr).2, List.mem_cons] at he
      rcases he with rfl | he
      · rfl
      · exact ih c.step.console e he

theorem length_attempted_le (n : Nat) (c : Console) : (attempted n c).length ≤ n := by
  induction n generalizing c with
  | zero => exact Nat.le_refl 0
  | succ n ih =>
    cases hr : c.step.result with
    | error fault =>
      rw [(attempted_succ_of_error hr).2, List.length_singleton]
      omega
    | ok outcome =>
      rw [(attempted_succ_of_ok hr).2, List.length_cons]
      have h := ih c.step.console
      omega

theorem attempted_of_ok {n : Nat} {c : Console} (h : (attempt n c).2 = .ok ()) :
    (attempted n c).length = n ∧ ∀ e ∈ attempted n c, e.before.step.result.isOk = true := by
  induction n generalizing c with
  | zero => exact ⟨rfl, fun e he ↦ absurd he List.not_mem_nil⟩
  | succ n ih =>
    cases hr : c.step.result with
    | error fault =>
      rw [(attempted_succ_of_error hr).1] at h
      cases h
    | ok outcome =>
      obtain ⟨ha, he⟩ := attempted_succ_of_ok (n := n) hr
      rw [ha] at h
      obtain ⟨hl, hk⟩ := ih h
      rw [he]
      refine ⟨by rw [List.length_cons, hl], ?_⟩
      intro e hm
      rcases List.mem_cons.1 hm with rfl | hm
      · simp only [hr]
        rfl
      · exact hk e hm

theorem attempted_of_error {n : Nat} {c : Console} {fault : Fault}
    (h : (attempt n c).2 = .error fault) :
    ∃ past last, attempted n c = past ++ [last] ∧ last.before.step.result = .error fault ∧
      ∀ e ∈ past, e.before.step.result.isOk = true := by
  induction n generalizing c with
  | zero => cases h
  | succ n ih =>
    cases hr : c.step.result with
    | error other =>
      obtain ⟨ha, he⟩ := attempted_succ_of_error (n := n) hr
      rw [ha] at h
      cases h
      exact ⟨[], ⟨c, .step⟩, he, hr, fun e hm ↦ absurd hm List.not_mem_nil⟩
    | ok outcome =>
      obtain ⟨ha, he⟩ := attempted_succ_of_ok (n := n) hr
      rw [ha] at h
      obtain ⟨past, last, hp, hl, hk⟩ := ih h
      refine ⟨⟨c, .step⟩ :: past, last, by rw [he, hp, List.cons_append], hl, ?_⟩
      intro e hm
      rcases List.mem_cons.1 hm with rfl | hm
      · simp only [hr]
        rfl
      · exact hk e hm

theorem frameSteps_eq (c : Console) :
    frameSteps c = attempted c.cadence.toNat (c.after .openFrame) := by
  have hf := List.filter_eq_self.2 (attempted_isStep c.cadence.toNat (c.after .openFrame))
  have hh : c.history [.frame] = record after c c.frameMoves := by
    simp only [history, allMoves, moves, List.append_nil]
  rw [frameSteps, hh, frameMoves]
  unfold attempted at hf ⊢
  cases hr : (attempt c.cadence.toNat (c.after .openFrame)).2 with
  | error fault =>
    simpa only [record, List.filter_cons, isStep, Bool.false_eq_true, if_false] using hf
  | ok _ =>
    simp only [record, record_snoc, List.filter_cons, List.filter_append, isStep,
      Bool.false_eq_true, if_false, List.filter_nil, List.append_nil, hf]

theorem sinceLoad_of_isStep {events : List (Event Console Move)}
    (h : ∀ e ∈ events, isStep e = true) :
    sinceLoad events = events ∧ ∀ c, carried c events = c.cycles.toNat := by
  have hr : ∀ e ∈ events, restarts e = false := by
    intro e he
    simp only [restarts, action_of_isStep (h e he)]
  refine ⟨List.rtakeWhile_eq_self_iff.2 (fun e he ↦ by rw [hr e he]; rfl), fun c ↦ ?_⟩
  have ha : events.any restarts = false := by
    rw [List.any_eq_false]
    intro e he
    rw [hr e he]
    exact Bool.false_ne_true
  rw [carried, ha]
  rfl

theorem countP_cues {events : List (Event Console Move)} (h : ∀ e ∈ events, isStep e = true) :
    (events.flatMap cues).countP Cue.isPresent = (events.map ticks).sum := by
  induction events with
  | nil => rfl
  | cons e events ih =>
    have he : (cues e).countP Cue.isPresent = ticks e := by
      simp only [cues, ticks, apply, action_of_isStep (h e List.mem_cons_self)]
    have hi := ih (fun d hd ↦ h d (List.mem_cons_of_mem e hd))
    rw [List.flatMap_cons, List.countP_append, he, hi, List.map_cons, List.sum_cons]

theorem presented_attempt (n : Nat) (c : Console) :
    ((attempt n c).1.foldl after c).presented = true ↔
      c.presented = true ∨ ((attempted n c).map ticks).sum ≠ 0 := by
  induction n generalizing c with
  | zero => simp [attempt, attempted, record]
  | succ n ih =>
    have hp := presented_step c
    cases hr : c.step.result with
    | error fault =>
      obtain ⟨ha, he⟩ := attempted_succ_of_error (n := n) hr
      rw [ha, he]
      change c.step.console.presented = true ↔ _
      rw [hp]
      rfl
    | ok outcome =>
      obtain ⟨-, he⟩ := attempted_succ_of_ok (n := n) hr
      have hi := ih c.step.console
      rw [he, attempt, hr]
      change (List.foldl after c.step.console (attempt n c.step.console).1).presented = true ↔ _
      have hsum (a b : Nat) : a + b ≠ 0 ↔ a ≠ 0 ∨ b ≠ 0 := by omega
      rw [hi, hp, List.map_cons, List.sum_cons, hsum, or_assoc]

theorem ticks_of_balance {period cycles n total left : Nat} (hc : cycles < period)
    (hn : n ≤ period) (hl : left < period) (h : cycles + n = period * total + left) :
    total = if period ≤ cycles + n then 1 else 0 := by
  have h2 : total < 2 := by
    by_contra ht
    have hm : period * 2 ≤ period * total := Nat.mul_le_mul_left period (by omega)
    omega
  have h01 : total = 0 ∨ total = 1 := by omega
  rcases h01 with rfl | rfl
  · rw [if_neg (by omega)]
  · rw [if_pos (by omega)]

theorem ticks_frameSteps {c : Console} (h : c.InTime) :
    ((frameSteps c).map ticks).sum =
      if c.cadence.toNat ≤ c.cycles.toNat + (frameSteps c).countP counts then 1 else 0 := by
  let acts := (attempt c.cadence.toNat (c.after .openFrame)).1
  have hs := attempted_isStep c.cadence.toNat (c.after .openFrame)
  obtain ⟨hl, hc⟩ := sinceLoad_of_isStep hs
  have hb := balance (c := c.after .openFrame) h acts
  obtain ⟨hcad, hi⟩ := inTime_run (c := c.after .openFrame) h acts
  have hn := length_attempted_le c.cadence.toNat (c.after .openFrame)
  have hk := List.countP_le_length (p := counts)
    (l := attempted c.cadence.toNat (c.after .openFrame))
  change carried _ (attempted _ _) + counted (attempted _ _) = _ * ticked (attempted _ _) + _ at hb
  rw [counted, ticked, hl, hc] at hb
  unfold InTime at hi
  rw [hcad] at hi
  rw [frameSteps_eq]
  exact ticks_of_balance h (hk.trans hn) hi hb

theorem inTime_new_run (m : Machine) (f : UInt32) (requests : List Request) :
    (((ofMachine m).withCadence f).run requests).InTime ∧
      (((ofMachine m).withCadence f).run requests).cadence.toNat = max f.toNat 1 := by
  obtain ⟨hc, hi⟩ := inTime_run (inTime_new m f) (((ofMachine m).withCadence f).allMoves requests)
  rw [run_eq_moves, hc, toNat_cadence]
  exact ⟨hi, rfl⟩

theorem frame_of_ok {c : Console} (h : c.frame.result = .ok ()) :
    (frameSteps c).length = c.cadence.toNat ∧
      (∀ e ∈ frameSteps c, e.before.step.result.isOk = true) ∧
      c.frame.cues.countP Cue.isPresent = max ((frameSteps c).map ticks).sum 1 := by
  have hf := frame_eq_moves c
  have hr : (attempt c.cadence.toNat (c.after .openFrame)).2 = .ok () := by rwa [hf] at h
  have hp := presented_attempt c.cadence.toNat (c.after .openFrame)
  have hs := countP_cues (attempted_isStep c.cadence.toNat (c.after .openFrame))
  obtain ⟨hl, hk⟩ := attempted_of_ok hr
  rw [frameSteps_eq]
  refine ⟨hl, hk, ?_⟩
  rw [hf, frameMoves, hr]
  simp only [record, record_snoc, List.flatMap_cons, List.flatMap_append, List.flatMap_nil,
    List.append_nil, List.countP_append]
  change _ + (List.countP _ (List.flatMap cues (attempted _ _)) + _) = _
  rw [hs]
  generalize (attempt c.cadence.toNat (c.after .openFrame)).1.foldl after (c.after .openFrame) = d
    at hp
  change 0 + (_ + List.countP _ (d.apply .closeFrame).2) = _
  cases hd : d.presented with
  | true =>
    have hn := (hp.1 hd).resolve_left Bool.false_ne_true
    have hc : d.apply .closeFrame = (d, []) := by simp only [apply, hd, if_true]
    rw [hc, List.countP_nil]
    omega
  | false =>
    have hn : ((attempted c.cadence.toNat (c.after .openFrame)).map ticks).sum = 0 := by
      by_contra hn
      rw [hp.2 (.inr hn)] at hd
      cases hd
    have hc : (d.apply .closeFrame).2 = [d.present.2] := by
      simp only [apply, hd, Bool.false_eq_true, if_false]
    rw [hc, hn]
    rfl

theorem frame_of_error {c : Console} {fault : Fault} (h : c.frame.result = .error fault) :
    ∃ past last, frameSteps c = past ++ [last] ∧ last.before.step.result = .error fault ∧
      (∀ e ∈ past, e.before.step.result.isOk = true) ∧ ticks last = 0 ∧
      c.frame.cues.countP Cue.isPresent = ((frameSteps c).map ticks).sum := by
  have hf := frame_eq_moves c
  have hr : (attempt c.cadence.toNat (c.after .openFrame)).2 = .error fault := by rwa [hf] at h
  have hs := countP_cues (attempted_isStep c.cadence.toNat (c.after .openFrame))
  have hi := attempted_isStep c.cadence.toNat (c.after .openFrame)
  obtain ⟨past, last, hp, hl, hk⟩ := attempted_of_error hr
  rw [frameSteps_eq]
  refine ⟨past, last, hp, hl, hk, ?_, ?_⟩
  · obtain ⟨d, action⟩ := last
    have hd := hi ⟨d, action⟩ (by rw [hp]; simp)
    obtain rfl : action = .step := action_of_isStep hd
    exact ticks_of_error hl
  · rw [hf, frameMoves, hr]
    change List.countP _ (List.flatMap cues (⟨c, .openFrame⟩ :: attempted _ _)) = _
    rw [List.flatMap_cons, List.countP_append, hs]
    exact Nat.zero_add _

/-- The render contract: a frame that ends has made `period` steps and shown one
picture, a frame that fails stops at the failing step, and either ticks once if
its steps complete a period and else not at all. Each of the steps is one of the
machine, with the count and the tick that follow it. -/
theorem render_contract (m : Machine) (f : UInt32) (requests : List Request) :
    let c := ((ofMachine m).withCadence f).run requests
    let period := max f.toNat 1
    let events := c.history [.frame]
    let steps := events.filter isStep
    let total := (steps.map ticks).sum
    let shown := c.frame.cues.countP Cue.isPresent
    c.frame.console = (events.map Event.action).foldl after c ∧
      c.frame.cues = events.flatMap cues ∧
      c.cycles.toNat < period ∧
      total = (if period ≤ c.cycles.toNat + steps.countP counts then 1 else 0) ∧
      shown ≤ 1 ∧
      (∀ e ∈ steps, e.before.step.result = e.before.machine.step.2 ∧
        e.before.apply .step =
          if ticks e = 0 then
            ({ e.before with machine := e.before.machine.step.1,
                             cycles := e.before.cycles + if counts e then 1 else 0 }, [])
          else tick { e.before with machine := e.before.machine.step.1, cycles := 0 }) ∧
      (c.frame.result = .ok () →
        steps.length = period ∧ (∀ e ∈ steps, e.before.step.result.isOk = true) ∧ shown = 1 ∧
          ((∀ e ∈ steps, e.before.step.result ≠ .ok .suspended) → total = 1)) ∧
      ∀ fault, c.frame.result = .error fault →
        ∃ past last, steps = past ++ [last] ∧ steps.length ≤ period ∧
          (∀ e ∈ past, e.before.step.result.isOk = true) ∧
          last.before.step.result = .error fault ∧
          ticks last = 0 ∧ total = (past.map ticks).sum ∧ shown = total := by
  intro c period events steps total shown
  obtain ⟨hi, hp⟩ : c.InTime ∧ c.cadence.toNat = period := inTime_new_run m f requests
  have hlt : c.cycles.toNat < period := by
    rw [← hp]
    exact hi
  have hf := frame_eq_moves c
  have he : events = record after c c.frameMoves := by
    change record after c (c.frameMoves ++ []) = _
    rw [List.append_nil]
  have ht : total = if period ≤ c.cycles.toNat + steps.countP counts then 1 else 0 := by
    have h := ticks_frameSteps hi
    rwa [hp] at h
  have ht1 : total ≤ 1 := by
    rw [ht]
    split <;> omega
  refine ⟨?_, ?_, hlt, ht, ?_, fun e hm ↦ ?_, fun h ↦ ?_, fun fault h ↦ ?_⟩
  · rw [he, map_action_record, hf]
  · rw [he, hf]
  · cases hr : c.frame.result with
    | ok _ =>
      obtain ⟨-, -, hs⟩ := frame_of_ok hr
      exact hs.trans_le (max_le ht1 (Nat.le_refl 1))
    | error fault =>
      obtain ⟨-, -, -, -, -, -, hs⟩ := frame_of_error hr
      exact hs.trans_le ht1
  · obtain ⟨d, action⟩ := e
    obtain rfl : action = .step := action_of_isStep (List.mem_filter.1 hm).2
    exact ⟨result_step d, apply_step d⟩
  · obtain ⟨hl, hk, hs⟩ := frame_of_ok h
    have hlen : steps.length = period := hl.trans hp
    refine ⟨hlen, hk, hs.trans (Nat.max_eq_right ht1), fun hn ↦ ?_⟩
    have hc : steps.countP counts = steps.length := List.countP_eq_length.2 fun e hm ↦
      counts_of_isOk (List.mem_filter.1 hm).2 (hk e hm) (hn e hm)
    rw [ht, if_pos]
    omega
  · obtain ⟨past, last, hs, hl, hk, h0, hsh⟩ := frame_of_error h
    refine ⟨past, last, hs, ?_, hk, hl, h0, ?_, hsh⟩
    · have hn := length_attempted_le c.cadence.toNat (c.after .openFrame)
      rwa [← frameSteps_eq, hp] at hn
    · have h1 : total = ((past ++ [last]).map ticks).sum := by rw [← hs]; rfl
      rw [h1, List.map_append, List.sum_append, List.map_singleton, List.sum_singleton, h0,
        Nat.add_zero]

/-- A frame that begins with one step counted: its second step ticks and begins a wait for a
key, the third is suspended. -/
theorem render_contract_wait :
    let program : List UInt8 := [0x60, 0x05, 0xF0, 0x15, 0xF1, 0x0A]
    let c := ((ofMachine (.ofSeed 0)).withCadence 3).run [.load program, .step]
    let steps := (c.history [.frame]).filter isStep
    c.cycles = 1 ∧ steps.countP counts = 2 ∧ c.frame.console.machine.delayTimer = 4 ∧
      (∀ e ∈ steps, e.before.step.result = e.before.machine.step.2) ∧
      steps.length = 3 ∧ (steps.map ticks).sum = 1 ∧
      c.frame.cues.countP Cue.isPresent = 1 := by
  intro program c steps
  have hrun : c.cycles = 1 ∧ steps.countP counts = 2 ∧ c.frame.console.machine.delayTimer = 4 ∧
      c.frame.result = .ok () := by
    decide +kernel
  obtain ⟨hcycles, hcounts, htimer, hresult⟩ := hrun
  obtain ⟨-, -, -, htotal, -, hsteps, hok, -⟩ :=
    render_contract (.ofSeed 0) 3 [.load program, .step]
  obtain ⟨hlength, -, hshown, -⟩ := hok hresult
  rw [hcycles, hcounts] at htotal
  exact ⟨hcycles, hcounts, htimer, fun e he ↦ (hsteps e he).1, hlength, htotal, hshown⟩

end Phosphor.Console
