import Phosphor.Proofs.Footprint
import Phosphor.Proofs.Keyboard
import Phosphor.Proofs.Runaway

namespace Phosphor

namespace Machine

variable {m : Machine}

def SetsSound (m : Machine) : Prop :=
  ∃ x, m.executedWord? = some (.ofNibbles 0xF x 0x1 0x8)

instance (m : Machine) : Decidable (SetsSound m) :=
  inferInstanceAs (Decidable (∃ x : Nibble, m.executedWord? = some (.ofNibbles 0xF x 0x1 0x8)))

theorem soundTimer_step (h : ¬ SetsSound m) : m.step.1.soundTimer = m.soundTimer := by
  cases hw : m.executedWord? with
  | none =>
    rcases step_of_not_executed hw with hs | hs
    · rw [hs]
    · rw [hs]
      rfl
  | some w =>
    obtain ⟨-, -, -, he⟩ := executedWord?_eq_some_iff.1 hw
    by_contra hchanged
    have hwrites : Writes m.index (Instruction.decode w).encode .soundTimer :=
      execute_writes he hchanged
    rw [Instruction.encode_decode] at hwrites
    cases hwrites with
    | setSound => exact h ⟨_, hw⟩

end Machine

namespace Console

open History Machine

def Move.isDrive : Move → Bool
  | .step | .openFrame | .closeFrame | .press _ | .release _ => true
  | .load _ | .alter _ => false

theorem isDrive_moves (c : Console) {r : Request} (hr : r.isDrive = true) :
    ∀ a ∈ c.moves r, a.isDrive = true := by
  cases r with
  | frame =>
    intro a ha
    have hframe := isOfFrame_frameMoves c a ha
    cases a with
    | step | openFrame | closeFrame => rfl
    | load | press | release | alter => cases hframe
  | step | press | release => exact List.forall_mem_singleton.2 rfl
  | load | alter => cases hr

theorem isDrive_allMoves (c : Console) {requests : List Request}
    (hr : ∀ r ∈ requests, r.isDrive = true) : ∀ a ∈ c.allMoves requests, a.isDrive = true := by
  induction requests generalizing c with
  | nil => exact fun a ha ↦ absurd ha List.not_mem_nil
  | cons r requests ih =>
    obtain ⟨hfirst, hrest⟩ := List.forall_mem_cons.1 hr
    exact List.forall_mem_append.2 ⟨isDrive_moves c hfirst, ih (c.serve r).console hrest⟩

theorem ticks_le_one (e : Event Console Move) : ticks e ≤ 1 := by
  obtain ⟨c, action⟩ := e
  cases action with
  | step =>
    have hs := struck c
    simp only [ticks]
    generalize c.step = r at hs
    cases hs with
    | refused | suspended | counted => exact Nat.zero_le 1
    | ticked => exact Nat.le_of_eq (countP_tick _)
  | load | openFrame | closeFrame | press | release | alter => exact Nat.zero_le 1

theorem tones_toneCue (playing sounding : Bool) :
    tones (toneCue playing sounding) = toneCue playing sounding := by
  cases playing <;> cases sounding <;> rfl

theorem tones_tick (c : Console) : tones c.tick.2 = toneCue c.toneOn c.machine.sounding := by
  have hcues : tones c.tick.2 = tones (toneCue c.toneOn c.machine.sounding) ++ [] :=
    List.filter_append _ _
  rw [hcues, tones_toneCue, List.append_nil]

/-- A tone for a sound timer of `n`, after `t` ticks: it is on from the first tick to the
`n`-th, and goes off at the next. -/
structure Sounding (n t : Nat) (c : Console) : Prop where
  soundTimer : c.machine.soundTimer.toNat = n - t
  toneOn : c.toneOn = decide (0 < t ∧ t ≤ n)

def tonesOfTick (n t : Nat) : List Cue :=
  if t = 0 then [.startTone] else if t = n then [.stopTone] else []

def tonesOfTicks (n t : Nat) : List Cue :=
  if t = 0 then [] else if t ≤ n then [.startTone] else [.startTone, .stopTone]

variable {n t : Nat}

theorem tonesOfTicks_succ (hn : 0 < n) :
    tonesOfTicks n (t + 1) = tonesOfTicks n t ++ tonesOfTick n t := by
  unfold tonesOfTicks tonesOfTick
  have hcase : t = 0 ∨ (0 < t ∧ t < n) ∨ (0 < t ∧ t = n) ∨ n < t := by omega
  rcases hcase with rfl | ⟨hpos, hlt⟩ | ⟨hpos, rfl⟩ | hlt
  · rw [if_neg (by omega), if_pos (by omega)]
    rfl
  · rw [if_neg (by omega), if_pos (by omega), if_neg (by omega), if_pos (by omega),
      if_neg (by omega), if_neg (by omega)]
    rfl
  · rw [if_neg (by omega), if_neg (by omega), if_neg (by omega), if_pos (by omega),
      if_neg (by omega), if_pos rfl]
    rfl
  · rw [if_neg (by omega), if_neg (by omega), if_neg (by omega), if_neg (by omega),
      if_neg (by omega), if_neg (by omega)]
    rfl

theorem toneCue_eq_tonesOfTick (hn : 0 < n) :
    toneCue (decide (0 < t ∧ t ≤ n)) (decide (0 < n - t)) = tonesOfTick n t := by
  unfold tonesOfTick
  have hcase : t = 0 ∨ (0 < t ∧ t < n) ∨ (0 < t ∧ t = n) ∨ n < t := by omega
  rcases hcase with rfl | ⟨hpos, hlt⟩ | ⟨hpos, rfl⟩ | hlt
  · rw [decide_eq_false (by omega), decide_eq_true (by omega), if_pos rfl]
    rfl
  · rw [decide_eq_true (by omega), decide_eq_true (by omega), if_neg (by omega),
      if_neg (by omega)]
    rfl
  · rw [decide_eq_true (by omega), decide_eq_false (by omega), if_neg (by omega), if_pos rfl]
    rfl
  · rw [decide_eq_false (by omega), decide_eq_false (by omega), if_neg (by omega),
      if_neg (by omega)]
    rfl

section

variable {e : Event Console Move}

def KeepsSound (e : Event Console Move) : Prop :=
  e.action.isDrive = true ∧ (isStep e = true → ¬ SetsSound e.before.machine)

theorem KeepsSound.restarts (h : KeepsSound e) : restarts e = false := by
  obtain ⟨c, action⟩ := e
  cases action with
  | load program => cases h.1
  | step | openFrame | closeFrame | press | release | alter => rfl

theorem KeepsSound.soundTimer_own (h : KeepsSound e) :
    (own e).soundTimer = e.before.machine.soundTimer := by
  obtain ⟨c, action⟩ := e
  cases action with
  | step => exact soundTimer_step (h.2 rfl)
  | press key => exact (congrArg Machine.soundTimer (press_eq c.machine key) :)
  | openFrame | closeFrame | release => rfl
  | load | alter => cases h.1

theorem Sounding.after (h : Sounding n t e.before) (hn : 0 < n) (he : KeepsSound e) :
    Sounding n (t + ticks e) (e.before.after e.action) ∧
      tones (cues e) = if ticks e = 0 then [] else tonesOfTick n t := by
  obtain ⟨htick, -, hquiet⟩ := toneOn_after e
  have htimer := (timers_after e).2
  rw [he.soundTimer_own, h.soundTimer, Nat.sub_sub] at htimer
  by_cases hticks : ticks e = 0
  · obtain ⟨htones, hsame⟩ := hquiet hticks he.restarts
    rw [if_pos hticks]
    refine ⟨⟨htimer, ?_⟩, htones⟩
    rw [hsame, h.toneOn, hticks, Nat.add_zero]
  · obtain ⟨happly, htone⟩ := htick hticks
    have hone : ticks e = 1 := by
      have hle := ticks_le_one e
      omega
    have hpos : 0 < (own e).soundTimer ↔ 0 < n - t := by
      rw [he.soundTimer_own, UInt8.lt_iff_toNat_lt, h.soundTimer]
      rfl
    have hsounding : (own e).sounding = decide (0 < n - t) := decide_eq_decide.2 hpos
    rw [if_neg hticks]
    refine ⟨⟨htimer, ?_⟩, ?_⟩
    · rw [htone, hone, decide_eq_decide, hpos]
      omega
    · rw [cues, happly, tones_tick, hsounding, h.toneOn]
      exact toneCue_eq_tonesOfTick hn

end

theorem sounding_run {c : Console} (h : Sounding n 0 c) (hn : 0 < n) (acts : List Move)
    (hkeeps : ∀ e ∈ record after c acts, KeepsSound e) :
    Sounding n ((record after c acts).map ticks).sum (acts.foldl after c) ∧
      tones ((record after c acts).flatMap cues) =
        tonesOfTicks n ((record after c acts).map ticks).sum := by
  revert hkeeps
  refine run_induction (motive := fun _ (d : Console) events ↦ (∀ e ∈ events, KeepsSound e) →
    Sounding n (events.map ticks).sum d ∧
      tones (events.flatMap cues) = tonesOfTicks n (events.map ticks).sum)
    (fun _ ↦ ⟨h, rfl⟩) (fun _ d events a ih hkeeps ↦ ?_) acts
  obtain ⟨hpast, hlast⟩ := List.forall_mem_append.1 hkeeps
  obtain ⟨hsounding, htones⟩ := ih hpast
  obtain ⟨hafter, hmore⟩ := hsounding.after hn (hlast _ List.mem_cons_self)
  rw [List.map_append, List.sum_append, List.map_singleton, List.sum_singleton,
    List.flatMap_append, List.flatMap_singleton]
  refine ⟨hafter, ?_⟩
  have happend : tones (events.flatMap cues ++ cues ⟨d, a⟩) =
      tones (events.flatMap cues) ++ tones (cues ⟨d, a⟩) := List.filter_append _ _
  rw [happend, htones, hmore]
  have hone := ticks_le_one ⟨d, a⟩
  by_cases hticks : ticks ⟨d, a⟩ = 0
  · rw [if_pos hticks, hticks, List.append_nil, Nat.add_zero]
  · obtain hticks' : ticks ⟨d, a⟩ = 1 := by omega
    rw [if_neg hticks, hticks', tonesOfTicks_succ hn]

/-- A tone lasts as long as its sound timer says. While programs run and keys move and no
`Fx18` is executed, each tick takes one off a sound timer that began at `n`; the tone starts at
the first tick and stops at the one after the `n`-th, and nothing else switches it. -/
theorem tone_lasts (c : Console) (requests : List Request) (htone : c.toneOn = false)
    (htimer : 0 < c.machine.soundTimer) (hdrive : ∀ r ∈ requests, r.isDrive = true)
    (hset : ∀ e ∈ c.history requests, isStep e = true → ¬ SetsSound e.before.machine) :
    let n := c.machine.soundTimer.toNat
    let events := c.history requests
    let total := (events.map ticks).sum
    c.run requests = (events.map Event.action).foldl after c ∧
    (c.replies requests).flatMap Reply.cues = events.flatMap cues ∧
    (∀ past e future, events = past ++ e :: future →
      let t := (past.map ticks).sum
      e.before = (past.map Event.action).foldl after c ∧
      e.before.machine.soundTimer.toNat = n - t ∧ ticks e ≤ 1 ∧
      tones (cues e) =
        if ticks e = 0 then []
        else if t = 0 then [.startTone] else if t = n then [.stopTone] else []) ∧
    (c.run requests).machine.soundTimer.toNat = n - total ∧
    tones ((c.replies requests).flatMap Reply.cues) =
      if total = 0 then [] else if total ≤ n then [.startTone] else [.startTone, .stopTone] := by
  intro n events total
  have hn : 0 < n := UInt8.lt_iff_toNat_lt.1 htimer
  have hstart : Sounding n 0 c := ⟨rfl, htone⟩
  have hkeeps : ∀ e ∈ events, KeepsSound e := by
    intro e he
    have haction : e.action ∈ c.allMoves requests := exists_mem_record_iff.1 ⟨e, he, rfl⟩
    exact ⟨isDrive_allMoves c hdrive e.action haction, hset e he⟩
  obtain ⟨hlast, htones⟩ := sounding_run hstart hn (c.allMoves requests) hkeeps
  refine ⟨?_, cues_replies c requests, ?_, ?_, ?_⟩
  · rw [run_eq_moves]
    exact congrArg (List.foldl _ c) (map_action_record c _).symm
  · intro past e future hevents t
    obtain ⟨before, rest, -, hpast, hbefore, -⟩ := record_eq_append_cons hevents
    have hmem : ∀ d ∈ past, KeepsSound d := fun d hd ↦
      hkeeps d (hevents ▸ List.mem_append_left _ hd)
    have he : KeepsSound e := hkeeps e (hevents ▸ List.mem_append_right _ List.mem_cons_self)
    rw [hpast] at hmem
    obtain ⟨hsounding, -⟩ := sounding_run hstart hn before hmem
    rw [← hpast, ← hbefore] at hsounding
    refine ⟨?_, hsounding.soundTimer, ticks_le_one e, (hsounding.after hn he).2⟩
    rw [hpast, map_action_record]
    exact hbefore
  · rw [run_eq_moves]
    exact hlast.soundTimer
  · rw [cues_replies]
    exact htones

/-- A tone of one tick, with a wait for a key before the tick that ends it. -/
theorem tone_lasts_wait :
    let c := ((ofMachine (.ofSeed 0)).withCadence 3).run
      [.load [0x60, 0x01, 0xF0, 0x18, 0xF1, 0x0A, 0x12, 0x06], .step, .step]
    let requests : List Request := [.step, .frame, .press 1, .frame]
    c.toneOn = false ∧ c.machine.soundTimer = 1 ∧ (∀ r ∈ requests, r.isDrive = true) ∧
      (∀ e ∈ c.history requests, isStep e = true → ¬ SetsSound e.before.machine) ∧
      ((c.history requests).map ticks).sum = 2 ∧
      tones ((c.replies requests).flatMap Reply.cues) = [.startTone, .stopTone] := by
  intro c requests
  have hrun : c.toneOn = false ∧ c.machine.soundTimer = 1 ∧
      (∀ e ∈ c.history requests, isStep e = true → ¬ SetsSound e.before.machine) ∧
      ((c.history requests).map ticks).sum = 2 := by
    decide +kernel
  obtain ⟨htone, htimer, hset, htotal⟩ := hrun
  have hdrive : ∀ r ∈ requests, r.isDrive = true := by decide
  have hpos : 0 < c.machine.soundTimer := by
    rw [htimer]
    decide
  obtain ⟨-, -, -, -, htones⟩ := tone_lasts c requests htone hpos hdrive hset
  rw [htotal, htimer] at htones
  exact ⟨htone, htimer, hdrive, hset, htotal, htones⟩

end Console

end Phosphor
