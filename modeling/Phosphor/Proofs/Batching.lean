import Phosphor.Proofs.Reload
import Phosphor.Proofs.Rendering

namespace Phosphor.Console

open History

abbrev Course := List Move × Except Fault Unit

def proceed (first second : Course) : Course :=
  match first.2 with
  | .error fault => (first.1, .error fault)
  | .ok () => (first.1 ++ second.1, second.2)

def batch : Nat → Console → Course
  | 0, _ => ([], .ok ())
  | n + 1, c => proceed (c.frameMoves, c.frame.result) (batch n c.frame.console)

/-- What shows of a step: the machine it is made on, its result and its cues. -/
def seen (e : Event Console Move) : Machine × Except Fault Outcome × List Cue :=
  (e.before.machine, e.before.step.result, cues e)

def seenSteps (events : List (Event Console Move)) :
    List (Machine × Except Fault Outcome × List Cue) :=
  (events.filter isStep).map seen

variable {c d : Console}

theorem proceed_of_ok {first : Course} (h : first.2 = .ok ()) (second : Course) :
    proceed first second = (first.1 ++ second.1, second.2) := by
  simp only [proceed, h]

theorem proceed_of_error {first : Course} {fault : Fault} (h : first.2 = .error fault)
    (second : Course) : proceed first second = first := by
  simp only [proceed, h]
  rw [← h]

theorem proceed_assoc (a b c : Course) : proceed (proceed a b) c = proceed a (proceed b c) := by
  cases ha : a.2 with
  | error fault => simp only [proceed, ha]
  | ok _ => cases hb : b.2 <;> simp only [proceed, ha, hb, List.append_assoc]

theorem attempt_succ_of_ok {c : Console} {outcome : Outcome} (h : c.step.result = .ok outcome)
    (n : Nat) : attempt (n + 1) c = proceed ([.step], .ok ()) (attempt n c.step.console) := by
  rw [attempt, h]
  rfl

theorem attempt_add (a b : Nat) (c : Console) :
    attempt (a + b) c =
      proceed (attempt a c) (attempt b ((attempt a c).1.foldl after c)) := by
  induction a generalizing c with
  | zero =>
    rw [Nat.zero_add]
    rfl
  | succ a ih =>
    rw [Nat.succ_add]
    cases hr : c.step.result with
    | error fault =>
      rw [(attempted_succ_of_error hr).1, (attempted_succ_of_error hr).1]
      rfl
    | ok outcome =>
      have hend : (attempt (a + 1) c).1.foldl after c =
          (attempt a c.step.console).1.foldl after c.step.console := by
        rw [attempt_succ_of_ok hr]
        rfl
      rw [hend, attempt_succ_of_ok hr, attempt_succ_of_ok hr, ih, proceed_assoc]

theorem repeated_frame (n : Nat) (c : Console) (given : List Cue) :
    repeated frame n c given =
      ⟨(batch n c).1.foldl after c, given ++ (record after c (batch n c).1).flatMap cues,
        (batch n c).2⟩ := by
  induction n generalizing c given with
  | zero => simp [repeated, batch, record]
  | succ n ih =>
    have hf := frame_eq_moves c
    rw [repeated, batch]
    cases h : c.frame with
    | mk next more result =>
      rw [h] at hf
      cases result with
      | error fault =>
        rw [proceed_of_error rfl]
        simp only [Reply.mk.injEq] at hf
        rw [hf.1, hf.2.1]
      | ok _ =>
        rw [proceed_of_ok rfl]
        simp only [Reply.mk.injEq] at hf
        dsimp only
        rw [ih, List.foldl_append, record_append, List.flatMap_append, ← hf.1, ← hf.2.1,
          List.append_assoc]

/-- A host cannot tell the runs apart: they end alike, and their steps and cues are the
same. -/
structure SameRun (c d : Console) (a b : Course) : Prop where
  result : a.2 = b.2
  alike : Alike (a.1.foldl after c) (b.1.foldl after d)
  cues : (record after c a.1).flatMap cues = (record after d b.1).flatMap cues
  steps : seenSteps (record after c a.1) = seenSteps (record after d b.1)

theorem Alike.trans {e : Console} (h : Alike c d) (h' : Alike d e) : Alike c e := by
  rw [Alike] at h h' ⊢
  rw [h', h]

namespace SameRun

variable {a a' b b' : Course}

theorem trans {e : Console} {f : Course} (h : SameRun c d a b) (h' : SameRun d e b f) :
    SameRun c e a f :=
  ⟨h.result.trans h'.result, h.alike.trans h'.alike, h.cues.trans h'.cues,
    h.steps.trans h'.steps⟩

theorem proceed (h : SameRun c d a b)
    (h' : a.2 = .ok () → SameRun (a.1.foldl after c) (b.1.foldl after d) a' b') :
    SameRun c d (Console.proceed a a') (Console.proceed b b') := by
  cases ha : a.2 with
  | error fault =>
    rwa [proceed_of_error ha, proceed_of_error (h.result.symm.trans ha)]
  | ok _ =>
    have hrest := h' ha
    rw [proceed_of_ok ha, proceed_of_ok (h.result.symm.trans ha)]
    refine ⟨hrest.result, ?_, ?_, ?_⟩
    · simp only [List.foldl_append]
      exact hrest.alike
    · simp only [record_append, List.flatMap_append, h.cues, hrest.cues]
    · simp only [record_append, seenSteps, List.filter_append, List.map_append]
      exact congrArg₂ (· ++ ·) h.steps hrest.steps

end SameRun

theorem attempted_add_of_ok {a : Nat} (h : (attempt a c).2 = .ok ()) (b : Nat) :
    attempted (a + b) c =
      attempted a c ++ attempted b ((attempt a c).1.foldl after c) := by
  rw [attempted, attempt_add, proceed_of_ok h, record_append]
  rfl

theorem subset_attempted_add (a b : Nat) (c : Console) :
    attempted a c ⊆ attempted (a + b) c := by
  cases h : (attempt a c).2 with
  | error fault =>
    rw [attempted, attempted, attempt_add, proceed_of_error h]
    exact List.Subset.refl _
  | ok _ =>
    rw [attempted_add_of_ok h]
    exact List.subset_append_left _ _

theorem seenSteps_attempted (n : Nat) (c : Console) :
    seenSteps (attempted n c) = (attempted n c).map seen := by
  rw [seenSteps, List.filter_eq_self.2 (attempted_isStep n c)]

theorem sameRun_attempt (h : Alike c d) (n : Nat) :
    SameRun c d (attempt n c) (attempt n d) := by
  induction n generalizing c d with
  | zero => exact ⟨rfl, h, rfl, rfl⟩
  | succ n ih =>
    obtain ⟨hresult, hcues, halike⟩ := alike_step c d.presented
    rw [← h] at hresult hcues halike
    have hmachine : c.machine = d.machine := by rw [h]
    have hevent : cues ⟨c, .step⟩ = cues ⟨d, .step⟩ := hcues.symm
    have hone (result : Except Fault Unit) : SameRun c d ([.step], result) ([.step], result) := by
      refine ⟨rfl, halike, ?_, ?_⟩
      · simp only [record, List.flatMap_cons, hevent]
      · simp only [record, seenSteps, List.filter_cons, isStep, if_true, List.filter_nil,
          List.map_cons, seen, hmachine, hresult, hevent]
    cases hr : c.step.result with
    | error fault =>
      rw [(attempted_succ_of_error hr).1, (attempted_succ_of_error (hresult.trans hr)).1]
      exact hone (.error fault)
    | ok outcome =>
      rw [attempt_succ_of_ok hr, attempt_succ_of_ok (hresult.trans hr)]
      exact (hone (.ok ())).proceed fun _ ↦ ih halike

theorem sameRun_frameMoves (c : Console)
    (h : (attempt c.cadence.toNat (c.after .openFrame)).2 = .ok () →
      ((attempt c.cadence.toNat (c.after .openFrame)).1.foldl after
        (c.after .openFrame)).presented = true) :
    SameRun (c.after .openFrame) c (attempt c.cadence.toNat (c.after .openFrame))
      (c.frameMoves, c.frame.result) := by
  have hresult := congrArg Reply.result (frame_eq_moves c)
  dsimp only at hresult
  rw [hresult, frameMoves]
  cases hr : (attempt c.cadence.toNat (c.after .openFrame)).2 with
  | error fault => exact ⟨hr, rfl, rfl, rfl⟩
  | ok _ =>
    have hpresented := h hr
    generalize hacts : (attempt c.cadence.toNat (c.after .openFrame)).1 = acts at hpresented
    have hclose : (acts.foldl after (c.after .openFrame)).apply .closeFrame =
        (acts.foldl after (c.after .openFrame), []) := by
      simp only [apply, hpresented, if_true]
    have hafter : (acts.foldl after (c.after .openFrame)).after .closeFrame =
        acts.foldl after (c.after .openFrame) := congrArg Prod.fst hclose
    refine ⟨hr, ?_, ?_, ?_⟩
    · rw [hacts, List.foldl_cons, List.foldl_append, List.foldl_cons, List.foldl_nil, hafter]
      rfl
    · rw [hacts, record, record_snoc, List.flatMap_cons, List.flatMap_append, List.flatMap_cons,
        List.flatMap_nil, List.append_nil, cues, cues, hclose, List.append_nil]
      rfl
    · simp only [hacts, record, record_snoc, seenSteps, List.filter_cons, List.filter_append,
        isStep, Bool.false_eq_true, if_false, List.filter_nil, List.append_nil]

theorem presented_of_unsuspended (h : c.InTime)
    (hs : ∀ e ∈ frameSteps c, e.before.step.result ≠ .ok .suspended)
    (hr : (attempt c.cadence.toNat (c.after .openFrame)).2 = .ok ()) :
    ((attempt c.cadence.toNat (c.after .openFrame)).1.foldl after
      (c.after .openFrame)).presented = true := by
  have hsteps := frameSteps_eq c
  obtain ⟨hlength, hok⟩ := attempted_of_ok hr
  rw [← hsteps] at hlength hok
  have hcounts : (frameSteps c).countP counts = (frameSteps c).length :=
    List.countP_eq_length.2 fun e he ↦
      counts_of_isOk (attempted_isStep _ _ e (hsteps ▸ he)) (hok e he) (hs e he)
  have hticks := ticks_frameSteps h
  rw [hcounts, hlength, if_pos (Nat.le_add_left _ _), hsteps] at hticks
  apply (presented_attempt c.cadence.toNat (c.after .openFrame)).2
  exact .inr (hticks.symm ▸ Nat.one_ne_zero)

theorem unsuspended_of_alike (h : Alike c d) {n : Nat}
    (hs : ∀ e ∈ attempted n c, e.before.step.result ≠ .ok .suspended) :
    ∀ e ∈ attempted n d, e.before.step.result ≠ .ok .suspended := by
  have hsteps : seenSteps (attempted n c) = seenSteps (attempted n d) :=
    (sameRun_attempt h n).steps
  rw [seenSteps_attempted, seenSteps_attempted] at hsteps
  intro e he
  have hseen : seen e ∈ (attempted n c).map seen := hsteps ▸ List.mem_map_of_mem he
  obtain ⟨e', he', heq⟩ := List.mem_map.1 hseen
  have hresult : e'.before.step.result = e.before.step.result := congrArg (·.2.1) heq
  rw [← hresult]
  exact hs e' he'

theorem sameRun_frame (h : c.InTime)
    (hs : ∀ e ∈ attempted c.cadence.toNat c, e.before.step.result ≠ .ok .suspended) :
    SameRun c c (attempt c.cadence.toNat c) (c.frameMoves, c.frame.result) := by
  have hopen : Alike c (c.after .openFrame) := rfl
  have hsteps : ∀ e ∈ frameSteps c, e.before.step.result ≠ .ok .suspended := by
    rw [frameSteps_eq]
    exact unsuspended_of_alike hopen hs
  exact (sameRun_attempt hopen c.cadence.toNat).trans
    (sameRun_frameMoves c (presented_of_unsuspended h hsteps))

theorem sameRun_batch (h : c.InTime) (n : Nat)
    (hs : ∀ e ∈ attempted (n * c.cadence.toNat) c, e.before.step.result ≠ .ok .suspended) :
    SameRun c c (attempt (n * c.cadence.toNat) c) (batch n c) := by
  induction n generalizing c with
  | zero =>
    rw [Nat.zero_mul]
    exact ⟨rfl, rfl, rfl, rfl⟩
  | succ n ih =>
    rw [Nat.succ_mul, Nat.add_comm] at hs ⊢
    have hfirst := sameRun_frame h fun e he ↦ hs e (subset_attempted_add _ _ _ he)
    have hconsole : c.frame.console = c.frameMoves.foldl after c := (serve_eq_moves c .frame).1
    rw [attempt_add, batch]
    refine hfirst.proceed fun hok ↦ ?_
    have halike := hfirst.alike
    rw [← hconsole] at halike ⊢
    rw [attempted_add_of_ok hok] at hs
    have hrest := unsuspended_of_alike halike fun e he ↦ hs e (List.mem_append_right _ he)
    have hcadence : c.frame.console.cadence = c.cadence := cadence_serve c .frame
    have hnext := ih (c := c.frame.console) (inTime_serve h .frame)
    rw [hcadence] at hnext
    exact (sameRun_attempt halike _).trans (hnext hrest)

/-- Batching is transparent. Frames run one after the other make the steps that single steps
would make, on the same machines, with the same results and the same cues, and stop at the
same fault, as long as no step is suspended. This holds wherever in its count the console is
when the first frame begins. -/
theorem batching_transparent (hc : c.cycles.toNat < c.cadence.toNat) (n : Nat)
    (hs : ∀ e ∈ attempted (n * c.cadence.toNat) c, e.before.step.result ≠ .ok .suspended) :
    let single := c.steps (n * c.cadence.toNat)
    let made := attempted (n * c.cadence.toNat) c
    let batched := c.frames n
    let events := record after c (batch n c).1
    single.console = (made.map Event.action).foldl after c ∧
    single.cues = made.flatMap cues ∧
    batched.console = (events.map Event.action).foldl after c ∧
    batched.cues = events.flatMap cues ∧
    batched.result = single.result ∧
    batched.cues = single.cues ∧
    batched.console.machine = single.console.machine ∧
    batched.console.cadence = single.console.cadence ∧
    batched.console.cycles = single.console.cycles ∧
    batched.console.toneOn = single.console.toneOn ∧
    seenSteps events = made.map seen ∧
    ∀ fault, batched.result = .error fault →
      ∃ past last, made = past ++ [last] ∧ last.before.step.result = .error fault := by
  intro single made batched events
  have hrun := sameRun_batch hc n hs
  have hsingle : single = ⟨(attempt (n * c.cadence.toNat) c).1.foldl after c,
      made.flatMap cues, (attempt (n * c.cadence.toNat) c).2⟩ := repeated_step _ c []
  have hbatched : batched = ⟨(batch n c).1.foldl after c, events.flatMap cues, (batch n c).2⟩ :=
    repeated_frame n c []
  have halike : batched.console =
      { single.console with presented := batched.console.presented } := by
    rw [hsingle, hbatched]
    exact hrun.alike
  refine ⟨?_, ?_, ?_, ?_, ?_, ?_, ?_, ?_, ?_, ?_, ?_, ?_⟩
  · rw [hsingle, show made.map Event.action = _ from map_action_record c _]
  · rw [hsingle]
  · rw [hbatched, show events.map Event.action = _ from map_action_record c _]
  · rw [hbatched]
  · rw [hsingle, hbatched, hrun.result]
  · rw [hsingle, hbatched]
    exact hrun.cues.symm
  · rw [halike]
  · rw [halike]
  · rw [halike]
  · rw [halike]
  · rw [← seenSteps_attempted]
    exact hrun.steps.symm
  · intro fault hfault
    rw [hbatched, ← hrun.result] at hfault
    obtain ⟨past, last, hmade, hlast, -⟩ := attempted_of_error hfault
    exact ⟨past, last, hmade, hlast⟩

/-- A tone begins in the first frame, and a return fails in the second. -/
theorem batching_transparent_fault :
    let program : List UInt8 := [0x60, 0x03, 0xF0, 0x18, 0x70, 0x01, 0x00, 0xEE]
    let c := ((ofMachine (.fresh program (.ofSeed 0))).withCadence 2).step.console
    c.cycles.toNat < c.cadence.toNat ∧
    (∀ e ∈ attempted (2 * c.cadence.toNat) c, e.before.step.result ≠ .ok .suspended) ∧
    (c.frames 2).result = .error .stackUnderflow ∧
    (c.frames 2).cues = (c.steps (2 * c.cadence.toNat)).cues := by
  intro program c
  have hfacts : c.cycles.toNat < c.cadence.toNat ∧
      (∀ e ∈ attempted (2 * c.cadence.toNat) c, e.before.step.result ≠ .ok .suspended) ∧
      (c.steps (2 * c.cadence.toNat)).result = .error .stackUnderflow := by
    decide +kernel
  obtain ⟨hc, hs, hfault⟩ := hfacts
  obtain ⟨-, -, -, -, hresult, hcues, -⟩ := batching_transparent hc 2 hs
  exact ⟨hc, hs, hresult.trans hfault, hcues⟩

end Phosphor.Console
