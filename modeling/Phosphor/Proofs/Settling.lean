import Phosphor.Proofs.Afterglow
import Phosphor.Proofs.ConsoleRun
import Phosphor.Proofs.Stepping

namespace Phosphor

theorem zipIdx_map_range {α : Type} (f : Nat → α) (n : Nat) :
    ((List.range n).map f).zipIdx = (List.range n).map fun k ↦ (f k, k) := by
  induction n with
  | zero => rfl
  | succ n ih =>
    rw [List.range_succ, List.map_append, List.zipIdx_append, ih, List.map_append,
      List.length_map, List.length_range, Nat.zero_add]
    rfl

namespace Screen

def layer (s : Screen) (level : Nat) : List GlowCell :=
  (List.range 32).flatMap fun y ↦
    ((List.range 64).filter fun x ↦ s.lit x y).map fun x ↦ ⟨x, y, level⟩

theorem toList_eq_map (s : Screen) :
    s.toList = (List.range 32).map fun y ↦ s[y]?.getD 0#64 := by
  apply List.ext_getElem?
  intro y
  rw [Vector.getElem?_toList, List.getElem?_map]
  by_cases hy : y < 32
  · rw [List.getElem?_range hy, Option.map_some, Vector.getElem?_eq_getElem hy, Option.getD_some]
  · rw [List.getElem?_eq_none (by simpa using hy), Vector.getElem?_eq_none (Nat.not_lt.1 hy)]
    rfl

theorem lit_eq_getMsbD (s : Screen) (x y : Nat) :
    s.lit x y = (s[y]?.getD 0#64).getMsbD x := by
  unfold lit
  cases s[y]? with
  | some row => rfl
  | none => exact BitVec.getMsbD_zero.symm

theorem map_litCells (s : Screen) (level : Nat) :
    (s.litCells.map fun cell ↦ (⟨cell.1, cell.2, level⟩ : GlowCell)) = s.layer level := by
  unfold litCells layer litColumns
  rw [toList_eq_map, zipIdx_map_range]
  simp only [List.flatMap_map, List.map_flatMap, List.map_map, ← lit_eq_getMsbD]
  rfl

end Screen

namespace Framebuffer

theorem retained_of_le {shots : List Screen} (h : shots.length ≤ 6) : retained shots = shots := by
  have hdepth : shots.length - depth = 0 := Nat.sub_eq_zero_of_le h
  rw [retained, hdepth, List.drop_zero]

theorem retained_append_replicate (shots : List Screen) (s : Screen) {n : Nat} (h : 6 ≤ n) :
    retained (shots ++ List.replicate n s) = List.replicate 6 s := by
  have hlong : shots.length ≤ (shots ++ List.replicate n s).length - depth := by
    rw [List.length_append, List.length_replicate]
    unfold depth
    omega
  rw [retained, List.drop_append, List.drop_eq_nil_of_le hlong, List.nil_append,
    List.drop_replicate, List.length_append, List.length_replicate]
  unfold depth
  congr 1
  omega

theorem glow_of_history {fb : Framebuffer} {s : Screen} (h : fb.history = List.replicate 6 s) :
    fb.glow = (List.range 6).flatMap s.layer := by
  have hshots : List.replicate 6 s = (List.range 6).map fun _ ↦ s := rfl
  rw [glow, h, hshots, zipIdx_map_range, List.flatMap_map]
  simp only [Screen.map_litCells]

end Framebuffer

namespace Console

variable {c d : Console} {x : Nibble} {n : Nat}

theorem step_of_pending (h : c.machine.keypad.pending = some x) :
    c.step = ⟨c, [], .ok .suspended⟩ := by
  simp only [step, Machine.step_of_pending h]
  rfl

theorem steps_of_pending (h : c.machine.keypad.pending = some x) (n : Nat) :
    steps n c = ⟨c, [], .ok ()⟩ := by
  unfold steps
  induction n with
  | zero => rfl
  | succ n ih =>
    rw [repeated_succ_of_ok (congrArg Reply.result (step_of_pending h)), step_of_pending h]
    exact ih

/-- While a key is awaited, a frame does nothing but show the picture. -/
theorem frame_of_pending (h : c.machine.keypad.pending = some x) :
    c.frame = ⟨c.present.1, [c.present.2], .ok ()⟩ := by
  have hsteps := steps_of_pending (c := { c with presented := false }) h c.cadence.toNat
  rw [frame, hsteps]
  rfl

def Request.isIdle : Request → Bool
  | .step | .frame | .release _ => true
  | .load _ | .press _ | .alter _ => false

def Request.isFrame : Request → Bool
  | .frame => true
  | _ => false

/-- The second console is the first after `n` pictures of the same screen: the keys may have
been let go, and old snapshots have given way to that screen. -/
structure Settling (n : Nat) (c d : Console) : Prop where
  rest : d =
    { c with
      machine :=
        { c.machine with
          display := d.machine.display
          keypad := { c.machine.keypad with down := d.machine.keypad.down } }
      presented := d.presented }
  screen : d.machine.display.screen = c.machine.display.screen
  history : d.machine.display.history =
    Framebuffer.retained
      (c.machine.display.history ++ List.replicate n c.machine.display.screen)

namespace Settling

theorem refl (c : Console) : Settling 0 c c where
  rest := rfl
  screen := rfl
  history := by
    rw [List.replicate_zero, List.append_nil,
      Framebuffer.retained_of_le c.machine.display.history_length_le]

theorem pending (h : Settling n c d) :
    d.machine.keypad.pending = c.machine.keypad.pending := by
  rw [h.rest]

theorem present (h : Settling n c d) : Settling (n + 1) c d.present.1 where
  rest := by
    rw [h.rest]
    rfl
  screen := h.screen
  history := by
    have hshot : d.present.1.machine.display.history =
        Framebuffer.retained (d.machine.display.history ++ [d.machine.display.screen]) := rfl
    rw [hshot, h.history, h.screen, Framebuffer.retained_append_singleton, List.append_assoc,
      ← List.replicate_succ']

theorem release (h : Settling n c d) (key : Nibble) : Settling n c (d.release key) where
  rest := by
    rw [h.rest]
    rfl
  screen := h.screen
  history := h.history

theorem serve (h : Settling n c d) (hwait : c.machine.keypad.pending = some x) {r : Request}
    (hr : r.isIdle = true) :
    Settling (n + if r.isFrame then 1 else 0) c (d.serve r).console := by
  have hd : d.machine.keypad.pending = some x := h.pending.trans hwait
  cases r with
  | step =>
    simp only [Console.serve, Console.step_of_pending hd]
    exact h
  | frame =>
    simp only [Console.serve, frame_of_pending hd]
    exact h.present
  | release key => exact h.release key
  | load | press | alter => cases hr

end Settling

theorem settling_run (hwait : c.machine.keypad.pending = some x) {requests : List Request}
    (hidle : ∀ r ∈ requests, r.isIdle = true) :
    Settling (requests.countP Request.isFrame) c (c.run requests) := by
  revert hidle
  refine History.run_induction (motive := fun requests d _ ↦
    (∀ r ∈ requests, r.isIdle = true) → Settling (requests.countP Request.isFrame) c d)
    (fun _ ↦ .refl c) (fun requests d _ r ih hidle ↦ ?_) requests
  obtain ⟨hpast, hlast⟩ := List.forall_mem_append.1 hidle
  rw [List.countP_append, List.countP_singleton]
  exact (ih hpast).serve hwait (hlast r List.mem_cons_self)

/-- The afterglow settles while a key is awaited. Frames go on without fault, each shows one
picture and gives no other cue, and nothing but the snapshots changes. From the sixth frame on
the picture is the current screen on every level. -/
theorem afterglow_settles (c : Console) (x : Nibble) (requests : List Request)
    (hwait : c.machine.keypad.pending = some x) (hidle : ∀ r ∈ requests, r.isIdle = true) :
    let screen := c.machine.display.screen
    let d := c.run requests
    (∀ past future, requests = past ++ .frame :: future →
      ∃ picture, (c.run past).frame.result = .ok () ∧
        (c.run past).frame.cues = [.present picture] ∧
        (6 ≤ past.countP Request.isFrame + 1 → picture = (List.range 6).flatMap screen.layer)) ∧
    d.machine.display.screen = screen ∧ d.machine.keypad.pending = some x ∧
    d = { c with
      machine :=
        { c.machine with
          display := d.machine.display
          keypad := { c.machine.keypad with down := d.machine.keypad.down } }
      presented := d.presented } := by
  intro screen d
  have hlast := settling_run hwait hidle
  refine ⟨?_, hlast.screen, hlast.pending.trans hwait, hlast.rest⟩
  intro past future hrequests
  have hpast : ∀ r ∈ past, r.isIdle = true := fun r hr ↦
    hidle r (hrequests ▸ List.mem_append_left _ hr)
  have hsettling := settling_run hwait hpast
  have hframe := frame_of_pending (hsettling.pending.trans hwait)
  refine ⟨(c.run past).machine.display.composite.2, by rw [hframe], by rw [hframe]; rfl,
    fun hsix ↦ ?_⟩
  apply Framebuffer.glow_of_history
  exact hsettling.present.history.trans (Framebuffer.retained_append_replicate _ _ hsix)

/-- A glyph is drawn, and a key is let go among the frames that fade it in. -/
theorem afterglow_settles_glyph :
    let c := ((ofMachine (.ofSeed 0)).withCadence 2).run
      [.load [0xD0, 0x05, 0xF1, 0x0A], .step, .step]
    let past : List Request := [.frame, .frame, .release 3, .frame, .frame, .frame]
    let screen := c.machine.display.screen
    c.machine.keypad.pending = some 1 ∧ (∀ r ∈ past ++ [.frame], r.isIdle = true) ∧
      screen.lit 0 0 = true ∧ (c.run past).frame.result = .ok () ∧
      (c.run past).frame.cues = [.present ((List.range 6).flatMap screen.layer)] := by
  intro c past screen
  have hstart : c.machine.keypad.pending = some 1 ∧ screen.lit 0 0 = true := by decide +kernel
  obtain ⟨hwait, hlit⟩ := hstart
  have hidle : ∀ r ∈ past ++ [.frame], r.isIdle = true := by decide
  -- with more unfolded, the frames would be run
  with_reducible
    obtain ⟨hframes, -⟩ := afterglow_settles c 1 (past ++ [.frame]) hwait hidle
    obtain ⟨picture, hresult, hcues, hsettled⟩ := hframes past [] rfl
    rw [hsettled (by decide)] at hcues
    exact ⟨hwait, hidle, hlit, hresult, hcues⟩

end Console

end Phosphor
