import Phosphor.Console
import Phosphor.Proofs.History

namespace Phosphor.Console

open History

/-- What a host can ask of a console. An alteration stands for whatever is done
to the machine behind the console's back. -/
inductive Request
  | load (program : List UInt8)
  | step
  | frame
  | press (key : Nibble)
  | release (key : Nibble)
  | alter (change : Machine → Machine)

inductive Answer
  | done
  | loaded (result : Except Fault Unit)
  | stepped (result : Except Fault Outcome)
  | framed (result : Except Fault Unit)
  deriving DecidableEq

def serve (c : Console) : Request → Reply Answer
  | .load program =>
    ⟨(c.load program).console, (c.load program).cues, .loaded (c.load program).result⟩
  | .step => ⟨c.step.console, c.step.cues, .stepped c.step.result⟩
  | .frame => ⟨c.frame.console, c.frame.cues, .framed c.frame.result⟩
  | .press key => ⟨c.press key, [], .done⟩
  | .release key => ⟨c.release key, [], .done⟩
  | .alter change => ⟨{ c with machine := change c.machine }, [], .done⟩

def run (c : Console) (requests : List Request) : Console :=
  requests.foldl (fun c r ↦ (c.serve r).console) c

inductive Move
  | load (program : List UInt8)
  | step
  | openFrame
  | closeFrame
  | press (key : Nibble)
  | release (key : Nibble)
  | alter (change : Machine → Machine)

def apply (c : Console) : Move → Console × List Cue
  | .load program => ((c.load program).console, (c.load program).cues)
  | .step => (c.step.console, c.step.cues)
  | .openFrame => ({ c with presented := false }, [])
  | .closeFrame => if c.presented then (c, []) else (c.present.1, [c.present.2])
  | .press key => (c.press key, [])
  | .release key => (c.release key, [])
  | .alter change => ({ c with machine := change c.machine }, [])

def after (c : Console) (move : Move) : Console := (c.apply move).1

def cues (e : Event Console Move) : List Cue := (e.before.apply e.action).2

def attempt : Nat → Console → List Move × Except Fault Unit
  | 0, _ => ([], .ok ())
  | n + 1, c =>
    match c.step.result with
    | .error fault => ([.step], .error fault)
    | .ok _ => (.step :: (attempt n c.step.console).1, (attempt n c.step.console).2)

def frameMoves (c : Console) : List Move :=
  let tries := attempt c.cadence.toNat (c.after .openFrame)
  .openFrame :: match tries.2 with
    | .ok () => tries.1 ++ [.closeFrame]
    | .error _ => tries.1

def moves (c : Console) : Request → List Move
  | .load program => [.load program]
  | .step => [.step]
  | .frame => c.frameMoves
  | .press key => [.press key]
  | .release key => [.release key]
  | .alter change => [.alter change]

def allMoves : Console → List Request → List Move
  | _, [] => []
  | c, r :: requests => c.moves r ++ allMoves (c.serve r).console requests

def history (c : Console) (requests : List Request) : List (Event Console Move) :=
  record after c (allMoves c requests)

section

variable {α : Type} {operation : Console → Reply (Except Fault α)} {c : Console}

theorem repeated_succ_of_error {fault : Fault} (h : (operation c).result = .error fault) (n : Nat)
    (given : List Cue) :
    repeated operation (n + 1) c given =
      ⟨(operation c).console, given ++ (operation c).cues, .error fault⟩ := by
  rw [repeated]
  generalize operation c = r at h
  cases r
  cases h
  rfl

theorem repeated_succ_of_ok {a : α} (h : (operation c).result = .ok a) (n : Nat)
    (given : List Cue) :
    repeated operation (n + 1) c given =
      repeated operation n (operation c).console (given ++ (operation c).cues) := by
  rw [repeated]
  generalize operation c = r at h
  cases r
  cases h
  rfl

end

theorem repeated_step (n : Nat) (c : Console) (given : List Cue) :
    repeated step n c given =
      ⟨(attempt n c).1.foldl after c, given ++ (record after c (attempt n c).1).flatMap cues,
        (attempt n c).2⟩ := by
  induction n generalizing c given with
  | zero => simp [repeated, attempt, record]
  | succ n ih =>
    rw [repeated, attempt]
    cases h : c.step with
    | mk next more result =>
      cases result with
      | error fault => simp [record, after, apply, cues, h]
      | ok outcome =>
        simp only [ih, record, List.foldl_cons, List.flatMap_cons, List.append_assoc]
        simp [after, apply, cues, h]

theorem frame_eq_moves (c : Console) :
    c.frame =
      ⟨c.frameMoves.foldl after c, (record after c c.frameMoves).flatMap cues,
        (attempt c.cadence.toNat (c.after .openFrame)).2⟩ := by
  have hs : steps c.cadence.toNat { c with presented := false } = _ :=
    repeated_step c.cadence.toNat (c.after .openFrame) []
  rw [frame, hs, frameMoves]
  cases h : (attempt c.cadence.toNat (c.after .openFrame)).2 with
  | error fault => simp [record, cues, apply]
  | ok _ =>
    simp only [List.foldl_cons, List.foldl_append, List.foldl_nil, record, record_snoc,
      List.flatMap_cons, List.flatMap_append, List.flatMap_nil, List.append_nil]
    generalize (attempt c.cadence.toNat (c.after .openFrame)).1.foldl after
      (c.after .openFrame) = d
    cases hp : d.presented <;> simp [cues, after, apply, hp]

theorem serve_eq_moves (c : Console) (r : Request) :
    (c.serve r).console = (c.moves r).foldl after c ∧
      (c.serve r).cues = (record after c (c.moves r)).flatMap cues := by
  cases r with
  | frame =>
    have h := frame_eq_moves c
    exact ⟨congrArg Reply.console h, congrArg Reply.cues h⟩
  | _ => exact ⟨rfl, (List.append_nil _).symm⟩

theorem run_eq_moves (c : Console) (requests : List Request) :
    c.run requests = (c.allMoves requests).foldl after c := by
  induction requests generalizing c with
  | nil => rfl
  | cons r requests ih =>
    rw [allMoves, List.foldl_append, ← (serve_eq_moves c r).1]
    exact ih (c.serve r).console

end Phosphor.Console
