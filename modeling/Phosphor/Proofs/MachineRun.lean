import Phosphor.Proofs.History
import Phosphor.Proofs.Stepping

namespace Phosphor.Machine

inductive Request
  | load (program : List UInt8)
  | reset
  | step
  | press (key : Nibble)
  | release (key : Nibble)
  deriving DecidableEq

def serve (m : Machine) : Request → Machine
  | .load program =>
    match m.load program with
    | .ok after => after
    | .error _ => m
  | .reset => m.reset
  | .step => m.step.1
  | .press key => m.press key
  | .release key => m.release key

def run (m : Machine) (requests : List Request) : Machine := requests.foldl serve m

def history (m : Machine) (requests : List Request) : List (Event Machine Request) :=
  History.record serve m requests

theorem load_eq_ok_iff {m after : Machine} {program : List UInt8} :
    m.load program = .ok after ↔
      program.length ≤ Memory.capacity ∧ after = fresh program m.random := by
  unfold load
  split
  · rename_i h
    simp only [Except.ok.injEq, h, true_and]
    exact eq_comm
  · rename_i h
    simp only [reduceCtorEq, h, false_and]

theorem load_of_fits {program : List UInt8} (h : program.length ≤ 3584) (m : Machine) :
    m.load program = .ok (fresh program m.random) := load_eq_ok_iff.2 ⟨h, rfl⟩

theorem load_of_long {program : List UInt8} (h : 3584 < program.length) (m : Machine) :
    m.load program = .error (.programTooLarge ⟨program.length, 3584⟩) := if_neg (Nat.not_le.2 h)

/-- The word at the program counter, if no key is awaited, the word is an instruction and the
instruction does not fail. -/
def executedWord? (m : Machine) : Option Word :=
  match m.keypad.pending, m.wordAt m.pc.toNat with
  | none, .ok w =>
    match m.advance.execute (.decode w), (Instruction.decode w).outcome with
    | .ok _, .executed => some w
    | _, _ => none
  | _, _ => none

theorem outcome_eq_executed_iff {i : Instruction} :
    i.outcome = .executed ↔ ∀ w, i ≠ .unknown w := by
  cases i <;> simp [Instruction.outcome]

theorem executedWord?_eq_some_iff {m : Machine} {w : Word} :
    m.executedWord? = some w ↔
      m.keypad.pending = none ∧ m.wordAt m.pc.toNat = .ok w ∧
        (∀ u, Instruction.decode w ≠ .unknown u) ∧
        m.advance.execute (.decode w) = .ok m.step.1 := by
  constructor
  · intro h
    unfold executedWord? at h
    split at h
    · rename_i u hp hu
      split at h
      · rename_i after he ho
        cases h
        refine ⟨hp, hu, outcome_eq_executed_iff.1 ho, ?_⟩
        rw [he, step_of_done hp hu he]
      · cases h
    · cases h
  · rintro ⟨hp, hw, hu, he⟩
    simp only [executedWord?, hp, hw, he, outcome_eq_executed_iff.2 hu]

theorem step_of_not_executed {m : Machine} (h : m.executedWord? = none) :
    m.step.1 = m ∨ m.step.1 = m.advance := by
  have hs := stepped m
  cases hm : m.step with
  | mk after result =>
    rw [hm] at hs
    cases hs with
    | suspended | unfetched => exact .inl rfl
    | refused => exact .inr rfl
    | @done w _ hp hw he =>
      by_cases hu : ∃ u, Instruction.decode w = .unknown u
      · obtain ⟨u, hu⟩ := hu
        rw [hu] at he
        exact .inr (Except.ok.inj he).symm
      · have hx := executedWord?_eq_some_iff.2 ⟨hp, hw, not_exists.1 hu, by rw [he, hm]⟩
        rw [h] at hx
        cases hx

end Phosphor.Machine
