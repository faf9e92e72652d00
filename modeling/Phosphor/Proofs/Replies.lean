import Mathlib.Data.List.Forall2
import Phosphor.Proofs.ConsoleRun

namespace Phosphor.Console

open History

def replies : Console → List Request → List (Reply Answer)
  | _, [] => []
  | c, r :: requests => c.serve r :: replies (c.serve r).console requests

def asked (c : Console) (requests : List Request) : List (Event Console Request) :=
  record (fun c r ↦ (c.serve r).console) c requests

theorem cues_replies (c : Console) (requests : List Request) :
    (c.replies requests).flatMap Reply.cues = (c.history requests).flatMap cues := by
  induction requests generalizing c with
  | nil => rfl
  | cons r requests ih =>
    obtain ⟨hc, hr⟩ := serve_eq_moves c r
    have hi := ih (c.serve r).console
    rw [history, hc] at hi
    rw [history, allMoves, replies, record_append, List.flatMap_cons, List.flatMap_append, hr, hc,
      hi]

/-- Consoles that are alike reply alike for as long as what they are asked is allowed. -/
theorem forall₂_replies {Alike : Console → Console → Prop}
    {Same : Reply Answer → Reply Answer → Prop} {Allowed : Event Console Request → Prop}
    (hstep : ∀ c d r, Alike c d → Allowed ⟨c, r⟩ →
      Same (c.serve r) (d.serve r) ∧ Alike (c.serve r).console (d.serve r).console)
    {c d : Console} (h : Alike c d) {requests : List Request}
    (ha : ∀ e ∈ c.asked requests, Allowed e) :
    List.Forall₂ Same (c.replies requests) (d.replies requests) := by
  induction requests generalizing c d with
  | nil => exact .nil
  | cons r requests ih =>
    obtain ⟨hfirst, hrest⟩ := List.forall_mem_cons.1 ha
    obtain ⟨hsame, hnext⟩ := hstep c d r h hfirst
    exact .cons hsame (ih hnext hrest)

end Phosphor.Console
