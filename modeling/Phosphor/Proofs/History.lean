import Mathlib.Data.List.DropRight

namespace Phosphor

/-- An action, with the state it is taken in. -/
structure Event (σ α : Type) where
  before : σ
  action : α

namespace History

variable {σ α β : Type} {next : σ → α → σ}

def record (next : σ → α → σ) : σ → List α → List (Event σ α)
  | _, [] => []
  | s, a :: actions => ⟨s, a⟩ :: record next (next s a) actions

theorem record_append (s : σ) (first second : List α) :
    record next s (first ++ second) =
      record next s first ++ record next (first.foldl next s) second := by
  induction first generalizing s with
  | nil => rfl
  | cons a first ih => simp only [List.cons_append, record, List.foldl_cons, ih]

theorem record_snoc (s : σ) (actions : List α) (a : α) :
    record next s (actions ++ [a]) =
      record next s actions ++ [⟨actions.foldl next s, a⟩] := by
  rw [record_append]
  rfl

theorem map_action_record (s : σ) (actions : List α) :
    (record next s actions).map Event.action = actions := by
  induction actions generalizing s with
  | nil => rfl
  | cons a actions ih => simp only [record, List.map_cons, ih]

theorem exists_mem_record_iff {s : σ} {actions : List α} {a : α} :
    (∃ e ∈ record next s actions, e.action = a) ↔ a ∈ actions := by
  rw [← List.mem_map, map_action_record]

/-- Cutting a history at an event cuts the run at its action. -/
theorem record_eq_append_cons {s : σ} {actions : List α} {past future : List (Event σ α)}
    {e : Event σ α} (h : record next s actions = past ++ e :: future) :
    ∃ before after, actions = before ++ e.action :: after ∧ past = record next s before ∧
      e.before = before.foldl next s ∧ future = record next (next e.before e.action) after := by
  induction actions generalizing s past with
  | nil => simp [record] at h
  | cons a actions ih =>
    cases past with
    | nil =>
      simp only [record, List.nil_append, List.cons.injEq] at h
      obtain ⟨rfl, rfl⟩ := h
      exact ⟨[], actions, rfl, rfl, rfl, rfl⟩
    | cons d past =>
      simp only [record, List.cons_append, List.cons.injEq] at h
      obtain ⟨rfl, h⟩ := h
      obtain ⟨before, after, rfl, rfl, hs, hf⟩ := ih h
      exact ⟨a :: before, after, rfl, rfl, hs, hf⟩

/-- What holds at the start of a run and outlasts every action holds of the whole run. -/
theorem run_induction {motive : List α → σ → List (Event σ α) → Prop} {s : σ}
    (start : motive [] s [])
    (step : ∀ actions t events a, motive actions t events →
      motive (actions ++ [a]) (next t a) (events ++ [⟨t, a⟩])) (actions : List α) :
    motive actions (actions.foldl next s) (record next s actions) := by
  induction actions using List.reverseRecOn with
  | nil => exact start
  | append_singleton actions a ih =>
    rw [List.foldl_concat, record_snoc]
    exact step actions _ _ a ih

/-- Some event is a cause, and no event after it is an end. -/
def Lingers (cause ends : β → Prop) (events : List β) : Prop :=
  ∃ past e future, events = past ++ e :: future ∧ cause e ∧ ∀ d ∈ future, ¬ ends d

variable {cause ends : β → Prop}

theorem not_lingers_nil : ¬ Lingers cause ends [] := by
  rintro ⟨past, e, future, h, -⟩
  simp at h

theorem lingers_snoc {events : List β} {e : β} :
    Lingers cause ends (events ++ [e]) ↔ cause e ∨ (Lingers cause ends events ∧ ¬ ends e) := by
  constructor
  · rintro ⟨past, d, future, h, hc, hf⟩
    rcases List.eq_nil_or_concat' future with rfl | ⟨rest, last, rfl⟩
    · have he := List.append_inj_right' h rfl
      simp only [List.cons.injEq, and_true] at he
      exact .inl (he ▸ hc)
    · rw [← List.cons_append, ← List.append_assoc] at h
      have he := List.append_inj_right' h rfl
      simp only [List.cons.injEq, and_true] at he
      refine .inr ⟨⟨past, d, rest, List.append_inj_left' h rfl, hc, fun b hb ↦ ?_⟩, ?_⟩
      · exact hf b (List.mem_append_left _ hb)
      · exact he ▸ hf last (by simp)
  · rintro (hc | ⟨⟨past, d, future, rfl, hc, hf⟩, he⟩)
    · exact ⟨events, e, [], rfl, hc, by simp⟩
    · refine ⟨past, d, future ++ [e], by simp, hc, fun b hb ↦ ?_⟩
      rcases List.mem_append.1 hb with hb | hb
      · exact hf b hb
      · rw [List.mem_singleton.1 hb]
        exact he

def countSince (ends counts : β → Bool) (events : List β) : Nat :=
  (events.rtakeWhile fun e ↦ !ends e).countP counts

theorem countSince_snoc (ends counts : β → Bool) (events : List β) (e : β) :
    countSince ends counts (events ++ [e]) =
      if ends e then 0 else countSince ends counts events + if counts e then 1 else 0 := by
  unfold countSince
  rw [List.rtakeWhile_concat]
  cases ends e <;> simp [List.countP_append, List.countP_cons]

end History

end Phosphor
