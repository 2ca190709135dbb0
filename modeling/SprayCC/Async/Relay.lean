import Mathlib.Logic.Basic

-- Two parties of a session and the messages between them: one party is `ahead`, the other still
-- has the `view` of the session from before the messages which are in `flight`.

namespace Async

variable {σ μ : Type}

inductive Follows (step : σ → μ → σ → Prop) : σ → List μ → σ → Prop
  | nil  : Follows step view [] view
  | cons : step view m view' → Follows step view' flight ahead →
      Follows step view (m :: flight) ahead

namespace Follows

variable {step : σ → μ → σ → Prop} {view ahead ahead' : σ} {m : μ} {flight ms : List μ}

@[simp]
theorem nil_iff : Follows step view [] ahead ↔ view = ahead where
  mp h  := by cases h; rfl
  mpr h := h ▸ .nil

theorem single (h : step view m ahead) : Follows step view [m] ahead :=
  .cons h .nil

-- The party which is ahead says more.
theorem append (h : Follows step view flight ahead) (h' : Follows step ahead ms ahead') :
    Follows step view (flight ++ ms) ahead' := by
  induction h with
  | nil         => exact h'
  | cons s _ hi => exact .cons s <| hi h'

-- The other party hears the oldest message.
theorem hear (h : Follows step view (m :: flight) ahead) :
    ∃ view', step view m view' ∧ Follows step view' flight ahead := by
  cases h with | cons s h => exact ⟨_, s, h⟩

-- What has become true of the session has become so with one of the messages in flight.
theorem exists_turn {P : σ → Prop} (h : Follows step view flight ahead) (hv : ¬P view)
    (ha : P ahead) :
    ∃ m ∈ flight, ∃ s s', step s m s' ∧ ¬P s ∧ P s' := by
  induction h with
  | nil => exact absurd ha hv
  | @cons view m view' _ _ s _ hi =>
    by_cases hv' : P view'
    case pos => exact ⟨m, .head _, view, view', s, hv, hv'⟩
    case neg => exact have ⟨m, hm, h⟩ := hi hv' ha; ⟨m, .tail _ hm, h⟩

end Follows
end Async
