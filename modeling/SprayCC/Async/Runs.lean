import Mathlib.Logic.Basic

-- The runs of a system whose steps are given by a function on labels.

namespace Async

variable {σ ℓ : Type}

-- `P` holds of all states on the way.
def Throughout (step : σ → ℓ → Option σ) (P : σ → Prop) : List ℓ → σ → Prop
  | [],      s => P s
  | l :: ls, s => P s ∧ ∀ s', step s l = some s' → Throughout step P ls s'

-- All steps on the way are taken in states in which they are allowed by `Q`.
def Along (step : σ → ℓ → Option σ) (Q : σ → ℓ → Prop) : List ℓ → σ → Prop
  | [],      _ => True
  | l :: ls, s => ∀ s', step s l = some s' → Q s l ∧ Along step Q ls s'

variable {step : σ → ℓ → Option σ} {P I : σ → Prop} {Q : σ → ℓ → Prop} {s : σ} {ls : List ℓ}

theorem Throughout.head (h : Throughout step P ls s) : P s := by
  cases ls
  case nil  => exact h
  case cons => exact h.left

theorem Throughout.last {s' : σ} (h : Throughout step P ls s) (hr : ls.foldlM step s = some s') :
    P s' := by
  induction ls generalizing s with
  | nil          => exact Option.some.inj hr ▸ h
  | cons l ls hi =>
    have ⟨_, hl, hr⟩ := Option.bind_eq_some_iff.mp hr
    exact hi (h.right _ hl) hr

-- If `Q` tells whether a step of a state with `I` leads to `P`, and keeps `I` then, it tells so of
-- whole runs.
theorem throughout_iff_along_of (hp : ∀ {s}, I s → P s)
    (hq : ∀ {s l s'}, I s → step s l = some s' → (P s' ↔ Q s l))
    (hi : ∀ {s l s'}, I s → step s l = some s' → Q s l → I s') (hs : I s) :
    Throughout step P ls s ↔ Along step Q ls s := by
  induction ls generalizing s with
  | nil         => exact iff_of_true (hp hs) trivial
  | cons l ls ih =>
    constructor
    case mp  =>
      intro ht s' hl
      have ht := ht.right s' hl
      have hq := (hq hs hl).mp ht.head
      exact ⟨hq, (ih <| hi hs hl hq).mp ht⟩
    case mpr =>
      refine fun ha => ⟨hp hs, fun s' hl => ?_⟩
      have ⟨hq, ha⟩ := ha s' hl
      exact (ih <| hi hs hl hq).mpr ha

-- If `Q` tells whether a step keeps `P`, it tells so of whole runs.
theorem throughout_iff_along (h : ∀ {s l s'}, P s → step s l = some s' → (P s' ↔ Q s l))
    (hs : P s) :
    Throughout step P ls s ↔ Along step Q ls s :=
  throughout_iff_along_of id h (fun hs hl => (h hs hl).mpr) hs

end Async
