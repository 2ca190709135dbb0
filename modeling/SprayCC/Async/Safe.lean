import Mathlib.Logic.Relation
import SprayCC.Async.Program

open Relation

namespace Async

-- The surroundings of a program. They move on their own while the program waits for an answer, and
-- giving an answer may change them as well.
structure World (S : Signature) (ω : Type) where
  moves   : ω → ω → Prop
  answers : ω → (c : S.Call) → S.Answer c → ω → Prop

namespace World

variable {S : Signature} {ω : Type}

def Stable (W : World S ω) (J : ω → Prop) : Prop :=
  ∀ {w₁ w₂}, J w₁ → W.moves w₁ w₂ → J w₂

theorem Stable.many {W : World S ω} {J : ω → Prop} {w₁ w₂ : ω} (hJ : W.Stable J)
    (h : ReflTransGen W.moves w₁ w₂) (hw : J w₁) : J w₂ := by
  induction h with
  | refl         => exact hw
  | tail _ m hi  => exact hJ hi m

end World

namespace Program

variable {S : Signature} {ω ε α β : Type} {W : World S ω}
variable {I : ω → Prop} {Q : α → ω → Prop} {F : ε → ω → Prop}

-- However the world moves while the program runs, `I` holds of it whenever the program waits, a
-- result satisfies `Q` and a failure `F`.
def Safe (W : World S ω) (I : ω → Prop) (Q : α → ω → Prop) (F : ε → ω → Prop) :
    Program S ε α → ω → Prop
  | done a,   w => Q a w
  | fail e,   w => F e w
  | call c k, w =>
    ∀ w₁, ReflTransGen W.moves w w₁ →
      I w₁ ∧ ∀ a w₂, W.answers w₁ c a w₂ → Safe W I Q F (k a) w₂

namespace Safe

theorem waiting {c : S.Call} {k : S.Answer c → Program S ε α} {w : ω}
    (h : Safe W I Q F (call c k) w) : I w :=
  (h w .refl).left

theorem answered {c : S.Call} {k : S.Answer c → Program S ε α} {w₁ w₂ : ω} {a : S.Answer c}
    (h : Safe W I Q F (call c k) w₁) (ha : W.answers w₁ c a w₂) : Safe W I Q F (k a) w₂ :=
  (h w₁ .refl).right a w₂ ha

theorem moved {p : Program S ε α} {w₁ w₂ : ω} (hQ : ∀ a, W.Stable (Q a)) (hF : ∀ e, W.Stable (F e))
    (h : Safe W I Q F p w₁) (m : W.moves w₁ w₂) : Safe W I Q F p w₂ := by
  cases p with
  | done a   => exact hQ a h m
  | fail e   => exact hF e h m
  | call c k => exact fun w hw => h w <| .head m hw

-- The rule for a call: an assertion about the world that its moves preserve may be used at the
-- moment the call is answered.
theorem of_call {J : ω → Prop} {c : S.Call} {k : S.Answer c → Program S ε α} {w : ω}
    (hJ : W.Stable J) (hw : J w) (hI : ∀ w, J w → I w)
    (h : ∀ {w₁ a w₂}, J w₁ → W.answers w₁ c a w₂ → Safe W I Q F (k a) w₂) :
    Safe W I Q F (call c k) w :=
  fun w₁ hm => ⟨hI w₁ <| hJ.many hm hw, fun _ _ => h <| hJ.many hm hw⟩

theorem bind {p : Program S ε β} {f : β → Program S ε α} {w : ω}
    (h : Safe W I (fun b w => Safe W I Q F (f b) w) F p w) : Safe W I Q F (p >>= f) w := by
  induction p generalizing w with
  | done | fail => exact h
  | call c k hi => exact fun w₁ hm =>
      ⟨(h w₁ hm).left, fun a w₂ ha => hi a <| (h w₁ hm).right a w₂ ha⟩

theorem mono {Q' : α → ω → Prop} {p : Program S ε α} {w : ω}
    (h : Safe W I Q F p w) (hQ : ∀ a w, Q a w → Q' a w) : Safe W I Q' F p w := by
  induction p generalizing w with
  | done a      => exact hQ a w h
  | fail        => exact h
  | call c k hi => exact fun w₁ hm =>
      ⟨(h w₁ hm).left, fun a w₂ ha => hi a <| (h w₁ hm).right a w₂ ha⟩

-- `get` is safe if a missing value is a failure that `F` explains.
theorem of_get {o : Option β} {e : ε} {f : β → Program S ε α} {w : ω}
    (hn : o = none → F e w) (hs : ∀ b, o = some b → Safe W I Q F (f b) w) :
    Safe W I Q F (get o e >>= f) w := by
  cases o with
  | none   => exact hn rfl
  | some b => exact hs b rfl

theorem weaken {I' : ω → Prop} {F' : ε → ω → Prop} {p : Program S ε α} {w : ω}
    (h : Safe W I Q F p w) (hI : ∀ w, I w → I' w) (hF : ∀ e w, F e w → F' e w) :
    Safe W I' Q F' p w := by
  induction p generalizing w with
  | done         => exact h
  | fail e       => exact hF e w h
  | call c k hi  => exact fun w₁ hm =>
      ⟨hI w₁ (h w₁ hm).left, fun a w₂ ha => hi a <| (h w₁ hm).right a w₂ ha⟩

end Safe
end Program
end Async
