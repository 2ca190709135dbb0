import Mathlib.Tactic.Common

-- Programs that call on their surroundings. A program is a tree of calls; what happens next depends
-- on the answer, and so every way a call can be answered is a branch of the tree.

namespace Async

structure Signature where
  Call   : Type
  Answer : Call → Type

inductive Program (S : Signature) (ε α : Type)
  | done (a : α)
  | fail (e : ε)
  | call (c : S.Call) (k : S.Answer c → Program S ε α)

namespace Program

variable {S : Signature} {ε α β γ : Type}

def bind : Program S ε α → (α → Program S ε β) → Program S ε β
  | done a,   f => f a
  | fail e,   _ => fail e
  | call c k, f => call c fun a => (k a).bind f

instance : Monad (Program S ε) where
  pure := done
  bind := bind

-- A program which makes the single call `c` and returns its answer.
def ask (c : S.Call) : Program S ε (S.Answer c) :=
  call c done

-- The value of an `Option`, where `none` fails with `e`.
def get (o : Option α) (e : ε) : Program S ε α :=
  match o with
  | some a => done a
  | none   => fail e

@[simp]
theorem pure_eq (a : α) : (pure a : Program S ε α) = done a :=
  rfl

@[simp]
theorem map_eq (f : α → β) (p : Program S ε α) : f <$> p = p >>= fun a => done (f a) :=
  rfl

@[simp]
theorem done_bind (a : α) (f : α → Program S ε β) : done a >>= f = f a :=
  rfl

@[simp]
theorem fail_bind (e : ε) (f : α → Program S ε β) : fail e >>= f = fail e :=
  rfl

@[simp]
theorem call_bind (c : S.Call) (k : S.Answer c → Program S ε α) (f : α → Program S ε β) :
    call c k >>= f = call c fun a => k a >>= f :=
  rfl

@[simp]
theorem ask_bind (c : S.Call) (f : S.Answer c → Program S ε β) : ask c >>= f = call c f :=
  rfl

@[simp]
theorem get_some_bind (a : α) (e : ε) (f : α → Program S ε β) : get (some a) e >>= f = f a :=
  rfl

@[simp]
theorem get_none_bind (e : ε) (f : α → Program S ε β) : get none e >>= f = fail e :=
  rfl

theorem bind_assoc {p : Program S ε α} {f : α → Program S ε β} {g : β → Program S ε γ} :
    p >>= f >>= g = p >>= fun a => f a >>= g := by
  induction p with
  | done | fail => rfl
  | call c k hi => simp [hi]

-- All ways to answer the calls of the program lead to a result in `Q` or to a failure in `F`.
def Always (Q : α → Prop) (F : ε → Prop) : Program S ε α → Prop
  | done a   => Q a
  | fail e   => F e
  | call _ k => ∀ a, (k a).Always Q F

theorem always_bind {Q : β → Prop} {F : ε → Prop} {p : Program S ε α} {f : α → Program S ε β} :
    (p >>= f).Always Q F ↔ p.Always (fun a => (f a).Always Q F) F := by
  induction p with
  | done | fail => rfl
  | call c k hi => simp [Always, hi]

theorem Always.mono {Q Q' : α → Prop} {F F' : ε → Prop} {p : Program S ε α}
    (h : p.Always Q F) (hQ : ∀ a, Q a → Q' a) (hF : ∀ e, F e → F' e) : p.Always Q' F' := by
  induction p with
  | done a      => exact hQ a h
  | fail e      => exact hF e h
  | call c k hi => exact fun a => hi a (h a)

theorem Always.and {Q Q' : α → Prop} {F F' : ε → Prop} {p : Program S ε α}
    (h : p.Always Q F) (h' : p.Always Q' F') :
    p.Always (fun a => Q a ∧ Q' a) fun e => F e ∧ F' e := by
  induction p with
  | done | fail => exact ⟨h, h'⟩
  | call c k hi => exact fun a => hi a (h a) (h' a)

theorem Always.of_get {Q : β → Prop} {F : ε → Prop} {o : Option α} {e : ε} {f : α → Program S ε β}
    (hn : o = none → F e) (hs : ∀ a, o = some a → (f a).Always Q F) :
    (get o e >>= f).Always Q F := by
  cases o with
  | none   => exact hn rfl
  | some a => exact hs a rfl

theorem always_true {p : Program S ε α} : p.Always (fun _ => True) fun _ => True := by
  induction p with
  | done | fail => trivial
  | call _ _ hi => exact hi

-- Wherever the program makes a call, `R` holds of the call and of how the program goes on after it.
def Asks (R : (c : S.Call) → (S.Answer c → Program S ε α) → Prop) : Program S ε α → Prop
  | done _   => True
  | fail _   => True
  | call c k => R c k ∧ ∀ a, (k a).Asks R

theorem Asks.bind {R : (c : S.Call) → (S.Answer c → Program S ε α) → Prop}
    {R' : (c : S.Call) → (S.Answer c → Program S ε β) → Prop} {Q : α → Prop} {F : ε → Prop}
    {p : Program S ε α} {f : α → Program S ε β} (hp : p.Asks R) (hq : p.Always Q F)
    (hR : ∀ c k, R c k → R' c fun a => k a >>= f) (hf : ∀ a, Q a → (f a).Asks R') :
    (p >>= f).Asks R' := by
  induction p with
  | done a      => exact hf a hq
  | fail        => trivial
  | call c k hi => exact ⟨hR c k hp.left, fun a => hi a (hp.right a) (hq a)⟩

theorem Asks.of_get {R : (c : S.Call) → (S.Answer c → Program S ε β) → Prop} {o : Option α} {e : ε}
    {f : α → Program S ε β} (h : ∀ a, o = some a → (f a).Asks R) : (get o e >>= f).Asks R := by
  cases o with
  | none   => trivial
  | some a => exact h a rfl

-- The program makes only calls in `C` and fails only as in `F`.
def Within (C : S.Call → Prop) (F : ε → Prop) : Program S ε α → Prop
  | done _   => True
  | fail e   => F e
  | call c k => C c ∧ ∀ a, (k a).Within C F

theorem Within.mono {C C' : S.Call → Prop} {F : ε → Prop} {p : Program S ε α}
    (h : p.Within C F) (hC : ∀ c, C c → C' c) : p.Within C' F := by
  induction p with
  | done | fail => exact h
  | call c k hi => exact ⟨hC c h.left, fun a => hi a <| h.right a⟩

theorem Within.bind {C : S.Call → Prop} {F : ε → Prop} {p : Program S ε α}
    {f : α → Program S ε β} (hp : p.Within C F) (hf : ∀ a, (f a).Within C F) :
    (p >>= f).Within C F := by
  induction p with
  | done a      => exact hf a
  | fail        => exact hp
  | call c k hi => exact ⟨hp.left, fun a => hi a <| hp.right a⟩

theorem Within.of_get {C : S.Call → Prop} {F : ε → Prop} {o : Option α} {e : ε}
    {f : α → Program S ε β} (he : F e) (hf : ∀ a, (f a).Within C F) :
    (get o e >>= f).Within C F := by
  cases o with
  | none   => exact he
  | some a => exact hf a

theorem bind_done {p : Program S ε α} : p >>= done = p := by
  induction p with
  | done | fail => rfl
  | call c k hi => exact congrArg (call c) <| funext hi

end Program
end Async
