import Mathlib.Logic.Equiv.Defs
import SprayCC.Async.Trace

-- Runs which have not come to their end yet, and programs whose calls are among those of a larger
-- signature.

namespace Async.Program

variable {S T : Signature} {ε ε' α β : Type}

-- What is left of a program after some of its calls have been answered.
inductive After : Program S ε α → Trace S → Program S ε α → Prop
  | refl : After p [] p
  | call {c : S.Call} {k : S.Answer c → Program S ε α} {a : S.Answer c} :
    After (k a) tr p → After (call c k) (⟨c, a⟩ :: tr) p

namespace After

variable {p p' q : Program S ε α} {f : α → Program S ε β} {tr tr' : Trace S} {a : α} {e : ε}

theorem done_iff : (done a : Program S ε α).After tr p ↔ tr = [] ∧ p = done a where
  mp h  := by cases h; exact ⟨rfl, rfl⟩
  mpr h := h.left ▸ h.right ▸ .refl

theorem fail_iff : (fail e : Program S ε α).After tr p ↔ tr = [] ∧ p = fail e where
  mp h  := by cases h; exact ⟨rfl, rfl⟩
  mpr h := h.left ▸ h.right ▸ .refl

theorem of_call {c : S.Call} {k : S.Answer c → Program S ε α}
    (h : (Program.call c k).After tr p) :
    tr = [] ∧ p = Program.call c k ∨ ∃ a tr', tr = ⟨c, a⟩ :: tr' ∧ (k a).After tr' p := by
  cases h
  case refl   => exact .inl ⟨rfl, rfl⟩
  case call h => exact .inr ⟨_, _, rfl, h⟩

theorem append (h : p.After tr p') (h' : p'.After tr' q) : p.After (tr ++ tr') q := by
  induction h with
  | refl      => exact h'
  | call _ hi => exact .call (hi h')

-- One more call is answered.
theorem answer {c : S.Call} {k : S.Answer c → Program S ε α}
    (h : p.After tr (Program.call c k)) (a : S.Answer c) : p.After (tr ++ [⟨c, a⟩]) (k a) :=
  h.append (.call .refl)

-- A program which has come to its end has been run.
theorem runs {r : Except ε α} (h : p.After tr q) (hr : q.Runs [] r) : p.Runs tr r := by
  induction h with
  | refl      => exact hr
  | call _ hi => exact .call (hi hr)

theorem runs_ok_iff : p.Runs tr (.ok a) ↔ p.After tr (done a) := by
  constructor
  case mp =>
    generalize hr : Except.ok a = r
    intro h
    induction h with
    | done      => cases hr; exact .refl
    | fail      => cases hr
    | call _ hi => exact .call (hi hr)
  case mpr => exact fun h => h.runs .done

theorem runs_error_iff {e : ε} : p.Runs tr (.error e) ↔ p.After tr (fail e) := by
  constructor
  case mp =>
    generalize hr : Except.error e = r
    intro h
    induction h with
    | done      => cases hr
    | fail      => cases hr; exact .refl
    | call _ hi => exact .call (hi hr)
  case mpr => exact fun h => h.runs .fail

-- A program in two parts is still in the first one, or it has come through to the second one.
theorem of_bind {q : Program S ε β} (h : (p >>= f).After tr q) :
    (∃ p', p.After tr p' ∧ q = p' >>= f) ∨
      ∃ a tr₁ tr₂, tr = tr₁ ++ tr₂ ∧ p.After tr₁ (done a) ∧ (f a).After tr₂ q := by
  induction p generalizing tr with
  | done a      => exact .inr ⟨a, [], tr, rfl, .refl, h⟩
  | fail e      =>
    have ⟨ht, hq⟩ := fail_iff.mp h
    exact .inl ⟨fail e, ht ▸ .refl, hq⟩
  | call c k hi =>
    rcases of_call h with ⟨rfl, rfl⟩ | ⟨a, tr', rfl, h'⟩
    case inl => exact .inl ⟨Program.call c k, .refl, rfl⟩
    case inr =>
      rcases hi a h' with ⟨p', hp, rfl⟩ | ⟨b, tr₁, tr₂, rfl, h₁, h₂⟩
      case inl => exact .inl ⟨p', .call hp, rfl⟩
      case inr => exact .inr ⟨b, ⟨c, a⟩ :: tr₁, tr₂, rfl, .call h₁, h₂⟩

-- A call at which a program in two parts waits is one of the first part, or one of the second.
theorem call_of_bind {c : S.Call} {k : S.Answer c → Program S ε β}
    (h : (p >>= f).After tr (Program.call c k)) :
    (∃ k', p.After tr (Program.call c k')) ∨
      ∃ a tr₁ tr₂, tr = tr₁ ++ tr₂ ∧ p.After tr₁ (done a) ∧ (f a).After tr₂ (Program.call c k) := by
  rcases h.of_bind with ⟨p', hp, hq⟩ | h
  case inr => exact .inr h
  case inl =>
    cases p' with
    | done a     => exact .inr ⟨a, tr, [], (List.append_nil tr).symm, hp, hq ▸ .refl⟩
    | fail       => cases hq
    | call c' k' => cases hq; exact .inl ⟨k', hp⟩

theorem of_get {o : Option β} {f : β → Program S ε α} (h : (get o e >>= f).After tr q) :
    o = none ∧ tr = [] ∧ q = fail e ∨ ∃ b, o = some b ∧ (f b).After tr q := by
  cases o with
  | none   => exact .inl ⟨rfl, fail_iff.mp h⟩
  | some b => exact .inr ⟨b, rfl, h⟩

end After

theorem Within.weaken {C : S.Call → Prop} {F F' : ε → Prop} {p : Program S ε α}
    (h : p.Within C F) (hF : ∀ e, F e → F' e) : p.Within C F' := by
  induction p with
  | done        => trivial
  | fail e      => exact hF e h
  | call _ _ hi => exact ⟨h.left, fun a => hi a <| h.right a⟩

theorem Within.after {C : S.Call → Prop} {F : ε → Prop} {p q : Program S ε α} {tr : Trace S}
    (hp : p.Within C F) (h : p.After tr q) : (∀ x ∈ tr, C x.fst) ∧ q.Within C F := by
  induction h with
  | refl      => exact ⟨nofun, hp⟩
  | call _ hi =>
    have ⟨hc, hq⟩ := hi <| hp.right _
    exact ⟨List.forall_mem_cons.mpr ⟨hp.left, hc⟩, hq⟩

-- Where the answer to a call is not in `A`, the program fails.
def Accepts (A : (c : S.Call) → S.Answer c → Prop) : Program S ε α → Prop
  | done _   => True
  | fail _   => True
  | call c k => ∀ a, (A c a ∨ ∃ e, k a = fail e) ∧ (k a).Accepts A

section Accepts

variable {A : (c : S.Call) → S.Answer c → Prop} {p : Program S ε α} {f : α → Program S ε β}

theorem Accepts.bind (hp : p.Accepts A) (hf : ∀ a, (f a).Accepts A) : (p >>= f).Accepts A := by
  induction p with
  | done a      => exact hf a
  | fail        => trivial
  | call c k hi =>
    intro a
    have ⟨ha, hk⟩ := hp a
    exact ⟨ha.imp_right fun ⟨e, he⟩ => ⟨e, congrArg (· >>= f) he⟩, hi a hk⟩

theorem Accepts.of_get {o : Option β} {e : ε} {f : β → Program S ε α}
    (h : ∀ b, o = some b → (f b).Accepts A) : (get o e >>= f).Accepts A := by
  cases o with
  | none   => trivial
  | some b => exact h b rfl

theorem Accepts.ask {c : S.Call} (h : ∀ a, A c a) : (ask c : Program S ε _).Accepts A :=
  fun a => ⟨.inl (h a), trivial⟩

-- A run which returns has only been given answers in `A`.
theorem Accepts.runs {tr : Trace S} {a : α} (hp : p.Accepts A) (h : p.Runs tr (.ok a)) :
    ∀ x ∈ tr, A x.fst x.snd := by
  induction p generalizing tr with
  | done        => exact (Runs.done_iff.mp h).left ▸ nofun
  | fail        => cases (Runs.fail_iff.mp h).right
  | call c k hi =>
    obtain ⟨b, tr, rfl, hr⟩ := Runs.call_iff.mp h
    have ⟨hb, hk⟩ := hp b
    refine List.forall_mem_cons.mpr ⟨hb.resolve_right fun ⟨e, he⟩ => ?_, hi b hk hr⟩
    rw [he] at hr
    cases (Runs.fail_iff.mp hr).right

end Accepts

end Program

-- The calls of one signature as calls of another one.
structure Embedding (S T : Signature) where
  call   : S.Call → T.Call
  answer : ∀ c, T.Answer (call c) ≃ S.Answer c

namespace Embedding

variable {S T : Signature} (ι : Embedding S T)

def trace (tr : Trace S) : Trace T :=
  tr.map fun ⟨c, a⟩ => ⟨ι.call c, (ι.answer c).symm a⟩

@[simp]
theorem trace_nil : ι.trace [] = [] :=
  rfl

@[simp]
theorem trace_cons {c : S.Call} {a : S.Answer c} {tr : Trace S} :
    ι.trace (⟨c, a⟩ :: tr) = ⟨ι.call c, (ι.answer c).symm a⟩ :: ι.trace tr :=
  rfl

end Embedding

namespace Program

variable {S T : Signature} {ε ε' α β : Type} (ι : Embedding S T) (g : ε → ε')

def lift : Program S ε α → Program T ε' α
  | done a   => done a
  | fail e   => fail (g e)
  | call c k => call (ι.call c) fun a => (k (ι.answer c a)).lift

variable {ι g} {p : Program S ε α}

-- What is left of a lifted program is what is left of the program itself.
theorem After.of_lift {tr : Trace T} {q : Program T ε' α} (h : (p.lift ι g).After tr q) :
    ∃ tr' p', p.After tr' p' ∧ tr = ι.trace tr' ∧ q = p'.lift ι g := by
  induction p generalizing tr with
  | done a      =>
    have ⟨ht, hq⟩ := After.done_iff.mp h
    exact ⟨[], done a, .refl, ht, hq⟩
  | fail e      =>
    have ⟨ht, hq⟩ := After.fail_iff.mp h
    exact ⟨[], fail e, .refl, ht, hq⟩
  | call c k hi =>
    rcases After.of_call h with ⟨rfl, rfl⟩ | ⟨a, tr', rfl, h'⟩
    case inl => exact ⟨[], Program.call c k, .refl, rfl, rfl⟩
    case inr =>
      have ⟨tr₁, p', hp, ht, hq⟩ := hi _ h'
      refine ⟨⟨c, ι.answer c a⟩ :: tr₁, p', .call hp, ?_, hq⟩
      rw [ι.trace_cons, Equiv.symm_apply_apply, ht]

theorem After.call_of_lift {tr : Trace T} {c : T.Call} {k : T.Answer c → Program T ε' α}
    (h : (p.lift ι g).After tr (Program.call c k)) : ∃ c', c = ι.call c' := by
  have ⟨_, p', _, _, hq⟩ := h.of_lift
  cases p' <;> cases hq
  exact ⟨_, rfl⟩

theorem lift_within {C : T.Call → Prop} {E : ε' → Prop} (h : ∀ c, C (ι.call c))
    (hg : ∀ e, E (g e)) : (p.lift ι g).Within C E := by
  induction p with
  | done        => trivial
  | fail e      => exact hg e
  | call c _ hi => exact ⟨h c, fun _ => hi _⟩

theorem Accepts.lift {A : (c : S.Call) → S.Answer c → Prop} {B : (c : T.Call) → T.Answer c → Prop}
    (hp : p.Accepts A) (h : ∀ c b, A c (ι.answer c b) → B (ι.call c) b) :
    (p.lift ι g).Accepts B := by
  induction p with
  | done | fail => trivial
  | call c k hi =>
    intro b
    have ⟨ha, hk⟩ := hp (ι.answer c b)
    exact ⟨ha.imp (h c b) fun ⟨e, he⟩ => ⟨g e, congrArg (·.lift ι g) he⟩, hi _ hk⟩

theorem Runs.of_lift {tr : Trace T} {r : Except ε' α} (h : (p.lift ι g).Runs tr r) :
    ∃ tr' r', p.Runs tr' r' ∧ tr = ι.trace tr' ∧ r = r'.mapError g := by
  induction p generalizing tr with
  | done a      =>
    have ⟨ht, hr⟩ := Runs.done_iff.mp h
    exact ⟨[], .ok a, .done, ht, hr⟩
  | fail e      =>
    have ⟨ht, hr⟩ := Runs.fail_iff.mp h
    exact ⟨[], .error e, .fail, ht, hr⟩
  | call c k hi =>
    obtain ⟨a, tr', rfl, hk⟩ := Runs.call_iff.mp h
    have ⟨tr₁, r', hr, ht, he⟩ := hi _ hk
    refine ⟨⟨c, ι.answer c a⟩ :: tr₁, r', .call hr, ?_, he⟩
    rw [ι.trace_cons, Equiv.symm_apply_apply, ht]

theorem Runs.ok_of_lift {tr : Trace T} {a : α} (h : (p.lift ι g).Runs tr (.ok a)) :
    ∃ tr', p.Runs tr' (.ok a) ∧ tr = ι.trace tr' := by
  have ⟨tr', r', hr, ht, he⟩ := h.of_lift
  cases r' <;> cases he
  exact ⟨tr', hr, ht⟩

end Program
end Async
