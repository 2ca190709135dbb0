import SprayCC.Async.Program

-- The single runs of a program, with the calls it makes and the answers it is given.

namespace Async

abbrev Trace (S : Signature) := List (Σ c : S.Call, S.Answer c)

namespace Program

variable {S : Signature} {ε α β : Type}

inductive Runs : Program S ε α → Trace S → Except ε α → Prop
  | done : Runs (done a) [] (.ok a)
  | fail : Runs (fail e) [] (.error e)
  | call {c : S.Call} {k : S.Answer c → Program S ε α} {a : S.Answer c} :
    Runs (k a) tr r → Runs (call c k) (⟨c, a⟩ :: tr) r

namespace Runs

variable {p : Program S ε α} {f : α → Program S ε β} {tr : Trace S} {r : Except ε β}

theorem done_iff {a : β} : (Program.done a : Program S ε β).Runs tr r ↔ tr = [] ∧ r = .ok a where
  mp h := by cases h; exact ⟨rfl, rfl⟩
  mpr  := by rintro ⟨rfl, rfl⟩; exact .done

theorem fail_iff {e : ε} : (Program.fail e : Program S ε β).Runs tr r ↔ tr = [] ∧ r = .error e where
  mp h := by cases h; exact ⟨rfl, rfl⟩
  mpr  := by rintro ⟨rfl, rfl⟩; exact .fail

theorem call_iff {c : S.Call} {k : S.Answer c → Program S ε β} :
    (Program.call c k).Runs tr r ↔ ∃ a tr', tr = ⟨c, a⟩ :: tr' ∧ (k a).Runs tr' r where
  mp h := by cases h with | call h => exact ⟨_, _, rfl, h⟩
  mpr  := by rintro ⟨_, _, rfl, h⟩; exact .call h

-- A run of two programs, one after the other.
theorem bind_iff :
    (p >>= f).Runs tr r ↔
      (∃ e, p.Runs tr (.error e) ∧ r = .error e) ∨
        ∃ a tr₁ tr₂, tr = tr₁ ++ tr₂ ∧ p.Runs tr₁ (.ok a) ∧ (f a).Runs tr₂ r := by
  induction p generalizing tr with
  | done a      => simp [done_iff]
  | fail e      => simp [fail_iff]
  | call c k hi =>
    simp only [call_bind, call_iff, hi]
    constructor
    case mp =>
      rintro ⟨a, tr, rfl, ⟨e, h, rfl⟩ | ⟨b, tr₁, tr₂, rfl, h₁, h₂⟩⟩
      case inl => exact .inl ⟨e, ⟨a, tr, rfl, h⟩, rfl⟩
      case inr => exact .inr ⟨b, ⟨c, a⟩ :: tr₁, tr₂, rfl, ⟨a, tr₁, rfl, h₁⟩, h₂⟩
    case mpr =>
      rintro (⟨e, ⟨a, tr, rfl, h⟩, rfl⟩ | ⟨b, _, tr₂, rfl, ⟨a, tr₁, rfl, h₁⟩, h₂⟩)
      case inl => exact ⟨a, tr, rfl, .inl ⟨e, h, rfl⟩⟩
      case inr => exact ⟨a, tr₁ ++ tr₂, rfl, .inr ⟨b, tr₁, tr₂, rfl, h₁, h₂⟩⟩

theorem get_cases {o : Option α} {e : ε} (h : (get o e >>= f).Runs tr r) :
    tr = [] ∧ r = .error e ∨ ∃ a, o = some a ∧ (f a).Runs tr r := by
  cases o with
  | none   => exact .inl <| fail_iff.mp h
  | some a => exact .inr ⟨a, rfl, h⟩

-- A run past a value which may be missing.
theorem of_get {o : Option α} {e : ε} {b : β} (h : (get o e >>= f).Runs tr (.ok b)) :
    ∃ a, o = some a ∧ (f a).Runs tr (.ok b) := by
  cases o with
  | none   => cases (fail_iff.mp h).right
  | some a => exact ⟨a, rfl, h⟩

theorem of_bind {b : β} (h : (p >>= f).Runs tr (.ok b)) :
    ∃ a tr₁ tr₂, tr = tr₁ ++ tr₂ ∧ p.Runs tr₁ (.ok a) ∧ (f a).Runs tr₂ (.ok b) := by
  rcases bind_iff.mp h with ⟨_, _, he⟩ | h
  case inl => cases he
  case inr => exact h

end Runs

theorem Always.of_runs {Q : α → Prop} {p : Program S ε α}
    (h : ∀ {tr a}, p.Runs tr (.ok a) → Q a) : p.Always Q fun _ => True := by
  induction p with
  | done a      => exact h .done
  | fail        => trivial
  | call c k hi => exact fun a => hi a fun hr => h <| .call hr

theorem Always.runs {Q : α → Prop} {F : ε → Prop} {p : Program S ε α} {tr : Trace S} {a : α}
    (hp : p.Always Q F) (h : p.Runs tr (.ok a)) : Q a := by
  generalize hr : Except.ok a = r at h
  induction h with
  | done      => cases hr; exact hp
  | fail      => cases hr
  | call _ hi => exact hi (hp _) hr

theorem Within.runs {C : S.Call → Prop} {F : ε → Prop} {p : Program S ε α} {tr : Trace S}
    {r : Except ε α} (hp : p.Within C F) (h : p.Runs tr r) :
    (∀ x ∈ tr, C x.fst) ∧ ∀ e, r = .error e → F e := by
  induction h with
  | done => exact ⟨nofun, nofun⟩
  | fail =>
    refine ⟨nofun, fun e he => ?_⟩
    cases he
    exact hp
  | call _ hi =>
    have ⟨hc, hf⟩ := hi <| hp.right _
    exact ⟨List.forall_mem_cons.mpr ⟨hp.left, hc⟩, hf⟩

-- The run in which each call gets the answer which `f` gives to it.
def play (f : (c : S.Call) → S.Answer c) : Program S ε α → Trace S × Except ε α
  | done a   => ([], .ok a)
  | fail e   => ([], .error e)
  | call c k =>
    let (tr, r) := (k (f c)).play f
    (⟨c, f c⟩ :: tr, r)

theorem play_call {f : (c : S.Call) → S.Answer c} {c : S.Call} {k : S.Answer c → Program S ε α} :
    (call c k).play f = (⟨c, f c⟩ :: ((k (f c)).play f).fst, ((k (f c)).play f).snd) :=
  rfl

theorem runs_play {f : (c : S.Call) → S.Answer c} {p : Program S ε α} :
    p.Runs (p.play f).fst (p.play f).snd := by
  induction p with
  | done        => exact .done
  | fail        => exact .fail
  | call c _ hi => exact .call (hi <| f c)

theorem exists_runs_play {f : (c : S.Call) → S.Answer c} {p : Program S ε α}
    (h : (p.play f).snd.isOk) : ∃ a, p.Runs (p.play f).fst (.ok a) := by
  have hr := runs_play (f := f) (p := p)
  generalize (p.play f).snd = r at h hr
  cases r
  case error => exact absurd h Bool.false_ne_true
  case ok a  => exact ⟨a, hr⟩

theorem exists_runs_of_play {f : (c : S.Call) → S.Answer c} {p : Program S ε α} {g : α → Bool}
    (h : (p.play f).snd.toOption.any g) : ∃ tr a, p.Runs tr (.ok a) ∧ g a := by
  have hr := runs_play (f := f) (p := p)
  generalize (p.play f).snd = r at h hr
  cases r
  case error => cases h
  case ok a  => exact ⟨_, a, hr, h⟩

end Program
end Async
