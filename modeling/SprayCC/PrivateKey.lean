import SprayCC.Async.Runs
import SprayCC.ContactFile

open Async

-- The private key of a user, which processes of the user read, or create if there is none.

namespace SprayCC

structure UserPrivateKey where
  key : UInt64

-- Where a call of `load_user_private_key(true)` is: whether it has opened the file for reading or
-- there was none, whether it has opened the file for writing then, and how it has returned.
inductive KeyCall
  | start
  | opened
  | missing
  | created
  | found (key : UInt64)
  | generated
  | unreadable
  deriving DecidableEq

namespace KeyCall

def fallback : UInt64 :=
  13

-- What the call has returned, if it generates the key `own`.
def result (own : UInt64) : KeyCall → Option UInt64
  | found key  => some key
  | generated  => some own
  | unreadable => some fallback
  | _          => none

-- The call has opened the file for writing.
def Creates : KeyCall → Prop
  | created | generated => True
  | _                   => False

instance : DecidablePred Creates
  | created | generated                             => .isTrue trivial
  | start | opened | missing | found _ | unreadable => .isFalse id

-- What the call has returned or will return, once this is settled.
def bound (own : UInt64) : KeyCall → Option UInt64
  | created => some own
  | call    => call.result own

variable {own key : UInt64} {call : KeyCall}

theorem Creates.bound (h : call.Creates) : call.bound own = some own := by
  cases call <;> first | rfl | exact h.elim

theorem bound_of_result (h : call.result own = some key) : call.bound own = some key := by
  cases call <;> first | exact h | cases h

end KeyCall

-- The key file in a home directory, and the calls of all processes.
structure KeyHome (ι : Type) where
  file  : Option (List UInt8)
  calls : ι → KeyCall

namespace KeyHome

inductive Label (ι : Type)
  | open (i : ι)
  | read (i : ι)
  | create (i : ι)
  | write (i : ι)

-- The key which a process makes of a random number.
def newKey (random : UInt64) : UserPrivateKey where
  key := random >>> 1

def own {ι : Type} (random : ι → UInt64) (i : ι) : UInt64 :=
  (newKey (random i)).key

def readKey (T : Toml UserPrivateKey) (content : List UInt8) : Option UserPrivateKey := do
  T.fromStr (← readToString content)

variable {ι : Type}

section Steps

variable [DecidableEq ι]

def start : KeyHome ι where
  file    := none
  calls _ := .start

def set (σ : KeyHome ι) (i : ι) (call : KeyCall) : KeyHome ι :=
  { σ with calls := Function.update σ.calls i call }

def step (T : Toml UserPrivateKey) (random : ι → UInt64) (σ : KeyHome ι) :
    Label ι → Option (KeyHome ι)
  | .open i =>
    match σ.calls i with
    | .start => some <| σ.set i (if σ.file.isSome then .opened else .missing)
    | _      => none
  | .read i =>
    match σ.calls i, σ.file with
    | .opened, some content =>
      match readKey T content with
      | some key => some <| σ.set i (.found key.key)
      | none     => some <| σ.set i .unreadable
    | _, _ => none
  | .create i =>
    match σ.calls i with
    -- An existing file is neither rejected nor truncated.
    | .missing => some { σ.set i .created with file := some (σ.file.getD []) }
    | _        => none
  | .write i =>
    match σ.calls i, σ.file with
    | .created, some content =>
      (T.toString (newKey (random i))).map fun keystr =>
        { σ.set i .generated with
          file := some (overwrite content (utf8 keystr)) }
    | _, _ => none

def run (T : Toml UserPrivateKey) (random : ι → UInt64) : List (Label ι) → KeyHome ι →
    Option (KeyHome ι)
  | [],      σ => some σ
  | l :: ls, σ => (σ.step T random l).bind (run T random ls)

end Steps

-- The file holds a key, which all calls have returned.
def Agreed (T : Toml UserPrivateKey) (random : ι → UInt64) (σ : KeyHome ι) : Prop :=
  ∃ key : UserPrivateKey, σ.file.bind (readKey T) = some key ∧
    ∀ i, (σ.calls i).result (own random i) = some key.key

-- No process opens the file for writing after another one with another key, and none reads the file
-- before it is written.
def Careful (random : ι → UInt64) (σ : KeyHome ι) : Label ι → Prop
  | .create i => ∀ j, (σ.calls j).Creates → own random j = own random i
  | .read _   => σ.file = some [] → ∀ j, (σ.calls j).Creates → own random j = KeyCall.fallback
  | _         => True

-- What the keys are serialized as is read again, and an empty file is not a key.
structure Serializes (T : Toml UserPrivateKey) (random : ι → UInt64) : Prop where
  toString : ∀ i, ∃ keystr, T.toString (newKey (random i)) = some keystr
  undoes   : ∀ i, T.Undoes (newKey (random i))
  empty    : T.fromStr "" = none

-- What the calls have returned or will return, once this is settled.
def bound (random : ι → UInt64) (σ : KeyHome ι) (i : ι) : Option UInt64 :=
  (σ.calls i).bound (own random i)

-- All calls which are settled return the same key.
def Uniform (bound : ι → Option UInt64) : Prop :=
  ∀ i j key key', bound i = some key → bound j = some key' → key = key'

-- What is in the file.
def Filled (T : Toml UserPrivateKey) (random : ι → UInt64) (σ : KeyHome ι) : Prop :=
  match σ.file with
  | none         => ∀ i, σ.calls i = .start ∨ σ.calls i = .missing
  | some content => ∃ i, (σ.calls i).Creates ∧
      (content = [] ∧ (∀ j, σ.calls j ≠ .generated) ∨
        ∃ keystr, T.toString (newKey (random i)) = some keystr ∧ content = utf8 keystr)

variable {T : Toml UserPrivateKey} {random : ι → UInt64}

theorem readKey_utf8 {i : ι} (hT : Serializes T random) {keystr : String}
    (h : T.toString (newKey (random i)) = some keystr) :
    readKey T (utf8 keystr) = some (newKey (random i)) := by
  simp [readKey, readToString_utf8, hT.undoes i _ h]

theorem readKey_nil (hT : Serializes T random) : readKey T [] = none := by
  have hr : readToString (utf8 "") = some "" := readToString_utf8
  have hn : utf8 "" = [] := rfl
  simp [readKey, hn ▸ hr, hT.empty]

-- What a step is, case by case.
inductive Turn [DecidableEq ι] (T : Toml UserPrivateKey) (random : ι → UInt64) (σ : KeyHome ι) :
    Label ι → KeyHome ι → Prop
  | open :
    σ.calls i = .start →
    Turn T random σ (.open i) (σ.set i (if σ.file.isSome then .opened else .missing))
  | found :
    σ.calls i = .opened → σ.file = some content → readKey T content = some key →
    Turn T random σ (.read i) (σ.set i (.found key.key))
  | unreadable :
    σ.calls i = .opened → σ.file = some content → readKey T content = none →
    Turn T random σ (.read i) (σ.set i .unreadable)
  | create :
    σ.calls i = .missing →
    Turn T random σ (.create i) { σ.set i .created with file := some (σ.file.getD []) }
  | write :
    σ.calls i = .created → σ.file = some content → T.toString (newKey (random i)) = some keystr →
    Turn T random σ (.write i)
      { σ.set i .generated with file := some (overwrite content (utf8 keystr)) }

section Steps

variable [DecidableEq ι] {σ σ' : KeyHome ι} {l : Label ι} {i j : ι} {call : KeyCall} {key : UInt64}
  {b : ι → Option UInt64}

theorem turn_of_step (h : σ.step T random l = some σ') : σ.Turn T random l σ' := by
  cases l <;> simp only [step] at h
  case «open» =>
    split at h <;> cases h
    exact .open ‹_›
  case read =>
    split at h <;> [skip; cases h]
    split at h <;> cases h
    case h_1 hr => exact .found ‹_› ‹_› hr
    case h_2 hr => exact .unreadable ‹_› ‹_› hr
  case create =>
    split at h <;> cases h
    exact .create ‹_›
  case write =>
    split at h <;> [skip; cases h]
    have ⟨_, hk, h⟩ := Option.map_eq_some_iff.mp h
    exact h ▸ .write ‹_› ‹_› hk

theorem bound_set :
    (σ.set i call).bound random =
      Function.update (σ.bound random) i (call.bound (own random i)) := by
  ext1 j
  by_cases hj : j = i
  case pos => subst hj; simp [bound, set]
  case neg => simp [bound, set, hj]

-- A call which is settled now agrees with the others, or not.
theorem uniform_update_iff (hi : b i = none) :
    Uniform (Function.update b i (some key)) ↔ ∀ j key', b j = some key' → key' = key := by
  constructor
  case mp  =>
    intro hu j key' hj
    have hn : j ≠ i := fun he => by simp [he, hi] at hj
    exact hu j i key' key (by simpa [hn] using hj) (by simp)
  case mpr =>
    intro hk j j' k k' hj hj'
    have hs {j k} (hj : Function.update b i (some key) j = some k) : k = key := by
      by_cases hn : j = i
      case pos => subst hn; simpa using hj.symm
      case neg => exact hk j k <| by simpa [hn] using hj
    exact (hs hj).trans (hs hj').symm

omit [DecidableEq ι] in
theorem bound_of_calls (h : σ.calls i = call) :
    σ.bound random i = call.bound (own random i) :=
  congrArg _ h

structure Sound (T : Toml UserPrivateKey) (random : ι → UInt64) (σ : KeyHome ι) : Prop where
  filled  : σ.Filled T random
  uniform : Uniform (σ.bound random)

omit [DecidableEq ι] in
theorem Sound.exists_creator (h : Sound T random σ) (hc : σ.calls i ≠ .start)
    (hm : σ.calls i ≠ .missing) : ∃ j, (σ.calls j).Creates := by
  have hf := h.filled
  unfold Filled at hf
  split at hf
  case h_1 => exact absurd (hf i) <| not_or.mpr ⟨hc, hm⟩
  case h_2 => exact have ⟨j, hj, _⟩ := hf; ⟨j, hj⟩

omit [DecidableEq ι] in
theorem Sound.bound_eq (h : Sound T random σ) (hj : (σ.calls j).Creates)
    (hb : σ.bound random i = some key) : key = own random j :=
  h.uniform i j key _ hb hj.bound

-- A call which is settled now agrees with the others if it agrees with those who create the file.
theorem Sound.uniform_iff (h : Sound T random σ) (hi : σ.bound random i = none)
    (hb : call.bound (own random i) = some key) :
    Uniform ((σ.set i call).bound random) ↔ ∀ j, (σ.calls j).Creates → own random j = key := by
  rw [bound_set, hb, uniform_update_iff hi]
  constructor
  case mp  => exact fun hk j hj => hk j _ hj.bound
  case mpr =>
    intro hk j key' hj
    have hn {call} (hs : σ.calls j = call) : call.bound (own random j) ≠ none := fun hn => by
      cases hj.symm.trans <| (bound_of_calls hs).trans hn
    have ⟨j', hj'⟩ := h.exists_creator (fun hs => hn hs rfl) fun hs => hn hs rfl
    exact (h.bound_eq hj' hj).trans (hk j' hj')

omit [DecidableEq ι] in
-- What is in the file when it is read.
theorem Sound.readKey_eq (h : Sound T random σ) (hT : Serializes T random) {content : List UInt8}
    (hf : σ.file = some content) :
    content = [] ∧ readKey T content = none ∨
      content ≠ [] ∧ ∃ i, (σ.calls i).Creates ∧ readKey T content = some (newKey (random i)) := by
  have hc := h.filled
  simp only [Filled, hf] at hc
  have ⟨i, hi, hc⟩ := hc
  rcases hc with ⟨hn, _⟩ | ⟨keystr, hk, hc⟩
  case inl => exact .inl ⟨hn, hn ▸ readKey_nil hT⟩
  case inr =>
    have hr := readKey_utf8 hT hk
    refine .inr ⟨fun hn => ?_, i, hi, hc ▸ hr⟩
    rw [← hc, hn, readKey_nil hT] at hr
    cases hr

theorem Turn.uniform_iff (t : σ.Turn T random l σ') (hT : Serializes T random)
    (h : Sound T random σ) : Uniform (σ'.bound random) ↔ σ.Careful random l := by
  cases t
  case «open» i hi =>
    have hb : (σ.set i (if σ.file.isSome then .opened else .missing)).bound random =
        σ.bound random := by
      rw [bound_set]
      refine Function.update_eq_self_iff.mpr <| Eq.trans ?_ (bound_of_calls hi).symm
      split <;> rfl
    exact iff_of_true (hb ▸ h.uniform) trivial
  case found i content key hi hf hr =>
    have hn : σ.bound random i = none := bound_of_calls hi
    rcases h.readKey_eq hT hf with ⟨_, hr'⟩ | ⟨hc, j, hj, hr'⟩
    case inl => simp [hr] at hr'
    case inr =>
      cases hr.symm.trans hr'
      refine iff_of_true ((h.uniform_iff hn rfl).mpr fun j' hj' => ?_) fun hf' => ?_
      case refine_1 => exact h.bound_eq hj hj'.bound
      case refine_2 => exact absurd (Option.some.inj <| hf.symm.trans hf') hc
  case unreadable i content hi hf hr =>
    have hn : σ.bound random i = none := bound_of_calls hi
    rw [h.uniform_iff hn rfl]
    rcases h.readKey_eq hT hf with ⟨hc, _⟩ | ⟨_, j, _, hr'⟩
    case inl => exact (imp_iff_right <| hc ▸ hf).symm
    case inr => simp [hr] at hr'
  case create i hi =>
    have hn : σ.bound random i = none := bound_of_calls hi
    exact h.uniform_iff hn rfl
  case write i content keystr hi hf hk =>
    have hb : (σ.set i .generated).bound random = σ.bound random := by
      rw [bound_set]
      exact Function.update_eq_self_iff.mpr (bound_of_calls hi).symm
    exact iff_of_true (show Uniform ((σ.set i .generated).bound random) from hb ▸ h.uniform) trivial

theorem Turn.bound_persists (t : σ.Turn T random l σ') (hb : σ.bound random i = some key) :
    σ'.bound random i = some key := by
  have hn {j call} (hj : σ.calls j = call) (hc : call.bound (own random j) = none) : i ≠ j := by
    rintro rfl
    cases hb.symm.trans <| (bound_of_calls hj).trans hc
  have hs {j call} (hj : i ≠ j) : (σ.set j call).bound random i = some key := by
    rwa [bound_set, Function.update_of_ne hj]
  cases t
  case «open» hj       => exact hs <| hn hj rfl
  case found hj _ _    => exact hs <| hn hj rfl
  case unreadable hj _ _ => exact hs <| hn hj rfl
  case create hj       => exact hs <| hn hj rfl
  case write j _ _ hj _ _ =>
    show (σ.set j .generated).bound random i = some key
    rw [bound_set]
    by_cases hi : i = j
    case pos => subst hi; exact (Function.update_self ..).trans <| (bound_of_calls hj).symm.trans hb
    case neg => rwa [Function.update_of_ne hi]

-- A step of a call which does not write to the file.
theorem Filled.set {content : List UInt8} (h : σ.Filled T random) (hf : σ.file = some content)
    (hi : ¬(σ.calls i).Creates) (hc : call ≠ .generated) : (σ.set i call).Filled T random := by
  simp only [Filled, hf] at h
  have ⟨j, hj, h⟩ := h
  have hn : j ≠ i := fun he => hi (he ▸ hj)
  simp only [Filled, show (σ.set i call).file = some content from hf]
  refine ⟨j, by simpa [KeyHome.set, hn] using hj, h.imp_left fun ⟨he, hg⟩ => ⟨he, fun j' => ?_⟩⟩
  by_cases hj' : j' = i
  case pos => subst hj'; simpa [KeyHome.set] using hc
  case neg => simpa [KeyHome.set, hj'] using hg j'

theorem Turn.filled (t : σ.Turn T random l σ') (h : Sound T random σ) : σ'.Filled T random := by
  have hf := h.filled
  cases t
  case «open» i hi =>
    cases hc : σ.file
    case none =>
      simp only [Filled, hc] at hf
      simp only [Filled, show (σ.set i _).file = none from hc]
      intro j
      by_cases hj : j = i
      case pos => subst hj; exact .inr <| by simp [set]
      case neg => simpa [set, hj] using hf j
    case some => exact hf.set hc (hi ▸ id) nofun
  case found hi hc _       => exact hf.set hc (hi ▸ id) nofun
  case unreadable hi hc _  => exact hf.set hc (hi ▸ id) nofun
  case create i hi =>
    cases hc : σ.file
    case none =>
      simp only [Filled, hc] at hf
      refine ⟨i, by simp [set, KeyCall.Creates], .inl ⟨rfl, fun j => ?_⟩⟩
      by_cases hj : j = i
      case pos => subst hj; simp [set]
      case neg => rcases hf j with hf | hf <;> simp [set, hj, hf]
    case some content =>
      have hs : (σ.set i .created).Filled T random := hf.set hc (hi ▸ id) nofun
      simpa [set, hc] using hs
  case write i content keystr hi hc hk =>
    refine ⟨i, by simp [set, KeyCall.Creates], .inr ⟨keystr, hk, ?_⟩⟩
    simp only [Filled, hc] at hf
    rcases hf with ⟨j, hj, ⟨he, _⟩ | ⟨keystr', hk', he⟩⟩
    case inl => simp [he, overwrite]
    case inr =>
      have ho : own random i = own random j := h.bound_eq hj <| bound_of_calls hi
      have hn : newKey (random i) = newKey (random j) := congrArg UserPrivateKey.mk ho
      rw [hn] at hk
      cases hk.symm.trans hk'
      exact he ▸ overwrite_eq_iff.mpr le_rfl

theorem Turn.sound_iff (t : σ.Turn T random l σ') (hT : Serializes T random)
    (h : Sound T random σ) : Sound T random σ' ↔ σ.Careful random l where
  mp h'  := (t.uniform_iff hT h).mp h'.uniform
  mpr hc := ⟨t.filled h, (t.uniform_iff hT h).mpr hc⟩

theorem bound_persists {ls : List (Label ι)} (hr : σ.run T random ls = some σ')
    (hb : σ.bound random i = some key) : σ'.bound random i = some key := by
  induction ls generalizing σ with
  | nil => cases hr; exact hb
  | cons l ls hi =>
    have ⟨_, hs, hr⟩ := Option.bind_eq_some_iff.mp hr
    exact hi hr <| (turn_of_step hs).bound_persists hb

omit [DecidableEq ι] in
theorem sound_start : Sound T random start where
  filled _ := .inl rfl
  uniform  := nofun

-- A run goes well just if its steps are careful, and this can be seen from its end.
theorem Sound.along {ls : List (Label ι)} (hT : Serializes T random) (h : Sound T random σ)
    (hr : σ.run T random ls = some σ') (hu : Uniform (σ'.bound random)) :
    Along (step T random) (Careful random) ls σ := by
  induction ls generalizing σ with
  | nil => trivial
  | cons l ls hi =>
    have ⟨σ₁, hs, hr⟩ := Option.bind_eq_some_iff.mp hr
    have t := turn_of_step hs
    have hu₁ : Uniform (σ₁.bound random) := fun i j key key' hb hb' =>
      hu i j key key' (bound_persists hr hb) (bound_persists hr hb')
    intro σ₂ hs'
    cases hs.symm.trans hs'
    have hc := (t.uniform_iff hT h).mp hu₁
    exact ⟨hc, hi ((t.sound_iff hT h).mpr hc) hr⟩

theorem Sound.of_along {ls : List (Label ι)} (hT : Serializes T random) (h : Sound T random σ)
    (hr : σ.run T random ls = some σ') (ha : Along (step T random) (Careful random) ls σ) :
    Sound T random σ' := by
  induction ls generalizing σ with
  | nil => cases hr; exact h
  | cons l ls hi =>
    have ⟨_, hs, hr⟩ := Option.bind_eq_some_iff.mp hr
    have ⟨hc, ha⟩ := ha _ hs
    exact hi (((turn_of_step hs).sound_iff hT h).mpr hc) hr ha

-- Once all calls have returned, there is a key which they all have returned just if the processes
-- have been careful.
theorem agreed_iff_along [Nonempty ι] {ls : List (Label ι)} (hT : Serializes T random)
    (hr : start.run T random ls = some σ) (hf : ∀ i, (σ.calls i).result (own random i) ≠ none) :
    σ.Agreed T random ↔ Along (step T random) (Careful random) ls start := by
  constructor
  case mp  =>
    intro ⟨key, _, hk⟩
    refine sound_start.along hT hr fun i j key₁ key₂ hb hb' => ?_
    have hk {i key'} (hb : σ.bound random i = some key') : key' = key.key :=
      Option.some.inj <| hb.symm.trans <| KeyCall.bound_of_result (hk i)
    exact (hk hb).trans (hk hb').symm
  case mpr =>
    intro ha
    have h := sound_start.of_along hT hr ha
    have ⟨i₀⟩ := ‹Nonempty ι›
    have hn {i call} (hs : σ.calls i = call) : call.result (own random i) ≠ none := hs ▸ hf i
    have hc := h.filled
    unfold Filled at hc
    split at hc
    case h_1 => rcases hc i₀ with hs | hs <;> exact absurd rfl (hn hs)
    case h_2 content hs =>
      have ⟨j, hj, hc⟩ := hc
      have hg : σ.calls j = .generated := by
        cases hs : σ.calls j <;> first | rfl | exact absurd hj (hs ▸ id) | exact absurd rfl (hn hs)
      rcases hc with ⟨_, hc⟩ | ⟨keystr, hk, hc⟩
      case inl => exact absurd hg (hc j)
      case inr =>
        refine ⟨newKey (random j), by simp [hs, hc, readKey_utf8 hT hk], fun i => ?_⟩
        have ⟨key, hi⟩ := Option.ne_none_iff_exists'.mp (hf i)
        exact hi.trans <| congrArg some <| h.bound_eq hj <| KeyCall.bound_of_result hi

end Steps

-- The text which is written for a key.
def keyText (key : UserPrivateKey) : String :=
  s!"key = {key.key.toNat}\n"

def keyToml (known : List UserPrivateKey) : Toml UserPrivateKey where
  toString key := if key.key.toNat < 2 ^ 63 then some (keyText key) else none
  fromStr text := known.find? (keyText · = text)

-- Two processes, the keys of which have five and two digits.
def twoRandoms (second : Bool) : UInt64 :=
  if second then 84 else 24690

def twoKeys : Toml UserPrivateKey :=
  keyToml [newKey (twoRandoms false), newKey (twoRandoms true)]

theorem serializes_twoKeys : Serializes twoKeys twoRandoms where
  toString i := by cases i <;> exact ⟨_, rfl⟩
  undoes i   := by
    intro text hs
    cases i <;> cases hs <;> rfl
  empty      := by decide +kernel

theorem exists_run {f : KeyHome Bool → Bool} (ls : List (Label Bool))
    (h : (start.run twoKeys twoRandoms ls).any f) :
    ∃ σ, start.run twoKeys twoRandoms ls = some σ ∧ f σ :=
  Option.any_eq_true .. |>.mp h

theorem agreed_iff_along_twoKeys :
    ∃ ls σ, start.run twoKeys twoRandoms ls = some σ ∧
      (∀ i, (σ.calls i).result (own twoRandoms i) ≠ none) ∧
        (σ.Agreed twoKeys twoRandoms ↔
          Along (step twoKeys twoRandoms) (Careful twoRandoms) ls start) :=
  have ⟨σ, hr, hf⟩ := exists_run
    (f := fun σ => ∀ i, (σ.calls i).result (own twoRandoms i) ≠ none)
    [.open false, .create false, .write false, .open true, .read true] (by decide +kernel)
  have hf := of_decide_eq_true hf
  ⟨_, σ, hr, hf, agreed_iff_along serializes_twoKeys hr hf⟩

-- Both processes find no file, and each returns the key which it has generated itself.
theorem keys_differ :
    ¬∀ (T : Toml UserPrivateKey) (random : Bool → UInt64) ls σ, Serializes T random →
      start.run T random ls = some σ → (∀ i, (σ.calls i).result (own random i) ≠ none) →
        σ.Agreed T random := by
  intro h
  have ⟨σ, hr, hf⟩ := exists_run
    (f := fun σ => ∀ i, σ.calls i = .generated)
    [.open false, .open true, .create false, .create true, .write false, .write true]
    (by decide +kernel)
  have hc := of_decide_eq_true hf
  have hg (i) : (σ.calls i).result (own twoRandoms i) = some (own twoRandoms i) :=
    congrArg (KeyCall.result _) (hc i)
  have ⟨key, _, hk⟩ := h _ _ _ σ serializes_twoKeys hr fun i => hg i ▸ nofun
  have hd : own twoRandoms false ≠ own twoRandoms true := by decide +kernel
  have hk (i) : own twoRandoms i = key.key := Option.some.inj <| (hg i).symm.trans (hk i)
  exact hd <| (hk false).trans (hk true).symm

end KeyHome
end SprayCC
