import Mathlib.Data.Fintype.Basic
import SprayCC.History

-- The history file of a home directory, which all servers of a user write when they shut down.

namespace SprayCC

-- The serialization of histories, with the failures of both directions.
structure Json where
  toVecPretty : History → Option (List UInt8)
  fromStr     : List UInt8 → Option History

namespace History

-- Extends a map with all entries of another one, which replace those that are there.
def merge (h incoming : History) : History :=
  { h with history := h.history ∪ incoming.history }

-- The entry is from after the cutoff time, which lies half a year before `now` and maybe before the
-- epoch.
def recent (now asOf : SystemTime) : Bool :=
  now < asOf + secs (3600 * 24 * 366 / 2)

def dropStale (h : History) (now : SystemTime) : History :=
  { h with history := h.history.filter fun _ entry => recent now entry.snd }

-- No entry of the history is older than the one of the same target in the other history.
def Newer (h h' : History) : Prop :=
  ∀ (target : String) (entry entry' : Duration × SystemTime), h.history[target]? = some entry →
    h'.history[target]? = some entry' → entry'.snd ≤ entry.snd

instance (h h' : History) : Decidable (h.Newer h') :=
  decidable_of_iff
    (∀ e ∈ h.history.toList, ∀ entry' ∈ h'.history[e.fst]?, entry'.snd ≤ e.snd.snd) <| by
    simp only [Newer, Prod.forall, Std.ExtTreeMap.mem_toList_iff_getElem?_eq_some, Option.mem_def]
    exact ⟨fun h t d a d' a' he he' => h t d a he d' a' he', fun h t d a he d' a' he' =>
      h t d a d' a' he he'⟩

-- There is an entry for the target which is at least as new.
def Covers (h : History) (target : String) (asOf : SystemTime) : Prop :=
  ∃ entry : Duration × SystemTime, h.history[target]? = some entry ∧ asOf ≤ entry.snd

variable {h h' : History} {target : String} {asOf now : SystemTime}

theorem recent_mono {asOf' : SystemTime} (h : recent now asOf) (ht : asOf ≤ asOf') :
    recent now asOf' :=
  decide_eq_true <| Nat.lt_of_lt_of_le (of_decide_eq_true h) <| Nat.add_le_add_right ht _

theorem Covers.merge_left (hc : h.Covers target asOf) (hn : h'.Newer h) :
    (h.merge h').Covers target asOf := by
  have ⟨entry, he, ht⟩ := hc
  cases he' : h'.history[target]?
  case none        => exact ⟨entry, by simp [merge, Std.ExtTreeMap.getElem?_union, he, he'], ht⟩
  case some entry' =>
    exact ⟨entry', by simp [merge, Std.ExtTreeMap.getElem?_union, he'], ht.trans <| hn _ _ _ he' he⟩

theorem Covers.mem (hc : h.Covers target asOf) : target ∈ h.history :=
  have ⟨_, he, _⟩ := hc
  Std.ExtTreeMap.mem_iff_isSome_getElem?.mpr <| by simp [he]

theorem Covers.merge_right (hc : h'.Covers target asOf) : (h.merge h').Covers target asOf :=
  have ⟨entry, he, ht⟩ := hc
  ⟨entry, by simp [merge, Std.ExtTreeMap.getElem?_union, he], ht⟩

theorem Covers.dropStale (hc : h.Covers target asOf) (hr : recent now asOf) :
    (h.dropStale now).Covers target asOf := by
  have ⟨entry, he, ht⟩ := hc
  refine ⟨entry, ?_, ht⟩
  simp only [History.dropStale, Std.ExtTreeMap.getElem?_filter', he]
  simp [recent_mono hr ht]

end History

-- Reads an existing file. If there is none, or if it is unreadable, the history is empty.
def Json.load (J : Json) (file : Option (List UInt8)) : History :=
  (file.bind J.fromStr).getD .default

-- Where a call of `write_history_file_internal` is.
inductive WriteCall
  | start
  | loaded (total : History)
  | merged (total : History)
  | trimmed (total : History)
  | written (data : List UInt8)
  | returned
  deriving DecidableEq

-- The call has loaded the file and has not renamed its own one yet.
def WriteCall.Midway : WriteCall → Prop
  | start | returned => False
  | _                => True

instance : DecidablePred WriteCall.Midway
  | .start | .returned                                => .isFalse id
  | .loaded _ | .merged _ | .trimmed _ | .written _   => .isTrue trivial

-- The history file, and the calls of all servers.
structure Home (ι : Type) where
  file  : Option (List UInt8)
  calls : ι → WriteCall

namespace Home

inductive Label (ι : Type)
  | load (i : ι)
  | merge (i : ι)
  | trim (i : ι) (now : SystemTime)
  | write (i : ι)
  | rename (i : ι)

-- The times for which entries were dropped.
def Label.times {ι : Type} : Label ι → List SystemTime
  | trim _ now => [now]
  | _          => []

variable {ι : Type} [DecidableEq ι]

def start (file : Option (List UInt8)) : Home ι where
  file  := file
  calls := fun _ => .start

def set (σ : Home ι) (i : ι) (call : WriteCall) : Home ι :=
  { σ with calls := Function.update σ.calls i call }

def step (J : Json) (own : ι → History) (σ : Home ι) : Label ι → Option (Home ι)
  | .load i =>
    match σ.calls i with
    | .start => some <| σ.set i (.loaded (J.load σ.file))
    | _      => none
  | .merge i =>
    match σ.calls i with
    | .loaded total => some <| σ.set i (.merged (total.merge (own i)))
    | _             => none
  | .trim i now =>
    match σ.calls i with
    | .merged total => some <| σ.set i (.trimmed (total.dropStale now))
    | _             => none
  | .write i =>
    match σ.calls i with
    | .trimmed total =>
      match J.toVecPretty total with
      | some data => some <| σ.set i (.written data)
      | none      => some <| σ.set i .returned
    | _ => none
  | .rename i =>
    match σ.calls i with
    | .written data => some { σ.set i .returned with file := some data }
    | _             => none

-- The runs all of whose steps are allowed, with the times for which entries were dropped.
inductive Reaches (J : Json) (own : ι → History) (file : Option (List UInt8))
    (allows : Home ι → Label ι → Prop) : List SystemTime → Home ι → Prop
  | start : Reaches J own file allows [] (start file)
  | step  : Reaches J own file allows times σ → allows σ l → σ.step J own l = some σ' →
    Reaches J own file allows (times ++ l.times) σ'

def run (J : Json) (own : ι → History) (allows : Home ι → Label ι → Prop)
    [∀ σ l, Decidable (allows σ l)] : List (Label ι) → Home ι → Option (Home ι)
  | [],      σ => some σ
  | l :: ls, σ => if allows σ l then σ.step J own l >>= run J own allows ls else none

-- What is serialized can be read.
def Readable (J : Json) (σ : Home ι) : Label ι → Prop
  | .write i =>
    match σ.calls i with
    | .trimmed total => (J.toVecPretty total).bind J.fromStr = some total
    | _              => True
  | _ => True

instance {J : Json} {σ : Home ι} : (l : Label ι) → Decidable (Readable J σ l)
  | .write i => by unfold Readable; dsimp only; split <;> infer_instance
  | .load _ | .merge _ | .trim .. | .rename _ => .isTrue trivial

-- No file is renamed while another call is midway, and no entry is replaced by an older one.
def Careful (own : ι → History) (σ : Home ι) : Label ι → Prop
  | .merge i =>
    match σ.calls i with
    | .loaded total => (own i).Newer total
    | _             => True
  | .rename i => ∀ j, j ≠ i → ¬(σ.calls j).Midway
  | _         => True

instance [Fintype ι] {own : ι → History} {σ : Home ι} : (l : Label ι) → Decidable (Careful own σ l)
  | .merge i                        => by unfold Careful; dsimp only; split <;> infer_instance
  | .rename i                       => inferInstanceAs <|
      Decidable (∀ j, j ≠ i → ¬(σ.calls j).Midway)
  | .load _ | .trim .. | .write _   => .isTrue trivial

-- The history file has entries for all targets which the servers have recorded or the file had
-- before, if the entries are recent.
structure Kept (J : Json) (own : ι → History) (file : Option (List UInt8)) (times : List SystemTime)
    (σ : Home ι) : Prop where
  recorded : (own i).history[target]? = some entry → (∀ now ∈ times, History.recent now entry.snd) →
    target ∈ (J.load σ.file).history
  original : (J.load file).history[target]? = some entry →
    (∀ now ∈ times, History.recent now entry.snd) → target ∈ (J.load σ.file).history

-- What a call has made of the file, which is still there.
def Made (J : Json) (own : History) (file : Option (List UInt8)) (times : List SystemTime) :
    WriteCall → Prop
  | .start | .returned => True
  | .loaded total      => total = J.load file
  | .merged total      => own.Newer (J.load file) ∧ total = (J.load file).merge own
  | .trimmed total     => own.Newer (J.load file) ∧
    ∃ now ∈ times, total = ((J.load file).merge own).dropStale now
  | .written data      => own.Newer (J.load file) ∧
    ∃ now ∈ times, J.fromStr data = some (((J.load file).merge own).dropStale now)

structure Sound (J : Json) (own : ι → History) (file : Option (List UInt8))
    (times : List SystemTime)
    (σ : Home ι) : Prop where
  made     : Made J (own i) σ.file times (σ.calls i)
  recorded : σ.calls i = .returned → (own i).history[target]? = some entry →
    (∀ now ∈ times, History.recent now entry.snd) → (J.load σ.file).Covers target entry.snd
  original : (J.load file).history[target]? = some entry →
    (∀ now ∈ times, History.recent now entry.snd) → (J.load σ.file).Covers target entry.snd

variable {J : Json} {own : ι → History} {file : Option (List UInt8)}
  {times times' : List SystemTime}
variable {σ σ' : Home ι} {l : Label ι} {i j : ι} {call : WriteCall}

theorem Made.more {own : History} (h : Made J own file times call) (ht : times ⊆ times') :
    Made J own file times' call := by
  cases call
  case trimmed =>
    have ⟨hn, now, hm, h⟩ := h
    exact ⟨hn, now, ht hm, h⟩
  case written =>
    have ⟨hn, now, hm, h⟩ := h
    exact ⟨hn, now, ht hm, h⟩
  all_goals exact h

namespace Sound

-- A step of a call which does not touch the file.
theorem set (h : Sound J own file times σ) (hm : Made J (own i) σ.file times' call)
    (hn : call ≠ .returned) (ht : times ⊆ times') : Sound J own file times' (σ.set i call) where
  made {j} := by
    by_cases hj : j = i
    case pos => subst hj; simpa [Home.set] using hm
    case neg => simpa [Home.set, hj] using h.made.more ht
  recorded {j _ _} hr he hf := by
    by_cases hj : j = i
    case pos => subst hj; simp [Home.set, hn] at hr
    case neg => exact h.recorded (by simpa [Home.set, hj] using hr) he fun now hm => hf now (ht hm)
  original he hf := h.original he fun now hm => hf now (ht hm)

-- The step which replaces the file.
theorem rename {data : List UInt8} (h : Sound J own file times σ) (hc : σ.calls i = .written data)
    (hj : ∀ j, j ≠ i → ¬(σ.calls j).Midway) :
    Sound J own file times { σ.set i .returned with file := some data } := by
  have ⟨hn, now, hm, hd⟩ : Made J (own i) σ.file times (.written data) := hc ▸ h.made
  have hl :
    J.load (some data) = ((J.load σ.file).merge (own i)).dropStale now := by simp [Json.load, hd]
  constructor
  case made =>
    intro j
    by_cases hji : j = i
    case pos => subst hji; simp [Home.set, Made]
    case neg =>
      have hm := hj j hji
      cases hs : σ.calls j <;> simp_all [Home.set, Made, WriteCall.Midway]
  case recorded =>
    intro j target entry hr he hf
    show (J.load (some data)).Covers target entry.snd
    rw [hl]
    apply History.Covers.dropStale _ (hf now hm)
    by_cases hji : j = i
    case pos => subst hji; exact History.Covers.merge_right ⟨_, he, le_rfl⟩
    case neg => exact (h.recorded (by simpa [Home.set, hji] using hr) he hf).merge_left hn
  case original =>
    intro target entry he hf
    show (J.load (some data)).Covers target entry.snd
    rw [hl]
    exact ((h.original he hf).merge_left hn).dropStale (hf now hm)

theorem step (h : Sound J own file times σ) (hr : Readable J σ l) (hc : Careful own σ l)
    (hs : σ.step J own l = some σ') : Sound J own file (times ++ l.times) σ' := by
  have ht : times ⊆ times ++ l.times := List.subset_append_left ..
  cases l <;> simp only [Home.step] at hs
  case load =>
    split at hs <;> cases hs
    exact h.set rfl nofun ht
  case merge i =>
    split at hs <;> cases hs
    case h_1 total hi =>
      have hm : total = J.load σ.file := by simpa [Made, hi] using h.made (i := i)
      simp only [Careful, hi] at hc
      exact h.set ⟨hm ▸ hc, by rw [hm]⟩ nofun ht
  case trim i now =>
    split at hs <;> cases hs
    case h_1 total hi =>
      have ⟨hn, hm⟩ : Made J (own i) σ.file times (.merged total) := hi ▸ h.made
      exact h.set ⟨hn, now, by simp [Label.times], by rw [hm]⟩ nofun ht
  case write i =>
    split at hs <;> [skip; cases hs]
    case h_1 total hi =>
      have ⟨hn, now, hm, hd⟩ : Made J (own i) σ.file times (.trimmed total) := hi ▸ h.made
      simp only [Readable, hi] at hr
      have ⟨data, hw, hf⟩ := Option.bind_eq_some_iff.mp hr
      simp only [hw, Option.some.injEq] at hs
      exact hs ▸ h.set ⟨hn, now, ht hm, hd ▸ hf⟩ nofun ht
  case rename i =>
    split at hs <;> cases hs
    case h_1 hi => simpa [Label.times] using h.rename hi hc

end Sound

theorem Reaches.sound
    (h : Reaches J own file (fun σ l => Readable J σ l ∧ Careful own σ l) times σ) :
    Sound J own file times σ := by
  induction h with
  | start           => exact ⟨trivial, nofun, fun h _ => ⟨_, h, le_rfl⟩⟩
  | step _ ha hs hi => exact hi.step ha.left ha.right hs

-- Once all calls have returned.
theorem Reaches.kept (h : Reaches J own file (fun σ l => Readable J σ l ∧ Careful own σ l) times σ)
    (hr : ∀ i, σ.calls i = .returned) : Kept J own file times σ where
  recorded he hf := (h.sound.recorded (hr _) he hf).mem
  original he hf := (h.sound.original he hf).mem

theorem Reaches.run {allows : Home ι → Label ι → Prop} [∀ σ l, Decidable (allows σ l)]
    {ls : List (Label ι)} (h : Reaches J own file allows times σ)
      (hr : σ.run J own allows ls = some σ') :
    Reaches J own file allows (times ++ ls.flatMap Label.times) σ' := by
  induction ls generalizing times σ with
  | nil => cases hr; simpa using h
  | cons l ls hi =>
    simp only [Home.run, Option.bind_eq_bind] at hr
    split at hr
    case isTrue ha =>
      have ⟨_, hs, hr⟩ := Option.bind_eq_some_iff.mp hr
      simpa using hi (h.step ha hs) hr
    case isFalse => cases hr

theorem Reaches.of_run {allows : Home ι → Label ι → Prop} [∀ σ l, Decidable (allows σ l)]
    {f : Home ι → Bool} (ls : List (Label ι)) (h : ((Home.start file).run J own allows ls).any f) :
    ∃ σ, Reaches J own file allows (ls.flatMap Label.times) σ ∧ f σ := by
  cases hr : (Home.start file).run J own allows ls
  case none   => simp [hr] at h
  case some σ => exact ⟨σ, Reaches.start.run hr, by simpa [hr] using h⟩

end Home

-- The text which is written for targets whose names need no escapes, and which is read again if it
-- is that of one of the histories which are known.
namespace Json

def ascii (text : String) : List UInt8 :=
  text.toList.map fun c => .ofNat c.toNat

def number (n : Nat) : List UInt8 :=
  (Nat.toDigits 10 n).map fun c => .ofNat c.toNat

def time (suffix : String) (t : Nat) : List UInt8 :=
  ascii "      \x7b\n        \"secs" ++ ascii suffix ++ ascii "\": " ++ number (t / secs 1) ++
    ascii ",\n        \"nanos" ++ ascii suffix ++ ascii "\": " ++ number (t % secs 1) ++
    ascii "\n      \x7d"

def entry : String × Duration × SystemTime → List UInt8
  | (target, elapsed, asOf) =>
    ascii "    \"" ++ ascii target ++ ascii "\": [\n" ++ time "" elapsed ++ ascii ",\n" ++
      time "_since_epoch" asOf ++ ascii "\n    ]"

def text (h : History) : List UInt8 :=
  ascii "\x7b\n  \"version\": " ++ number h.version.toNat ++ ascii ",\n  \"history\": \x7b\n" ++
    (h.history.toList.map entry |>.intersperse (ascii ",\n") |>.flatten) ++ ascii "\n  \x7d\n\x7d"

def knowing (known : List History) : Json where
  toVecPretty h := some (text h)
  fromStr data  := known.find? fun h => text h = data

end Json

namespace Home

-- Two servers, each of which has recorded one target.
def twoServers (second : Bool) : History :=
  if second then History.default.update "b.o" (secs 7) (secs 1700000000)
  else History.default.update "a.o" (secs 5) (secs 1700000000)

theorem kept_twoServers :
    ∃ (J : Json) (σ : Home Bool),
      Reaches J twoServers none (fun σ l => Readable J σ l ∧ Careful twoServers σ l)
      [secs 1700000001, secs 1700000002] σ ∧ (∀ i, σ.calls i = .returned) ∧
        Kept J twoServers none [secs 1700000001, secs 1700000002] σ :=
  let J := Json.knowing [twoServers false, (twoServers false).merge (twoServers true)]
  have ⟨σ, h, hr⟩ : ∃ σ, Reaches J twoServers none
      (fun σ l => Readable J σ l ∧ Careful twoServers σ l) _ σ ∧ _ := Reaches.of_run
    (f := fun σ => ∀ i, σ.calls i = .returned)
    [.load false, .merge false, .trim false (secs 1700000001), .write false, .rename false,
      .load true, .merge true, .trim true (secs 1700000002), .write true, .rename true]
        (by decide +kernel)
  have hr := of_decide_eq_true hr
  ⟨J, σ, h, hr, h.kept hr⟩

-- Both servers load the file before either has renamed its own.
theorem entry_lost :
    ¬∀ (J : Json) (own : Bool → History) file times (σ : Home Bool),
      Reaches J own file (fun σ l => Readable J σ l) times σ → (∀ i, σ.calls i = .returned) →
        Kept J own file times σ := by
  intro h
  let J := Json.knowing [twoServers false, twoServers true]
  have ⟨σ, hr, hf⟩ : ∃ σ, Reaches J twoServers none (fun σ l => Readable J σ l) _ σ ∧ _ :=
    Reaches.of_run
    (f := fun σ => (∀ i, σ.calls i = .returned) ∧ "a.o" ∉ (J.load σ.file).history)
    [.load false, .load true, .merge false, .merge true, .trim false (secs 1700000001),
      .trim true (secs 1700000001), .write false, .write true, .rename false, .rename true]
        (by decide +kernel)
  have ⟨hd, ha⟩ := of_decide_eq_true hf
  have he : (twoServers false).history["a.o"]? = some (secs 5, secs 1700000000) := by decide +kernel
  exact ha <| (h _ _ _ _ _ hr hd).recorded he (by decide +kernel)

end Home
end SprayCC
